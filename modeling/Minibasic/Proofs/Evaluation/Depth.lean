import Minibasic.Proofs.Evaluation.Blame
import Minibasic.Proofs.Evaluation.Visited

/-!
How deep environments are. A call adds one scope to the environment that its function was made in,
and not to that of its caller; so environments are no deeper than functions are nested in the text
of the programs, however deep the calls go.
-/

namespace Minibasic

variable {α : Type}

mutual

/-- How many functions there are at most, one inside of the other. -/
def Expr.nesting : Expr α → Nat
  | .number _ _ | .string _ _ | .var _ _ => 0
  | .assign _ _ e | .unary _ _ e => e.nesting
  | .binary _ _ l r => max l.nesting r.nesting
  | .choose _ c b as => max (max c.nesting b.nesting) as.nesting
  | .count _ _ a b s e => max (max a.nesting b.nesting) (max (Expr.stepNesting s) e.nesting)
  | .loop _ c b => max c.nesting b.nesting
  | .function _ _ _ b => b.nesting + 1
  | .call _ c as => max c.nesting (Expr.allNesting as)

def Arms.nesting : Arms α → Nat
  | .done => 0
  | .otherwise b => b.nesting
  | .elif c b as => max (max c.nesting b.nesting) as.nesting

def Expr.stepNesting : Option (Expr α) → Nat
  | none => 0
  | some e => e.nesting

def Expr.allNesting : List (Expr α) → Nat
  | [] => 0
  | e :: es => max e.nesting (Expr.allNesting es)

end

theorem Arms.nesting_le_of_child {as : Arms α} {c : Expr α} (h : c ∈ as.children) :
    c.nesting ≤ as.nesting := by
  cases as with
  | done => cases h
  | otherwise b => exact List.mem_singleton.mp h ▸ Nat.le_refl _
  | elif test b as =>
    rw [nesting]
    rcases List.mem_cons.mp h with rfl | h
    · omega
    rcases List.mem_cons.mp h with rfl | h
    · omega
    · have has := as.nesting_le_of_child h
      omega

namespace Expr

theorem nesting_le_of_mem {es : List (Expr α)} {e : Expr α} (h : e ∈ es) :
    e.nesting ≤ allNesting es := by
  induction es with
  | nil => cases h
  | cons e' es ih =>
    rw [allNesting]
    rcases List.mem_cons.mp h with rfl | h
    · exact Nat.le_max_left _ _
    · exact Nat.le_trans (ih h) (Nat.le_max_right _ _)

theorem nesting_le_of_child {e c : Expr α} (h : c ∈ e.children) : c.nesting ≤ e.nesting := by
  cases e with
  | number | string | var => cases h
  | assign | unary => exact List.mem_singleton.mp h ▸ Nat.le_refl _
  | function =>
    rw [List.mem_singleton.mp h]
    exact Nat.le_succ _
  | binary | loop =>
    simp only [children, List.mem_cons, List.not_mem_nil, or_false] at h
    rw [nesting]
    rcases h with rfl | rfl <;> omega
  | choose m test b as =>
    rw [nesting]
    rcases List.mem_cons.mp h with rfl | h
    · omega
    rcases List.mem_cons.mp h with rfl | h
    · omega
    · have has := as.nesting_le_of_child h
      omega
  | count m x a b s body =>
    simp only [children, List.mem_cons, List.mem_append, Option.mem_toList, List.not_mem_nil,
      or_false] at h
    rw [nesting]
    rcases h with rfl | rfl | hs | rfl
    · omega
    · omega
    · have hstep : stepNesting s = c.nesting := by rw [hs, stepNesting]
      omega
    · omega
  | call m callee args =>
    rw [nesting]
    rcases List.mem_cons.mp h with rfl | h
    · omega
    · have hargs := nesting_le_of_mem h
      omega

end Expr

/-- How deep functions are nested in a source. One that is no program has none. -/
def Source.nesting (s : Source) : Nat :=
  match Scan.tokens s >>= parse with
  | .ok e => e.nesting
  | .error _ => 0

/-- The nesting of the source in which it is deepest. -/
def Source.deepest : List Source → Nat
  | [] => 0
  | s :: ss => max s.nesting (deepest ss)

/-- A call of the function and all functions made in it come out at most `d` deep. -/
def Datum.Fits (d : Nat) : Datum → Prop
  | .function (.closure _ _ body e) => e.depth + (body.nesting + 1) ≤ d
  | _ => True

/-- A function of the program was made in an environment at most `d` deep. -/
def Datum.WithinDepth (d : Nat) : Datum → Prop
  | .function (.closure _ _ _ e) => e.depth ≤ d
  | _ => True

theorem Datum.Fits.withinDepth {d : Nat} {c : Datum} (h : c.Fits d) : c.WithinDepth d := by
  cases c with
  | number n => trivial
  | string s => trivial
  | function f =>
    cases f with
    | closure x ps body e =>
      change e.depth + (body.nesting + 1) ≤ d at h
      change e.depth ≤ d
      omega
    | builtin b => trivial

theorem Datum.Fits.of_plain {d : Nat} {c : Datum} (h : c.Plain) : c.Fits d := by
  cases c with
  | number n => trivial
  | string s => trivial
  | function f => exact absurd rfl (h f)

namespace Interpreter

/-- The bound on the depth of environments as an invariant of evaluation. The world is the room that
is left for functions inside of functions in the current environment. -/
def shallow (d : Nat) : Invariant Nat where
  Later := Eq
  State room i := i.environment.depth + room ≤ d ∧ i.store.Binds (Datum.Fits d)
  Data _ c := c.Fits d
  Admits room e := e.nesting ≤ room
  refl _ := rfl
  trans h h' := h.trans h'
  data_mono _ hc := hc
  admits_mono h he := h ▸ he
  child he hc := Nat.le_trans (Expr.nesting_le_of_child hc) he
  plain := .of_plain
  builtin _ _ := trivial
  bound hi hv := hi.2.lookup hv
  define hi hv := ⟨hi.1, hi.2.define _ _ hv⟩
  closure {room i _ _ _ body} hi he := by
    change i.environment.depth + (body.nesting + 1) ≤ d
    rw [Expr.nesting] at he
    omega
  enter {room i _ ps body e vs} hi hf hvs c := by
    change e.depth + (body.nesting + 1) ≤ d at hf
    have hdepth : (e.child i.store.fresh).depth + body.nesting ≤ d := by
      rw [Environment.depth_child]
      omega
    refine ⟨body.nesting, ⟨hdepth, hi.2.grow.defineAll _ ps hvs⟩, Nat.le_refl _, ?_⟩
    intro _ j _ hj
    exact ⟨room, rfl, ⟨hi.1, hj.2⟩, fun _ hd => hd⟩
  argument {room _ _} hi hvs ps _ := ⟨room, rfl, hi.1, hi.2.grow.defineAll _ ps hvs⟩

/-- The sources have been run one after another from the state `first` on, the first one of the list
last. Each may have failed, and found a console of its own. -/
inductive Programs (first : Interpreter) : List Source → Interpreter → Prop
  | start : Programs first [] first
  | program {ss : List Source} {s : Source} {i j : Interpreter} {console : Console} {fuel : Nat}
      {r : Except Diagnostic Value} : Programs first ss i →
      evalSource fuel s { i with console } = some (r, j) → Programs first (s :: ss) j

variable {first i j : Interpreter} {ss : List Source} {d room : Nat}

/-- The console has no part in it. -/
theorem state_shallow_console {console : Console} (h : (shallow d).State room i) :
    (shallow d).State room { i with console } := h

/-- Sources that leave enough room keep the depth within the bound. -/
theorem Programs.shallow (h : Programs first ss i) (hfirst : (shallow d).State room first)
    (hss : Source.deepest ss ≤ room) : (shallow d).State room i := by
  induction h with
  | start => exact hfirst
  | @program ss s _ _ console fuel _ _ hs ih =>
    rw [Source.deepest] at hss
    have hi := ih (by omega)
    have hroom : ∀ e, (Scan.tokens s >>= parse) = .ok e → e.nesting ≤ room := by
      intro e he
      have hsource : s.nesting = e.nesting := by rw [Source.nesting, he]
      omega
    obtain ⟨_, rfl, hj, -⟩ :=
      (Interpreter.shallow d).keeps_evalSource fuel hroom _ (state_shallow_console hi) _ _ hs
    exact hj

/-- A fresh environment is one deep and binds no function of the program. -/
theorem shallow_global (room : Nat) (input : List InputLine) :
    (shallow (1 + room)).State room (global input) :=
  ⟨Nat.le_refl _, Store.binds_newGlobal (fun _ => trivial) fun _ => trivial⟩

theorem shallow_empty (room : Nat) (input : List InputLine) :
    (shallow (1 + room)).State room
      (new Store.empty.newRoot.1 Store.empty.newRoot.2 input) :=
  ⟨Nat.le_refl _, Store.Binds.empty.grow⟩

/-- In a session that starts in a fresh environment, let `N` be the deepest nesting of functions in
any source up to the one that runs. Whatever the run comes to, and however many calls are in
progress there, the environment is at most `1 + N` deep, and so are those that functions were made
in which are bound in any scope, called, passed as an argument or given as a result. -/
theorem depth_le_nesting {input : List InputLine}
    (hfirst : first = global input ∨
      first = new Store.empty.newRoot.1 Store.empty.newRoot.2 input)
    (hss : Programs first ss i) {console : Console} {s : Source} {e : Expr Span}
    (he : (Scan.tokens s >>= parse) = .ok e) {fuel n : Nat} {calls : List Activation} {t : Task}
    (ht : Visits fuel (.eval e) { i with console } calls n t j) :
    let N := Source.deepest (s :: ss)
    j.environment.depth ≤ 1 + N ∧ j.store.Binds (Datum.WithinDepth (1 + N)) ∧
      (∀ f vs m, t = .apply f vs m → (Datum.function f).WithinDepth (1 + N) ∧
        ∀ v ∈ vs, v.datum.WithinDepth (1 + N)) ∧
      ∀ e' v k, t = .eval e' → eval n e' j = some (.ok v, k) → v.datum.WithinDepth (1 + N) := by
  intro N
  have hstart : (shallow (1 + N)).State N first := by
    rcases hfirst with rfl | rfl
    · exact shallow_global N input
    · exact shallow_empty N input
  have hi : (shallow (1 + N)).State N { i with console } :=
    hss.shallow hstart (Nat.le_max_right _ _)
  have hroom : e.nesting ≤ N := by
    have hsource : s.nesting = e.nesting := by rw [Source.nesting, he]
    exact hsource ▸ Nat.le_max_left _ _
  have hfits : (shallow (1 + N)).Fits (.eval e) { i with console } := ⟨N, hi, hroom⟩
  obtain ⟨room, hj, hallows⟩ := hfits.visits ht
  refine ⟨Nat.le_trans (Nat.le_add_right _ room) hj.1, hj.2.mono fun _ hd => hd.withinDepth, ?_, ?_⟩
  · intro f vs m hf
    subst hf
    exact ⟨Datum.Fits.withinDepth hallows.1, fun v hv => Datum.Fits.withinDepth (hallows.2 v hv)⟩
  · intro e' v k he' hv
    subst he'
    obtain ⟨_, -, -, hsound⟩ := Invariant.eval_ok hj hallows hv
    exact Datum.Fits.withinDepth hsound

/-- The function of `(FUN f(n) -> IF n THEN f(n - 1) ELSE b)(3)` reads `b` when four calls are in
progress, and the environment is no more than two deep. -/
theorem depth_le_nesting_recursion :
    ∃ s e calls n t j, (Scan.tokens s >>= parse) = .ok e ∧ Source.deepest [s] = 1 ∧
      Visits 30 (.eval e) (global []) calls n t j ∧ calls.length = 4 ∧
      j.environment.depth ≤ 1 + Source.deepest [s] := by
  let s : Source := ⟨"a", "(FUN f(n) -> IF n THEN f(n - 1) ELSE b)(3)"⟩
  have hfails : (evalSource 30 s (global [])).map (fun p =>
        (p.1.map fun _ => ()).mapError fun d => (d.cause, d.context.map Context.depth)) =
      some (.error (.notDefined "b", some 5)) := by decide +kernel
  obtain ⟨⟨r, k⟩, hr, hcause⟩ := Option.map_eq_some_iff.mp hfails
  cases r with
  | ok v => cases hcause
  | error d =>
    obtain ⟨hb, hdepth⟩ := Prod.mk.inj (Except.error.inj hcause)
    rcases evalSource_error hr with ⟨hstage, -⟩ | ⟨-, ts, e, calls, own, t, hts, he, hmeets⟩
    · exact absurd (by rw [Diagnostic.stage, hb]; rfl) hstage
    obtain ⟨n, j, hvisits, hfault⟩ := hmeets.fault
    obtain rfl := hmeets.notDefined "b" hb
    obtain rfl := hfault.own_of_var
    have hparse : (Scan.tokens s >>= parse) = .ok e := by rw [hts]; exact he
    refine ⟨s, e, calls, _, _, j, hparse, by decide +kernel, hvisits, ?_, ?_⟩
    · rw [hmeets.context, Option.map_some, Context.depth_within] at hdepth
      have hlength : 1 + calls.length = 5 := Option.some.inj hdepth
      omega
    · have hstart : Visits 30 (.eval e) { global [] with console := (global []).console } calls
          _ _ j := hvisits
      exact (depth_le_nesting (.inl rfl) .start hparse hstart).1

end Interpreter

end Minibasic
