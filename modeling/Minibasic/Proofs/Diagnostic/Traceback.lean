import Minibasic.Diagnostic.Render
import Mathlib.Data.List.Induction

/-!
The traceback of a failure. A call keeps the place that its caller had reached, and the innermost
frame has reached the failure itself; the traceback shows each frame with its own place again.
-/

namespace Minibasic

namespace Context

/-- The frame that the program `name` comes to by calls, the first of which is the outermost. Each
has the name of a function and the place where it is entered. -/
def entered (name : String) (calls : List (String × Position)) : Context :=
  calls.foldl (fun c s => .call s.1 s.2 c) (.root name)

variable {name n : String} {p reached : Position} {calls outer : List (String × Position)}

theorem entered_concat : entered name (calls ++ [(n, p)]) = .call n p (entered name calls) := by
  rw [entered, List.foldl_append]
  rfl

/-- Every frame is come to in this way. -/
theorem exists_entered (c : Context) : ∃ name calls, c = entered name calls := by
  induction c with
  | root name => exact ⟨name, [], rfl⟩
  | call n p c ih =>
    obtain ⟨name, calls, rfl⟩ := ih
    exact ⟨name, calls ++ [(n, p)], entered_concat.symm⟩

theorem depth_entered : (entered name calls).depth = calls.length + 1 := by
  induction calls using List.reverseRecOn with
  | nil => rfl
  | append_singleton calls s ih =>
    rw [entered_concat, depth, ih, List.length_append, List.length_singleton]

/-- Seen from the program, the names of the frames run ahead of the places where the calls are
entered by one: a place belongs to the frame before the call. -/
theorem trace_entered : ((entered name calls).trace reached).reverse =
    (calls.map Prod.snd ++ [reached]).zip (name :: calls.map Prod.fst) := by
  induction calls using List.reverseRecOn generalizing reached with
  | nil => rfl
  | append_singleton calls s ih =>
    have hlength : (calls.map Prod.snd ++ [s.2]).length = (name :: calls.map Prod.fst).length := by
      simp
    calc ((entered name (calls ++ [s])).trace reached).reverse
      _ = ((entered name calls).trace s.2).reverse ++ [(reached, s.1)] := by
        rw [entered_concat, trace, List.reverse_cons]
      _ = (calls.map Prod.snd ++ [s.2] ++ [reached]).zip (name :: calls.map Prod.fst ++ [s.1]) := by
        rw [ih, List.zip_append hlength]
        rfl
      _ = _ := by
        rw [List.map_append, List.map_append]
        rfl

/-- The names of the frames in order, among which each stands behind those around it. -/
theorem getElem?_names (inner : List (String × Position)) :
    (name :: (outer ++ inner).map Prod.fst)[outer.length]? = some (entered name outer).name := by
  induction outer using List.reverseRecOn generalizing inner with
  | nil => rfl
  | append_singleton outer s _ =>
    rw [entered_concat]
    simp [Context.name]

end Context

/-- The line of a traceback for the frame `name`, which has reached the place `p`. -/
def frameLine (p : Position) (name : String) : String :=
  "  File " ++ p.source.name ++ ", line " ++ toString (p.line + 1) ++ ", in " ++ name

theorem frameLine_eq (p : Position) (name : String) :
    "  " ++ p.text ++ ", in " ++ name = frameLine p name := by
  have hfile : "  File " = "  " ++ "File " := rfl
  rw [frameLine, hfile, Position.text]
  simp only [String.append_assoc]

theorem Diagnostic.traceback_entered (d : Diagnostic) (name : String)
    (calls : List (String × Position)) : d.traceback (.entered name calls) =
      "Traceback (most recent call last):" ::
        List.zipWith frameLine (calls.map Prod.snd ++ [d.span.start])
          (name :: calls.map Prod.fst) := by
  rw [traceback, ← List.map_reverse, Context.trace_entered, List.zip, List.map_zipWith]
  simp only [frameLine_eq]

/-- A failure with calls in progress is rendered with a line for each frame, the outermost first.
The frame that makes a call is shown by its own name and the place where the call is entered, and
the innermost frame by the start of the text to blame. -/
theorem traceback_pairs_frames (d : Diagnostic) {c : Context} (h : d.context = some c) :
    (∃ name calls, c = .entered name calls) ∧
      ∀ name calls, c = .entered name calls → ∃ lines : List String,
        lines.length = c.depth ∧ c.depth = calls.length + 1 ∧
        d.render = String.join (("Traceback (most recent call last):" :: lines ++
          [d.headline, ""] ++ d.span.excerpt.map String.ofList).map (· ++ "\n")) ∧
        (∀ outer n p inner, calls = outer ++ (n, p) :: inner →
          lines[outer.length]? = some (frameLine p (Context.entered name outer).name)) ∧
        lines[calls.length]? = some (frameLine d.span.start c.name) := by
  refine ⟨c.exists_entered, ?_⟩
  rintro name calls rfl
  refine ⟨List.zipWith frameLine (calls.map Prod.snd ++ [d.span.start])
    (name :: calls.map Prod.fst), ?_, Context.depth_entered, ?_, ?_, ?_⟩
  · simp [Context.depth_entered]
  · rw [Diagnostic.render, Diagnostic.heading, h]
    simp only [Diagnostic.traceback_entered, List.append_assoc, List.cons_append, List.nil_append]
  · rintro outer n p inner rfl
    refine List.getElem?_zipWith_eq_some.mpr ⟨p, _, ?_, Context.getElem?_names _, rfl⟩
    simp
  · have hname := @Context.getElem?_names name calls []
    rw [List.append_nil] at hname
    refine List.getElem?_zipWith_eq_some.mpr ⟨d.span.start, _, ?_, hname, rfl⟩
    simp

/-- A program calls `g`, which is made in a second source and calls `h` of a third one, where a
division fails. -/
theorem traceback_pairs_frames_sources :
    let first : Source := ⟨"first", "g(1)"⟩
    let second : Source := ⟨"second", "FUN g(n) ->\n h(n)"⟩
    let third : Source := ⟨"third", "FUN h(n) -> n/0"⟩
    let call : Position := (Position.start second).advanceBy "FUN g(n) ->\n ".toList
    let zero : Position := (Position.start third).advanceBy "FUN h(n) -> n/".toList
    let calls := [("g", .start first), ("h", call)]
    let d : Diagnostic :=
      ⟨.divisionByZero, ⟨zero, zero.advance '0'⟩, some (.entered "<program>" calls)⟩
    d.context = some (.entered "<program>" calls) ∧
      d.render = "Traceback (most recent call last):\n  File first, line 1, in <program>\n" ++
        "  File second, line 2, in g\n  File third, line 1, in h\n" ++
        "Runtime Error: Division by zero\n\nFUN h(n) -> n/0\n              ^\n" ∧
      ∃ lines : List String, lines.length = 3 ∧
        lines[0]? = some (frameLine (.start first) "<program>") ∧
        lines[1]? = some (frameLine call "g") ∧ lines[2]? = some (frameLine zero "h") := by
  intro first second third call zero calls d
  obtain ⟨-, hlines⟩ := traceback_pairs_frames d rfl
  obtain ⟨lines, hlength, hdepth, -, houter, hinner⟩ := hlines "<program>" calls rfl
  exact ⟨rfl, by decide +kernel, lines, hlength.trans hdepth, houter [] _ _ [_] rfl,
    houter [_] _ _ [] rfl, hinner⟩

end Minibasic
