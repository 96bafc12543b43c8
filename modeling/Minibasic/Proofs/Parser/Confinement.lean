import Minibasic.Proofs.Parser.FirstWrong

/-!
The parser stays in front of the first end token. What it makes of the tokens up to there depends on
nothing behind that token, nor on the fuel as soon as this is enough.
-/

namespace Minibasic.Parser

open Grammar

variable {α β : Type} {read left x y : List Token} {stop : Token}

/-- The token `stop` behind `read` is the first end token. -/
structure Ended (read : List Token) (stop : Token) : Prop where
  stop_eof : stop.lexeme = .eof
  read_ne_eof : ∀ t ∈ read, t.lexeme ≠ .eof

theorem Ended.of_suffix (h : Ended read stop) (hle : left <:+ read) : Ended left stop where
  stop_eof := h.stop_eof
  read_ne_eof t ht := h.read_ne_eof t (hle.subset ht)

theorem Ended.lexemeAt_append (h : Ended read stop) (x : List Token) :
    lexemeAt (read ++ stop :: x) = lexemeAt read := by
  cases read with
  | nil => exact h.stop_eof
  | cons t read => rfl

/-- Two outcomes are the same but for what stands behind the end token, which is `x` for the one and
`y` for the other, and leave a part of `read` and the end token in front of it. The first outcome
may also come of too little fuel. -/
inductive Outcome.Matches (read : List Token) (stop : Token) (x y : List Token) :
    Outcome α → Outcome α → Prop
  | found (a : α) {left : List Token} : left <:+ read →
      Matches read stop x y (.found a (left ++ stop :: x)) (.found a (left ++ stop :: y))
  | failed (e : Expectation) {left : List Token} : left <:+ read →
      Matches read stop x y (.failed e (left ++ stop :: x)) (.failed e (left ++ stop :: y))
  | exhausted (o : Outcome α) : Matches read stop x y .exhausted o

theorem Outcome.Matches.of_suffix {o o' : Outcome α} (h : o.Matches left stop x y o')
    (hle : left <:+ read) : o.Matches read stop x y o' := by
  cases h with
  | found a hl => exact .found a (hl.trans hle)
  | failed e hl => exact .failed e (hl.trans hle)
  | exhausted => exact .exhausted o'

theorem Outcome.Matches.map (f : α → β) {o o' : Outcome α} (h : o.Matches read stop x y o') :
    (o.map f).Matches read stop x y (o'.map f) := by
  cases h with
  | found a hl => exact .found (f a) hl
  | failed e hl => exact .failed e hl
  | exhausted => exact .exhausted _

theorem Outcome.Matches.eq_of_ne_exhausted {o o' : Outcome α} (h : o.Matches read stop x x o')
    (ho : o ≠ .exhausted) : o' = o := by
  cases h with
  | found => rfl
  | failed => rfl
  | exhausted => exact absurd rfl ho

/-- The rule `r'` does what `r` does with the tokens up to the first end token, unless `r` runs out
of fuel. -/
def Rule.Continues (r r' : Rule α) : Prop :=
  ∀ read stop x y, Ended read stop →
    Outcome.Matches read stop x y (r (read ++ stop :: x)) (r' (read ++ stop :: y))

namespace Rule.Continues

theorem pure (a : α) : Rule.Continues (pure a) (pure a) :=
  fun read _ _ _ _ => .found a read.suffix_refl

theorem fail (e : Expectation) : Rule.Continues (Rule.fail (α := α) e) (Rule.fail e) :=
  fun read _ _ _ _ => .failed e read.suffix_refl

theorem exhausted (r : Rule α) : Rule.Continues Rule.exhausted r := fun _ _ _ _ _ => .exhausted _

theorem bind {r r' : Rule α} {next next' : α → Rule β} (hr : r.Continues r')
    (hn : ∀ a, (next a).Continues (next' a)) : Rule.Continues (r >>= next) (r' >>= next') := by
  intro read stop x y hend
  have h := hr read stop x y hend
  change Outcome.Matches read stop x y (Rule.bind r next _) (Rule.bind r' next' _)
  unfold Rule.bind
  generalize r (read ++ stop :: x) = o at h ⊢
  generalize r' (read ++ stop :: y) = o' at h ⊢
  cases h with
  | found a hle => exact (hn a _ stop x y (hend.of_suffix hle)).of_suffix hle
  | failed e hle => exact .failed e hle
  | exhausted => exact .exhausted _

theorem peek : Rule.Continues peek peek := by
  intro read stop x y hend
  change Outcome.Matches read stop x y (.found (lexemeAt _) _) (.found (lexemeAt _) _)
  rw [hend.lexemeAt_append, hend.lexemeAt_append]
  exact .found _ read.suffix_refl

theorem advance : Rule.Continues advance advance := by
  intro read stop x y hend
  cases read with
  | nil =>
    simp only [Parser.advance, List.nil_append, lexemeAt, hend.stop_eof, if_true]
    exact .found stop.span List.suffix_rfl
  | cons t read =>
    have ht := hend.read_ne_eof t List.mem_cons_self
    simp only [Parser.advance, List.cons_append, lexemeAt, ht, if_false]
    exact .found t.span (List.suffix_cons t read)

theorem orElse {r r' : Rule α} (hr : r.Continues r') (e : Expectation) :
    (r.orElse e).Continues (r'.orElse e) := by
  intro read stop x y hend
  have h := hr read stop x y hend
  unfold Rule.orElse
  generalize r (read ++ stop :: x) = o at h ⊢
  generalize r' (read ++ stop :: y) = o' at h ⊢
  cases h with
  | found a hle => exact .found a hle
  | @failed e' left hle =>
    -- Whether anything was read does not depend on what stands behind the end token.
    have hlen (z : List Token) :
        (left ++ stop :: z).length = (read ++ stop :: z).length ↔ left.length = read.length := by
      simp
    simp only [hlen]
    split
    · exact .failed e read.suffix_refl
    · exact .failed e' hle
  | exhausted => exact .exhausted _

end Rule.Continues

theorem continues_moreParameters : moreParameters.Continues moreParameters := by
  intro read stop x y hend
  fun_induction moreParameters read with
  | case1 s name s' ts ih =>
    have hle : ts <:+ ⟨.comma, s⟩ :: ⟨.identifier name, s'⟩ :: ts := ⟨[_, _], rfl⟩
    simp only [List.cons_append, moreParameters]
    exact ((ih (hend.of_suffix hle)).map (name :: ·)).of_suffix hle
  | case2 s ts hne =>
    have hle : ts <:+ ⟨.comma, s⟩ :: ts := List.suffix_cons _ ts
    have hname (z : List Token) (name : String) :
        lexemeAt (ts ++ stop :: z) ≠ .identifier name := by
      rw [(hend.of_suffix hle).lexemeAt_append]
      intro hl
      obtain ⟨s', us, rfl⟩ := exists_cons_of_lexemeAt hl (by simp)
      exact hne name s' us rfl
    rw [List.cons_append, List.cons_append, moreParameters_of_ne_identifier s (hname x),
      moreParameters_of_ne_identifier s (hname y)]
    exact .failed .identifier hle
  | case3 ts _ hne =>
    have hcomma (z : List Token) : lexemeAt (ts ++ stop :: z) ≠ .comma := by
      rw [hend.lexemeAt_append]
      intro hl
      obtain ⟨s, us, rfl⟩ := exists_cons_of_lexemeAt hl (by simp)
      exact hne s us rfl
    rw [moreParameters_of_ne_comma (hcomma x), moreParameters_of_ne_comma (hcomma y)]
    exact .found [] ts.suffix_refl

theorem Built.continues {r r' : Rule α} (h : Built r r') : r.Continues r' := by
  induction h with
  | pure a => exact .pure a
  | fail e => exact .fail e
  | exhausted r => exact .exhausted r
  | bind _ _ ihr ihn => exact .bind ihr ihn
  | peek => exact .peek
  | advance => exact .advance
  | orElse e _ ih => exact .orElse ih e
  | moreParameters => exact continues_moreParameters

/-- With more fuel a rule does the same with the tokens up to the first end token. -/
theorem IsRule.continues {fuel more n : Nat} {r : Nat → Rule α} (h : IsRule n r)
    (hle : fuel ≤ more) : (r fuel).Continues (r more) := (h.built hle).continues

section Advances

/-- A rule that succeeds has taken at least `n` tokens. -/
def Rule.Advances (n : Nat) (r : Rule α) : Prop :=
  ∀ ts, (r ts).Post (fun _ rest => rest.length + n ≤ ts.length) (fun _ _ => True) True

variable {L M : Language Lexeme} {n : Nat}

theorem nil_not_mem_sentences {p : α → Phrase} (h : ∀ a, 0 < (p a).level.rank) :
    [] ∉ sentences p := by
  rintro ⟨a, ha⟩
  have hle := ha.rank_le_opening []
  exact absurd (h a) (Nat.not_lt.mpr hle)

theorem nil_not_mem_operand (t : Tier) : [] ∉ sentences (Grammar.operand t) := by
  cases t <;> exact nil_not_mem_sentences fun _ => Nat.succ_pos _

theorem nil_not_mem_mul (h : [] ∉ L) : [] ∉ L * M := by
  rintro ⟨u, hu, v, -, huv⟩
  rw [(List.append_eq_nil_iff.mp huv).1] at hu
  exact h hu

theorem Takes.length_eq {w : List Lexeme} {ts rest : List Token} (h : Takes w ts rest) :
    ts.length = w.length + rest.length := by
  obtain ⟨us, rfl, rfl⟩ := h
  simp

namespace Rule.Advances

theorem exhausted : Rule.Advances n (Rule.exhausted (α := α)) := fun _ => trivial

theorem of_local {r : Rule α} (h : r.Local) : r.Advances 0 := by
  intro ts
  refine (h ts).imp (fun _ rest hs => ?_) (fun _ _ _ => trivial) id
  obtain ⟨us, rfl, -⟩ := hs
  simp

theorem of_reaches {r : Rule α} (h : ∀ ts, (r ts).Reaches L ts) (hL : [] ∉ L) :
    r.Advances 1 := by
  intro ts
  refine (h ts).imp (fun _ rest hw => ?_) (fun _ _ _ => trivial) id
  obtain ⟨w, hw, tw⟩ := hw
  have hpos : 0 < w.length := List.length_pos_iff.mpr fun hnil => hL (hnil ▸ hw)
  have hlen := tw.length_eq
  omega

theorem bind_left {r : Rule α} {next : α → Rule β} (hr : r.Advances n)
    (hn : ∀ a, (next a).Local) : Rule.Advances n (r >>= next) := by
  intro ts
  rw [post_bind]
  refine (hr ts).mono fun a rest hlt => ?_
  exact (of_local (hn a) rest).mono fun _ _ hle => by omega

theorem bind_right {r : Rule α} {next : α → Rule β} (hr : r.Local)
    (hn : ∀ a, (next a).Advances n) : Rule.Advances n (r >>= next) := by
  intro ts
  rw [post_bind]
  refine (of_local hr ts).mono fun a rest hle => ?_
  exact (hn a rest).mono fun _ _ hlt => by omega

theorem expect {l : Lexeme} (hl : l ≠ .eof) (e : Expectation) : (expect l e).Advances 1 :=
  of_reaches (reaches_expect hl e) (by rintro ⟨⟩)

theorem identifier (e : Expectation) : (identifier e).Advances 1 :=
  of_reaches (reaches_identifier e) (by rintro ⟨_, ⟨⟩⟩)

end Rule.Advances

theorem advances_parameters : parameters.Advances 1 := by
  refine .of_reaches reaches_parameters ?_
  rintro ⟨ps, hps⟩
  simp at hps

theorem advances_expression (fuel : Nat) : (expression fuel).Advances 1 :=
  .of_reaches (viable fuel).expression (nil_not_mem_sentences fun _ => Nat.succ_pos _)

theorem advances_guarded (fuel : Nat) : (guarded fuel).Advances 1 := by
  cases fuel with
  | zero => exact .exhausted
  | succ fuel =>
    refine .bind_left (advances_expression fuel) fun _ => .bind (.expect _ _) fun _ => ?_
    exact .bind (looking fuel).expression fun _ => .pure _

theorem advances_choice (fuel : Nat) : (choice fuel).Advances 1 := by
  cases fuel with
  | zero => exact .exhausted
  | succ fuel =>
    refine .bind_right .advance fun _ => .bind_left (advances_guarded fuel) fun _ => ?_
    exact .bind (looking fuel).arms fun _ => .pure _

theorem advances_count (fuel : Nat) : (count fuel).Advances 1 := by
  cases fuel with
  | zero => exact .exhausted
  | succ fuel =>
    have h := looking fuel
    refine .bind_right .advance fun _ => .bind_right (.identifier _) fun _ => ?_
    refine .bind_right (.expect _ _) fun _ => .bind_right h.expression fun _ => ?_
    refine .bind_right (.expect _ _) fun _ => .bind_right h.expression fun _ => ?_
    refine .bind_right h.step fun _ => .bind_right (.expect _ _) fun _ => ?_
    exact .bind_left (advances_expression fuel) fun _ => .pure _

theorem advances_loop (fuel : Nat) : (loop fuel).Advances 1 := by
  cases fuel with
  | zero => exact .exhausted
  | succ fuel =>
    exact .bind_right .advance fun _ => .bind_left (advances_guarded fuel) fun _ => .pure _

theorem advances_signature (fuel : Nat) : (signature fuel).Advances 1 := by
  cases fuel with
  | zero => exact .exhausted
  | succ fuel =>
    refine .bind_left advances_parameters fun _ => .bind (.expect _ _) fun _ => ?_
    exact .bind (looking fuel).expression fun _ => .pure _

theorem advances_function (fuel : Nat) : (function fuel).Advances 1 := by
  cases fuel with
  | zero => exact .exhausted
  | succ fuel =>
    refine .bind_right .advance fun _ => .bind_right .peek fun l => ?_
    split
    · refine .bind_right .advance fun _ => .bind_right (.expect _ _) fun _ => ?_
      exact .bind_left (advances_signature fuel) fun _ => .pure _
    · refine .bind_right (.expect _ _) fun _ => ?_
      exact .bind_left (advances_signature fuel) fun _ => .pure _

end Advances

namespace IsRule

variable {n : Nat} {r : Nat → Rule α}

theorem advances (h : IsRule n r) (fuel : Nat) : (r fuel).Advances n := by
  have hread := viable fuel
  cases h with
  | program =>
    refine .bind_left (advances_expression fuel) fun e => .bind .peek fun l => ?_
    split
    · exact .pure e
    · exact .fail _
  | expression => exact advances_expression fuel
  | binary t => exact .of_reaches (hread.binary t) (nil_not_mem_mul (nil_not_mem_operand t))
  | operand t => exact .of_reaches (hread.operand t) (nil_not_mem_operand t)
  | comparison => exact .of_reaches hread.comparison (nil_not_mem_operand .logical)
  | relation => exact .of_reaches hread.relation (nil_not_mem_operand .logical)
  | factor => exact .of_reaches hread.factor (nil_not_mem_operand .multiplicative)
  | power => exact .of_reaches hread.power (nil_not_mem_sentences fun _ => Nat.succ_pos _)
  | call => exact .of_reaches hread.call (nil_not_mem_sentences fun _ => Nat.succ_pos _)
  | atom => exact .of_reaches hread.atom (nil_not_mem_sentences fun _ => Nat.succ_pos _)
  | guarded => exact advances_guarded fuel
  | choice => exact advances_choice fuel
  | count => exact advances_count fuel
  | loop => exact advances_loop fuel
  | function => exact advances_function fuel
  | signature => exact advances_signature fuel
  | parameters => exact advances_parameters
  | identifier e => exact .identifier e
  | expect e hl => exact .expect hl e
  | chain t left => exact .of_local ((IsRule.chain t left).isLocal fuel)
  | exponents base => exact .of_local ((IsRule.exponents base).isLocal fuel)
  | arguments => exact .of_local (IsRule.arguments.isLocal fuel)
  | moreArguments => exact .of_local (IsRule.moreArguments.isLocal fuel)
  | arms => exact .of_local (IsRule.arms.isLocal fuel)
  | step => exact .of_local (IsRule.step.isLocal fuel)
  | moreParameters => exact .of_local (IsRule.moreParameters.isLocal fuel)
  | peek => exact .of_local .peek
  | advance => exact .of_local .advance

end IsRule

/-- Started at the place `i` among the tokens, the rule ends at a place between `i` and `last`, and
at least `n` places behind `i` if it succeeds. -/
def Rule.Moves (r : Rule α) (ts : List Token) (last n : Nat) : Prop :=
  ∀ i ≤ last, (r (ts.drop i)).Post (fun _ rest => ∃ j, i + n ≤ j ∧ j ≤ last ∧ rest = ts.drop j)
    (fun _ rest => ∃ j, i ≤ j ∧ j ≤ last ∧ rest = ts.drop j) True

/-- A part at the end of `read` starts at a place in it. -/
theorem exists_drop {i : Nat} (hi : i ≤ read.length) (hle : left <:+ read.drop i)
    (z : List Token) : ∃ j, i ≤ j ∧ j ≤ read.length ∧ left ++ z = (read ++ z).drop j := by
  obtain ⟨us, hus⟩ := hle
  have hlen := congrArg List.length hus
  rw [List.length_append, List.length_drop] at hlen
  refine ⟨i + us.length, by omega, by omega, ?_⟩
  rw [List.drop_append_of_le_length (by omega), ← List.drop_drop, ← hus, List.drop_left]

theorem IsRule.moves {n : Nat} {r : Nat → Rule α} (h : IsRule n r) (hend : Ended read stop)
    (after : List Token) (fuel : Nat) :
    (r fuel).Moves (read ++ stop :: after) read.length n := by
  intro i hi
  have hm := h.continues (Nat.le_refl fuel) (read.drop i) stop after after
    (hend.of_suffix (read.drop_suffix i))
  have ha := h.advances fuel ((read ++ stop :: after).drop i)
  rw [List.drop_append_of_le_length hi] at ha ⊢
  have hplace (left : List Token) (hle : left <:+ read.drop i) :=
    exists_drop hi hle (stop :: after)
  generalize r fuel (read.drop i ++ stop :: after) = o at hm ha ⊢
  cases hm with
  | @found a left hle =>
    obtain ⟨j, hij, hj, hrest⟩ := hplace left hle
    refine ⟨j, ?_, hj, hrest⟩
    -- The places are counted from the front, what a success takes from the back.
    have hlen := congrArg List.length hrest
    have htaken : (left ++ stop :: after).length + n ≤ (read.drop i ++ stop :: after).length := ha
    simp only [List.length_append, List.length_cons, List.length_drop] at hlen htaken
    omega
  | @failed e left hle => exact hplace left hle
  | exhausted => trivial

/-- The fuel that is enough for the tokens is enough for those up to the end token, and nothing else
makes a difference. -/
theorem parse_eq_of_ended (h : Ended read stop) {x y : List Token} (hle : x.length ≤ y.length) :
    parse (read ++ stop :: x) = parse (read ++ stop :: y) := by
  have hfuel : enoughFuel (read ++ stop :: x) ≤ enoughFuel (read ++ stop :: y) := by
    simp only [enoughFuel, List.length_append, List.length_cons]
    omega
  have hm := IsRule.program.continues hfuel read stop x y h
  have hx := program_ne_exhausted (read ++ stop :: x)
  have hspan (left z : List Token) : spanAt (left ++ stop :: z) = spanAt (left ++ [stop]) := by
    cases left <;> rfl
  unfold parse
  generalize program (enoughFuel (read ++ stop :: x)) (read ++ stop :: x) = o at hm hx ⊢
  generalize program (enoughFuel (read ++ stop :: y)) (read ++ stop :: y) = o' at hm ⊢
  cases hm with
  | found a _ => rfl
  | @failed e left _ => simp only [missing, hspan]
  | exhausted => exact absurd rfl hx

/-- The parser always stops, inside its input. Of the fuel there is always enough, and more of it
changes nothing. No rule looks behind the token it stops at, none comes past the first end token or
goes back, and each takes a token when it succeeds, apart from the parts that may find nothing. What
stands behind the first end token makes no difference. -/
theorem parse_confined (h : Ended read stop) (after : List Token) :
    let ts := read ++ stop :: after
    (program (enoughFuel ts) ts ≠ .exhausted ∧
      ∀ fuel ≥ enoughFuel ts, program fuel ts = program (enoughFuel ts) ts) ∧
    (∀ {α : Type} (n : Nat) (r : Nat → Rule α), IsRule n r → ∀ fuel,
      (r fuel).Local ∧ (r fuel).Moves ts read.length n) ∧
    ∀ after', parse (read ++ stop :: after') = parse ts := by
  refine ⟨⟨program_ne_exhausted _, fun fuel hle => ?_⟩,
    fun n r hr fuel => ⟨hr.isLocal fuel, hr.moves h after fuel⟩, fun after' => ?_⟩
  · have hm := IsRule.program.continues hle read stop after after h
    exact hm.eq_of_ne_exhausted (program_ne_exhausted _)
  · rcases Nat.le_total after'.length after.length with hle | hle
    · exact parse_eq_of_ended h hle
    · exact (parse_eq_of_ended h hle).symm

/-- In `a +` the operand is missing at the end, also if another one stands behind it. -/
theorem parse_confined_operand :
    let at_ (n : Nat) : Span := ⟨⟨⟨n, 0, n⟩, default⟩, ⟨⟨n + 1, 0, n + 1⟩, default⟩⟩
    let read : List Token := [⟨.identifier "a", at_ 0⟩, ⟨.plus, at_ 1⟩]
    let stop : Token := ⟨.eof, at_ 2⟩
    let after : List Token := [⟨.int 1, at_ 3⟩, ⟨.eof, at_ 4⟩]
    Ended read stop ∧ parse (read ++ stop :: after) = parse (read ++ [stop]) ∧
      ∃ d, parse (read ++ stop :: after) = .error d ∧ d.span = at_ 2 := by
  intro at_ read stop after
  have h : Ended read stop := ⟨rfl, by simp [read]⟩
  have heq := (parse_confined h []).2.2 after
  have hspan : (match parse (read ++ [stop]) with
      | .ok _ => none
      | .error d => some d.span) = some (at_ 2) := by decide +kernel
  refine ⟨h, heq, ?_⟩
  rw [heq]
  cases hd : parse (read ++ [stop]) with
  | ok e =>
    rw [hd] at hspan
    cases hspan
  | error d =>
    rw [hd] at hspan
    exact ⟨d, rfl, Option.some.inj hspan⟩

end Minibasic.Parser
