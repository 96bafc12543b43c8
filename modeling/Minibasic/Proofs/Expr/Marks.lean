import Minibasic.Proofs.Parser.Soundness

/-!
Expressions with the same image under a map of their marks. They have the same shape, and their
parts have the same images in turn.
-/

namespace Minibasic

variable {α β : Type} {f : α → β}

theorem Expr.mark_map (f : α → β) (e : Expr α) : (e.map f).mark = f e.mark := by
  cases e <;> rfl

theorem Expr.mark_eq_of_map_eq {e e' : Expr α} (h : e.map f = e'.map f) :
    f e.mark = f e'.mark := by
  have hm := congrArg mark h
  rw [mark_map, mark_map] at hm
  exact hm

mutual

/-- The identity changes no mark. -/
theorem Expr.map_id (e : Expr α) : e.map id = e := by
  cases e with
  | number m n => rfl
  | string m s => rfl
  | var m x => rfl
  | assign m x e => simp only [Expr.map, id_eq, e.map_id]
  | binary m op a b => simp only [Expr.map, id_eq, a.map_id, b.map_id]
  | unary m op e => simp only [Expr.map, id_eq, e.map_id]
  | choose m c b as => simp only [Expr.map, id_eq, c.map_id, b.map_id, as.map_id]
  | count m x a b s e =>
    simp only [Expr.map, id_eq, a.map_id, b.map_id, Expr.mapStep_id s, e.map_id]
  | loop m c b => simp only [Expr.map, id_eq, c.map_id, b.map_id]
  | function m x ps b => simp only [Expr.map, id_eq, b.map_id]
  | call m c as => simp only [Expr.map, id_eq, c.map_id, Expr.mapAll_id as]

theorem Arms.map_id (as : Arms α) : as.map id = as := by
  cases as with
  | done => rfl
  | otherwise b => simp only [Arms.map, b.map_id]
  | elif c b as => simp only [Arms.map, c.map_id, b.map_id, as.map_id]

theorem Expr.mapStep_id (s : Option (Expr α)) : Expr.mapStep id s = s := by
  cases s with
  | none => rfl
  | some e => simp only [Expr.mapStep, e.map_id]

theorem Expr.mapAll_id (es : List (Expr α)) : Expr.mapAll id es = es := by
  cases es with
  | nil => rfl
  | cons e es => simp only [Expr.mapAll, e.map_id, Expr.mapAll_id es]

end

namespace Expr

variable {e : Expr α} {m : β} {x : String} {a b c : Expr β}

theorem eq_number_of_map {n : Number} (h : .number m n = e.map f) :
    ∃ m', e = .number m' n ∧ m = f m' := by
  cases e with
  | number m' n' =>
    cases h
    exact ⟨m', rfl, rfl⟩
  | _ => cases h

theorem eq_string_of_map {s : String} (h : .string m s = e.map f) :
    ∃ m', e = .string m' s ∧ m = f m' := by
  cases e with
  | string m' s' =>
    cases h
    exact ⟨m', rfl, rfl⟩
  | _ => cases h

theorem eq_var_of_map (h : .var m x = e.map f) : ∃ m', e = .var m' x ∧ m = f m' := by
  cases e with
  | var m' x' =>
    cases h
    exact ⟨m', rfl, rfl⟩
  | _ => cases h

theorem eq_assign_of_map (h : .assign m x a = e.map f) :
    ∃ m' a', e = .assign m' x a' ∧ m = f m' ∧ a = a'.map f := by
  cases e with
  | assign m' x' a' =>
    cases h
    exact ⟨m', a', rfl, rfl, rfl⟩
  | _ => cases h

theorem eq_binary_of_map {op : BinaryOp} (h : .binary m op a b = e.map f) :
    ∃ m' a' b', e = .binary m' op a' b' ∧ m = f m' ∧ a = a'.map f ∧ b = b'.map f := by
  cases e with
  | binary m' op' a' b' =>
    cases h
    exact ⟨m', a', b', rfl, rfl, rfl, rfl⟩
  | _ => cases h

theorem eq_unary_of_map {op : UnaryOp} (h : .unary m op a = e.map f) :
    ∃ m' a', e = .unary m' op a' ∧ m = f m' ∧ a = a'.map f := by
  cases e with
  | unary m' op' a' =>
    cases h
    exact ⟨m', a', rfl, rfl, rfl⟩
  | _ => cases h

theorem eq_choose_of_map {as : Arms β} (h : .choose m a b as = e.map f) :
    ∃ m' a' b' as', e = .choose m' a' b' as' ∧ m = f m' ∧ a = a'.map f ∧ b = b'.map f ∧
      as = as'.map f := by
  cases e with
  | choose m' a' b' as' =>
    cases h
    exact ⟨m', a', b', as', rfl, rfl, rfl, rfl, rfl⟩
  | _ => cases h

theorem eq_count_of_map {s : Option (Expr β)} (h : .count m x a b s c = e.map f) :
    ∃ m' a' b' s' c', e = .count m' x a' b' s' c' ∧ m = f m' ∧ a = a'.map f ∧ b = b'.map f ∧
      s = s'.map (Expr.map f) ∧ c = c'.map f := by
  cases e with
  | count m' x' a' b' s' c' =>
    cases h
    exact ⟨m', a', b', s', c', rfl, rfl, rfl, rfl, mapStep_eq_map f s', rfl⟩
  | _ => cases h

theorem eq_loop_of_map (h : .loop m a b = e.map f) :
    ∃ m' a' b', e = .loop m' a' b' ∧ m = f m' ∧ a = a'.map f ∧ b = b'.map f := by
  cases e with
  | loop m' a' b' =>
    cases h
    exact ⟨m', a', b', rfl, rfl, rfl, rfl⟩
  | _ => cases h

theorem eq_function_of_map {y : Option String} {ps : List String}
    (h : .function m y ps a = e.map f) :
    ∃ m' a', e = .function m' y ps a' ∧ m = f m' ∧ a = a'.map f := by
  cases e with
  | function m' y' ps' a' =>
    cases h
    exact ⟨m', a', rfl, rfl, rfl⟩
  | _ => cases h

theorem eq_call_of_map {as : List (Expr β)} (h : .call m a as = e.map f) :
    ∃ m' a' as', e = .call m' a' as' ∧ m = f m' ∧ a = a'.map f ∧ as = as'.map (Expr.map f) := by
  cases e with
  | call m' a' as' =>
    cases h
    exact ⟨m', a', as', rfl, rfl, rfl, mapAll_eq_map f as'⟩
  | _ => cases h

end Expr

namespace Arms

variable {as : Arms α} {a b : Expr β} {bs : Arms β}

theorem eq_done_of_map (h : .done = as.map f) : as = .done := by
  cases as with
  | done => rfl
  | _ => cases h

theorem eq_otherwise_of_map (h : .otherwise b = as.map f) :
    ∃ b', as = .otherwise b' ∧ b = b'.map f := by
  cases as with
  | otherwise b' =>
    cases h
    exact ⟨b', rfl, rfl⟩
  | _ => cases h

theorem eq_elif_of_map (h : .elif a b bs = as.map f) :
    ∃ a' b' bs', as = .elif a' b' bs' ∧ a = a'.map f ∧ b = b'.map f ∧ bs = bs'.map f := by
  cases as with
  | elif a' b' bs' =>
    cases h
    exact ⟨a', b', bs', rfl, rfl, rfl, rfl⟩
  | _ => cases h

end Arms

end Minibasic
