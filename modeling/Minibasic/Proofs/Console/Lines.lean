import Minibasic.Console.Lines
import Mathlib.Data.List.DropRight
import Mathlib.Data.List.Forall2

/-!
The lines of the input are all of its bytes, cut after every line feed, and a line that is text is
its content and its ending.
-/

namespace Minibasic

/-- The bytes cut into lines: each ends with its only line feed, but for the last one, which may
have none. -/
inductive Cut : List UInt8 → List (List UInt8) → Prop
  | done : Cut [] []
  | last {l : List UInt8} : l ≠ [] → 0x0a ∉ l → Cut l [l]
  | line {l bs : List UInt8} {ls : List (List UInt8)} : 0x0a ∉ l → Cut bs ls →
      Cut (l ++ 0x0a :: bs) ((l ++ [0x0a]) :: ls)

theorem Cut.flatten {bs : List UInt8} {ls : List (List UInt8)} (h : Cut bs ls) :
    ls.flatten = bs := by
  induction h with
  | done => rfl
  | last => rw [List.flatten_singleton]
  | line _ _ ih => rw [List.flatten_cons, ih, List.append_assoc, List.singleton_append]

theorem cut_byteLines (bs : List UInt8) : Cut bs (byteLines bs) := by
  induction bs with
  | nil => exact .done
  | cons b bs ih =>
    rw [byteLines]
    split
    next hb =>
      rw [hb]
      exact .line (l := []) List.not_mem_nil ih
    next hb =>
      have hcons {l : List UInt8} (hl : 0x0a ∉ l) : 0x0a ∉ b :: l := by
        rw [List.mem_cons, not_or]
        exact ⟨Ne.symm hb, hl⟩
      -- The byte is in front of the first line, if there is one.
      generalize byteLines bs = ls at ih
      cases ih with
      | done => exact .last (List.cons_ne_nil _ _) (hcons List.not_mem_nil)
      | last _ hl => exact .last (List.cons_ne_nil _ _) (hcons hl)
      | line hl h => exact .line (hcons hl) h

namespace InputLine

/-- The line that the bytes stand for. If they are UTF-8, their text is the content of the line and
its ending, which is all that it has of line ends behind the content. -/
inductive Stands (bs : List UInt8) : InputLine → Prop
  | text {content ending : String} : String.fromUTF8? ⟨bs.toArray⟩ = some (content ++ ending) →
      (∀ c ∈ ending.toList, isLineEnd c) → (∀ c ∈ content.toList.getLast?, ¬isLineEnd c) →
      Stands bs (.text content ending)
  | undecodable : String.fromUTF8? ⟨bs.toArray⟩ = none → Stands bs .undecodable

theorem stands_ofString {bs : List UInt8} {s : String}
    (h : String.fromUTF8? ⟨bs.toArray⟩ = some s) : Stands bs (ofString s) := by
  have hsplit : s.toList.rdropWhile isLineEnd ++ s.toList.rtakeWhile isLineEnd = s.toList :=
    List.rdropWhile_append_rtakeWhile
  have hdrop : s.toList.drop (s.toList.rdropWhile isLineEnd).length =
      s.toList.rtakeWhile isLineEnd := by
    conv_lhs => rw [← hsplit]
    exact List.drop_left' (by rw [hsplit])
  have hline : ofString s = .text (.ofList (s.toList.rdropWhile isLineEnd))
      (.ofList (s.toList.rtakeWhile isLineEnd)) :=
    congrArg (fun cs => InputLine.text _ (.ofList cs)) hdrop
  rw [hline]
  refine .text ?_ (fun c hc => ?_) fun c hc => ?_
  · rw [h, ← String.ofList_append, hsplit, String.ofList_toList]
  · rw [String.toList_ofList] at hc
    exact List.mem_rtakeWhile_imp hc
  · rw [String.toList_ofList] at hc
    obtain ⟨hne, rfl⟩ := List.mem_getLast?_eq_getLast hc
    exact List.rdropWhile_last_not _ _ hne

theorem stands_ofBytes (bs : List UInt8) : Stands bs (ofBytes bs) := by
  unfold ofBytes
  split
  next s hs => exact stands_ofString hs
  next hs => exact .undecodable hs

end InputLine

theorem stands_inputLines (bs : ByteArray) :
    List.Forall₂ InputLine.Stands (byteLines bs.data.toList) (inputLines bs) :=
  List.forall₂_map_right_iff.mpr (List.forall₂_same.mpr fun l _ => InputLine.stands_ofBytes l)

end Minibasic
