import Lox.Source.Scanner

/-!
# The lines of items

An item carries a line from the one that its segment starts on to the one that it ends
on.  So all items of a source lie between its first line and its last one
(`line_of_mem_items`), their lines never go back (`pairwise_line_items`), and those of a
source without line breaks are on line one.
-/

namespace Lox

open Alphabet

/-- The line that an item carries. -/
def Item.line : Item → Nat
  | .ok t => t.line
  | .error e => e.line

theorem Located.line_item? {g : Located} {i : Item} (h : g.item? = some i) :
    g.line ≤ i.line ∧ i.line ≤ g.endLine := by
  obtain ⟨line, segment⟩ := g
  have hle : line ≤ line + segment.lineBreaks := Nat.le_add_right _ _
  cases segment with
  | blank _ | comment _ => cases h
  | lexeme kind text =>
    cases h
    exact ⟨Nat.le_refl _, hle⟩
  | unterminated text =>
    cases h
    exact ⟨hle, Nat.le_refl _⟩
  | stray c =>
    cases h
    exact ⟨Nat.le_refl _, hle⟩

theorem le_lineAfter (line : Nat) (gs : List Segment) : line ≤ lineAfter line gs := by
  rw [lineAfter_eq]
  exact Nat.le_add_right _ _

/-- Items are not above the first line of their segments, nor below the last one. -/
theorem line_of_mem_items {line : Nat} {gs : List Segment} {i : Item} (h : i ∈ items line gs) :
    line ≤ i.line ∧ i.line ≤ lineAfter line gs := by
  induction gs generalizing line with
  | nil => cases h
  | cons g gs ih =>
    rw [items_cons] at h
    rcases List.mem_append.1 h with hitem | hrest
    · obtain ⟨hstart, hend⟩ := Located.line_item? (Option.mem_toList.1 hitem)
      exact ⟨hstart, Nat.le_trans hend (le_lineAfter _ gs)⟩
    · obtain ⟨hstart, hend⟩ := ih hrest
      exact ⟨Nat.le_trans (Nat.le_add_right _ _) hstart, hend⟩

/-- Items come line by line. -/
theorem pairwise_line_items (line : Nat) (gs : List Segment) :
    (items line gs).Pairwise fun i j => i.line ≤ j.line := by
  induction gs generalizing line with
  | nil => exact .nil
  | cons g gs ih =>
    rw [items_cons, List.pairwise_append]
    refine ⟨?_, ih _, fun i hi j hj => ?_⟩
    · cases Located.item? ⟨line, g⟩ with
      | none => exact .nil
      | some i => exact List.pairwise_singleton _ i
    · obtain ⟨-, hend⟩ := Located.line_item? (Option.mem_toList.1 hi)
      exact Nat.le_trans hend (line_of_mem_items hj).1

/-- So do the tokens of a source, and the end mark is below them. -/
theorem pairwise_line_tokens (source : String) :
    (scan source).tokens.Pairwise fun t u => t.line ≤ u.line := by
  rw [Scan.tokens, List.pairwise_append]
  refine ⟨?_, List.pairwise_singleton _ _, fun t ht u hu => ?_⟩
  · refine (pairwise_line_items 1 (segments source.toList)).filterMap Item.token? ?_
    intro i j hij t ht u hu
    rwa [Item.token?_eq_some_iff.1 ht, Item.token?_eq_some_iff.1 hu] at hij
  · obtain ⟨i, hi, ht⟩ := List.mem_filterMap.1 ht
    obtain rfl := Item.token?_eq_some_iff.1 ht
    obtain rfl := List.mem_singleton.1 hu
    exact (line_of_mem_items hi).2

theorem pairwise_line_errors (source : String) :
    (scan source).errors.Pairwise fun e f => e.line ≤ f.line := by
  refine (pairwise_line_items 1 (segments source.toList)).filterMap Item.error? ?_
  intro i j hij e he f hf
  rwa [Item.error?_eq_some_iff.1 he, Item.error?_eq_some_iff.1 hf] at hij

/-- A source without line breaks ends on line one. -/
theorem endLine_of_not_mem {source : String} (h : lineBreak ∉ source.toList) :
    (scan source).endLine = 1 := by
  show lineAfter 1 (segments source.toList) = 1
  rw [lineAfter_eq, Segment.flatMap_text_segments, List.count_eq_zero_of_not_mem h]

theorem line_item_of_not_mem {source : String} (h : lineBreak ∉ source.toList) {i : Item}
    (hi : i ∈ (scan source).items) : i.line = 1 := by
  obtain ⟨hstart, hend⟩ := line_of_mem_items hi
  exact Nat.le_antisymm (Nat.le_trans hend (Nat.le_of_eq (endLine_of_not_mem h))) hstart

theorem line_token_of_not_mem {source : String} (h : lineBreak ∉ source.toList) {t : Token}
    (ht : t ∈ (scan source).tokens) : t.line = 1 := by
  rcases Scan.mem_tokens_iff.1 ht with hitem | rfl
  · exact line_item_of_not_mem h hitem
  · exact endLine_of_not_mem h

theorem line_error_of_not_mem {source : String} (h : lineBreak ∉ source.toList) {e : Error}
    (he : e ∈ (scan source).errors) : e.line = 1 :=
  line_item_of_not_mem h (Scan.mem_errors_iff.1 he)

end Lox
