import Lox.Proofs.Source.Classes

/-!
# Longest match

The segments of a text can be told without the scanner.  Each of them is the
longest one of any class that the text still to come starts with.  Where there is
none, an opening quote takes the rest of the text and any other character is a
segment by itself.  `MaximalMunch` says this of a list of segments, and
`maximalMunch_iff` that the segments of a text are the one list of which it is true.
-/

namespace Lox

open Alphabet

namespace Segment

/-- A segment of some class that a text starts with. -/
structure Matches (g : Segment) (cs : List Char) : Prop where
  wellFormed : WellFormed g
  isPrefix : g.text <+: cs

/-- The segment that a text starts with. -/
inductive IsFront : Segment → List Char → Prop
  /-- The longest match of any class. -/
  | longest {g : Segment} {cs : List Char} : Matches g cs →
      (∀ h, Matches h cs → h.text.length ≤ g.text.length) → IsFront g cs
  /-- An opening quote takes everything if nothing matches. -/
  | unterminated {cs : List Char} : (∀ h, ¬ Matches h (quote :: cs)) →
      IsFront (.unterminated (quote :: cs)) (quote :: cs)
  /-- Any other character is a segment by itself if nothing matches. -/
  | stray {c : Char} {cs : List Char} : c ≠ quote → (∀ h, ¬ Matches h (c :: cs)) →
      IsFront (.stray c) (c :: cs)

section Front

variable {g h : Segment} {c : Char} {cs : List Char}

theorem Matches.front (h : Matches g (c :: cs)) :
    WellFormed (front c cs) ∧ g.text.length ≤ (Segment.front c cs).text.length := by
  obtain ⟨rest, hrest⟩ := h.isPrefix
  exact h.wellFormed.front hrest.symm

/-- Two matches of one length are the same. -/
theorem Matches.eq_of_length_eq (hg : Matches g cs) (hh : Matches h cs)
    (hl : g.text.length = h.text.length) : g = h := by
  refine hg.wellFormed.eq_of_text_eq hh.wellFormed ?_
  exact (List.prefix_of_prefix_length_le hg.isPrefix hh.isPrefix (Nat.le_of_eq hl)).eq_of_length hl

theorem isFront_front (c : Char) (cs : List Char) : IsFront (front c cs) (c :: cs) := by
  rcases wellFormed_front_or c cs with h | ⟨rfl, h⟩ | ⟨hc, h⟩
  · exact .longest ⟨h, text_front_isPrefix c cs⟩ fun g hg => hg.front.2
  · rw [h]
    refine .unterminated fun g hg => ?_
    have hfront := hg.front.1
    rw [h] at hfront
    cases hfront
  · rw [h]
    refine .stray hc fun g hg => ?_
    have hfront := hg.front.1
    rw [h] at hfront
    cases hfront

/-- A text starts with one segment only. -/
theorem IsFront.unique (hg : IsFront g cs) (hh : IsFront h cs) : g = h := by
  cases hg with
  | longest hm hmax =>
    cases hh with
    | longest hm' hmax' =>
      exact hm.eq_of_length_eq hm' (Nat.le_antisymm (hmax' _ hm) (hmax _ hm'))
    | unterminated hnone => exact absurd hm (hnone _)
    | stray _ hnone => exact absurd hm (hnone _)
  | unterminated hnone =>
    cases hh with
    | longest hm _ => exact absurd hm (hnone _)
    | unterminated _ => rfl
    | stray hc _ => exact absurd rfl hc
  | stray hc hnone =>
    cases hh with
    | longest hm _ => exact absurd hm (hnone _)
    | unterminated _ => exact absurd rfl hc
    | stray _ _ => rfl

theorem IsFront.text_ne_nil (h : IsFront g cs) : g.text ≠ [] := by
  cases h with
  | longest hm _ => exact hm.wellFormed.text_ne_nil
  | unterminated _ | stray _ _ => simp [text]

end Front

end Segment

open Segment

/-- The segments that a text falls into, each as long as it can be. -/
inductive MaximalMunch : List Segment → List Char → Prop
  | nil : MaximalMunch [] []
  | cons {g : Segment} {gs : List Segment} {cs : List Char} : IsFront g (g.text ++ cs) →
      MaximalMunch gs cs → MaximalMunch (g :: gs) (g.text ++ cs)

theorem maximalMunch_segments (cs : List Char) : MaximalMunch (segments cs) cs := by
  induction hn : cs.length using Nat.strongRecOn generalizing cs with
  | ind n ih =>
    cases cs with
    | nil => exact .nil
    | cons c cs =>
      have happend := text_front_append c cs
      have hlt : (cs.drop ((front c cs).text.length - 1)).length < n := by
        rw [← hn, List.length_drop, List.length_cons]
        omega
      have hrest := ih _ hlt _ rfl
      have hcons := MaximalMunch.cons (happend ▸ isFront_front c cs) hrest
      rwa [happend, ← segments_cons] at hcons

/-- The segments of a text are the longest ones, and no other ones are. -/
theorem maximalMunch_iff {gs : List Segment} {cs : List Char} :
    MaximalMunch gs cs ↔ gs = segments cs := by
  constructor
  · intro h
    induction h with
    | nil => rfl
    | @cons g gs cs hg _ ih =>
      obtain ⟨d, ds, hd⟩ := List.exists_cons_of_ne_nil hg.text_ne_nil
      rw [hd, List.cons_append] at hg ⊢
      obtain rfl := hg.unique (isFront_front d (ds ++ cs))
      rw [segments_cons, hd, ih]
      simp
  · intro h
    rw [h]
    exact maximalMunch_segments cs

end Lox
