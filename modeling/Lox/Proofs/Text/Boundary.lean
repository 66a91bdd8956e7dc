import Lox.Proofs.Source.Classes

/-!
# Where one text ends and the next one begins

Texts that were put together are told apart again where the first one ends in front of a
character that it cannot have, or is the beginning of no other text that could be there.
-/

namespace Lox.Text

section Boundary

variable {p : Char → Bool} {d : Char} {as bs rest rest' : List Char}

/-- Of two texts at one place, one is the beginning of the other. -/
theorem isPrefix_or_isPrefix (h : as ++ rest = bs ++ rest') : as <+: bs ∨ bs <+: as :=
  List.prefix_or_prefix_of_prefix (List.prefix_append as rest) (h ▸ List.prefix_append bs rest')

theorem append_ne (h : ¬ as <+: bs) (h' : ¬ bs <+: as) : as ++ rest ≠ bs ++ rest' :=
  fun heq => (isPrefix_or_isPrefix heq).elim h h'

/-- What does not have a character differs from what starts with it. -/
theorem append_ne_cons (hne : as ≠ []) (has : d ∉ as) : as ++ rest ≠ d :: rest' := by
  obtain ⟨a, as, rfl⟩ := List.exists_cons_of_ne_nil hne
  intro h
  obtain ⟨rfl, -⟩ := List.cons.inj h
  exact has List.mem_cons_self

/-- A text of characters of one class ends where a character of another one follows, or
nothing. -/
theorem append_inj_of_class (has : ∀ c ∈ as, p c = true) (hbs : ∀ c ∈ bs, p c = true)
    (hrest : ∀ c, rest.head? = some c → p c = false)
    (hrest' : ∀ c, rest'.head? = some c → p c = false) (h : as ++ rest = bs ++ rest') :
    as = bs ∧ rest = rest' := by
  have htake := congrArg (List.takeWhile p) h
  rw [List.takeWhile_append_of_pos has, List.takeWhile_append_of_pos hbs,
    Segment.takeWhile_eq_nil hrest, Segment.takeWhile_eq_nil hrest', List.append_nil,
    List.append_nil] at htake
  subst htake
  exact ⟨rfl, List.append_cancel_left h⟩

/-- A text ends at the first character that it does not have. -/
theorem append_cons_inj (has : d ∉ as) (hbs : d ∉ bs) (h : as ++ d :: rest = bs ++ d :: rest') :
    as = bs ∧ rest = rest' := by
  have hstop : ∀ {es : List Char}, ∀ c, (d :: es).head? = some c → (c != d) = false := by
    intro es c hc
    cases hc
    exact bne_self_eq_false d
  obtain ⟨hab, hrest⟩ := append_inj_of_class (Segment.forall_bne_of_not_mem has)
    (Segment.forall_bne_of_not_mem hbs) hstop hstop h
  exact ⟨hab, (List.cons.inj hrest).2⟩

end Boundary

/-- Texts put together of parts are put together of the same parts, if every part tells
where it ends. -/
theorem flatMap_inj {α : Type} {P : α → Prop} {f : α → List Char} (hne : ∀ a, f a ≠ [])
    (hinj : ∀ {a b : α} {rest rest' : List Char}, P a → P b → f a ++ rest = f b ++ rest' →
      a = b ∧ rest = rest') {xs : List α} (hxs : ∀ a ∈ xs, P a) :
    ∀ {ys : List α}, (∀ a ∈ ys, P a) → xs.flatMap f = ys.flatMap f → xs = ys := by
  induction xs with
  | nil =>
    intro ys _ h
    cases ys with
    | nil => rfl
    | cons y ys => exact absurd (List.append_eq_nil_iff.1 h.symm).1 (hne y)
  | cons x xs ih =>
    obtain ⟨hx, hxs⟩ := List.forall_mem_cons.1 hxs
    intro ys hys h
    cases ys with
    | nil => exact absurd (List.append_eq_nil_iff.1 h).1 (hne x)
    | cons y ys =>
      obtain ⟨hy, hys'⟩ := List.forall_mem_cons.1 hys
      obtain ⟨rfl, hrest⟩ := hinj hx hy h
      rw [ih hxs hys' hrest]

/-- A number is written with digits. -/
theorem isDigit_of_mem_toString {n : Nat} {c : Char} (h : c ∈ (toString n).toList) :
    c.isDigit = true := by
  rw [Nat.toString_eq_repr, Nat.toList_repr] at h
  exact Nat.isDigit_of_mem_toDigits (by decide) (by decide) h

/-- Different numbers are written differently. -/
theorem toString_inj {m n : Nat} (h : (toString m).toList = (toString n).toList) : m = n := by
  simp only [Nat.toString_eq_repr, Nat.toList_repr] at h
  rw [← Nat.ofDigitChars_ten_toDigits (n := m), h, Nat.ofDigitChars_ten_toDigits]

/-- A number ends where a character follows that is no digit. -/
theorem toString_append_inj {m n : Nat} {d : Char} {rest rest' : List Char} (hd : d.isDigit = false)
    (h : (toString m).toList ++ d :: rest = (toString n).toList ++ d :: rest') :
    m = n ∧ rest = rest' := by
  have hnot : ∀ k : Nat, d ∉ (toString k).toList := by
    intro k hmem
    rw [isDigit_of_mem_toString hmem] at hd
    cases hd
  obtain ⟨hmn, hrest⟩ := append_cons_inj (hnot m) (hnot n) h
  exact ⟨toString_inj hmn, hrest⟩

theorem toString_ne_nil (n : Nat) : (toString n).toList ≠ [] := by
  rw [Nat.toString_eq_repr, Nat.toList_repr]
  exact Nat.toDigits_ne_nil

/-- A padded number ends where a character follows that is no digit. -/
theorem leftpad_append_inj {width m n : Nat} {d : Char} {rest rest' : List Char}
    (hd : d.isDigit = false)
    (h : (toString m).toList.leftpad width ' ' ++ d :: rest =
      (toString n).toList.leftpad width ' ' ++ d :: rest') : m = n ∧ rest = rest' := by
  have hpadding : ∀ k : Nat, ∀ c ∈ List.replicate k ' ', (c == ' ') = true := by
    intro k c hc
    rw [List.eq_of_mem_replicate hc]
    rfl
  have hdigits : ∀ (k : Nat) (rest : List Char), ∀ c,
      ((toString k).toList ++ d :: rest).head? = some c → (c == ' ') = false := by
    intro k rest c hc
    obtain ⟨e, es, hk⟩ := List.exists_cons_of_ne_nil (toString_ne_nil k)
    rw [hk] at hc
    cases hc
    have hdigit : c.isDigit = true := isDigit_of_mem_toString (hk ▸ List.mem_cons_self)
    rw [beq_eq_false_iff_ne]
    rintro rfl
    cases hdigit
  rw [List.leftpad, List.leftpad, List.append_assoc, List.append_assoc] at h
  obtain ⟨-, h⟩ := append_inj_of_class (hpadding _) (hpadding _) (hdigits m rest) (hdigits n rest') h
  exact toString_append_inj hd h

end Lox.Text
