import Lox.Source.Segment

/-!
# The classes at the front of a text

Where a text starts with the characters of a well-formed segment, the segment at
its front is of the same class.  It is at least as long, since every class takes
all it can (`WellFormed.front`).  It is the same segment if the next character
cannot belong to it (`WellFormed.front_append`).  So a well-formed segment is
determined by its characters (`WellFormed.eq_of_text_eq`).
-/

namespace Lox.Segment

open Alphabet

/-! ## One class after the other -/

section TakeWhile

variable {p : Char → Bool} {rest : List Char}

theorem takeWhile_eq_nil (h : ∀ r, rest.head? = some r → p r = false) : rest.takeWhile p = [] := by
  cases rest with
  | nil => rfl
  | cons r rest => rw [List.takeWhile_cons, h r rfl, if_neg Bool.false_ne_true]

theorem dropWhile_eq_self (h : ∀ r, rest.head? = some r → p r = false) : rest.dropWhile p = rest := by
  cases rest with
  | nil => rfl
  | cons r rest => rw [List.dropWhile_cons, h r rfl, if_neg Bool.false_ne_true]

theorem head?_ne {d : Char} (h : ∀ r, rest.head? = some r → p r = true) (hd : p d = false) :
    rest.head? ≠ some d := by
  intro hr
  exact Bool.false_ne_true (hd.symm.trans (h d hr))

theorem forall_mem_takeWhile : ∀ c ∈ rest.takeWhile p, p c = true :=
  List.all_eq_true.1 List.all_takeWhile

/-- What is taken up to a character does not have it. -/
theorem not_mem_takeWhile_bne (q : Char) : q ∉ rest.takeWhile (· != q) := by
  intro hq
  have h := forall_mem_takeWhile (p := (· != q)) q hq
  exact absurd rfl (bne_iff_ne.1 h)

theorem forall_bne_of_not_mem {q : Char} (h : q ∉ rest) : ∀ c ∈ rest, (c != q) = true := by
  intro c hc
  rw [bne_iff_ne]
  intro he
  exact h (he ▸ hc)

end TakeWhile

section Classes

variable {c d e : Char} {cs ds es rest : List Char}

theorem fraction_eq_nil (h : rest.head? ≠ some '.') : fraction rest = [] := by
  unfold fraction
  split
  · exact absurd rfl h
  · rfl

theorem fraction_eq_nil_or (cs : List Char) : fraction cs = [] ∨
    ∃ e es, fraction cs = '.' :: e :: es ∧ ∀ c ∈ e :: es, c.isDigit = true := by
  unfold fraction
  split
  · next e es =>
    split
    · next he =>
      refine Or.inr ⟨e, _, rfl, ?_⟩
      intro c hc
      rcases List.mem_cons.1 hc with rfl | hc
      · exact he
      · exact forall_mem_takeWhile c hc
    · exact Or.inl rfl
  · exact Or.inl rfl

theorem fraction_decimal (hes : ∀ c ∈ e :: es, c.isDigit = true) :
    fraction ('.' :: e :: (es ++ rest)) = '.' :: e :: (es ++ rest.takeWhile Char.isDigit) := by
  obtain ⟨he, hes⟩ := List.forall_mem_cons.1 hes
  rw [fraction, if_pos he, List.takeWhile_append_of_pos hes]

theorem front_string (hcs : quote ∉ cs) :
    front quote (cs ++ quote :: rest) = lexeme .string (quote :: (cs ++ [quote])) := by
  have hall := forall_bne_of_not_mem hcs
  rw [front_quote, string, List.dropWhile_append_of_pos hall, List.takeWhile_append_of_pos hall]
  simp

theorem front_comment (hcs : lineBreak ∉ cs) :
    front '/' ('/' :: (cs ++ rest)) =
      comment ('/' :: '/' :: (cs ++ rest.takeWhile (· != lineBreak))) := by
  have hall := forall_bne_of_not_mem hcs
  rw [front_slash_slash, List.takeWhile_cons_of_pos rfl, List.takeWhile_append_of_pos hall]

theorem front_word (hc : isWordStart c = true) (hcs : ∀ c ∈ cs, isWordPart c = true) :
    front c (cs ++ rest) =
      lexeme (wordKind (c :: (cs ++ rest.takeWhile isWordPart)))
        (c :: (cs ++ rest.takeWhile isWordPart)) := by
  rw [front_of_isWordStart hc, word, List.takeWhile_append_of_pos hcs]

theorem front_integer (hds : ∀ c ∈ d :: ds, c.isDigit = true) :
    front d (ds ++ rest) =
      lexeme .number (d :: (ds ++ rest.takeWhile Char.isDigit ++
        fraction (rest.dropWhile Char.isDigit))) := by
  obtain ⟨hd, hds⟩ := List.forall_mem_cons.1 hds
  rw [front_of_isDigit hd, number, List.takeWhile_append_of_pos hds,
    List.dropWhile_append_of_pos hds]

theorem front_decimal (hds : ∀ c ∈ d :: ds, c.isDigit = true)
    (hes : ∀ c ∈ e :: es, c.isDigit = true) :
    front d (ds ++ '.' :: e :: es ++ rest) =
      lexeme .number (d :: ds ++ '.' :: e :: (es ++ rest.takeWhile Char.isDigit)) := by
  have hdot : ∀ r, ('.' :: e :: (es ++ rest)).head? = some r → r.isDigit = false := by
    intro r hr
    cases hr
    rfl
  rw [List.append_assoc, List.cons_append, List.cons_append, front_integer hds,
    takeWhile_eq_nil hdot, dropWhile_eq_self hdot, fraction_decimal hes, List.append_nil,
    List.cons_append]

theorem front_double {k l : Kind} (hk : Kind.punctuation? c = some k) (hl : k.withEqual? = some l) :
    front c ('=' :: rest) = lexeme l [c, '='] := by
  rw [front_of_punctuation hk (by simp)]
  simp only [punctuation, hl]

theorem punctuation_eq_single {k : Kind} (h : rest.head? ≠ some '=') :
    punctuation k c rest = lexeme k [c] := by
  unfold punctuation
  split
  · exact absurd rfl h
  · rfl

end Classes

/-! ## The segment at the front is well formed or an error -/

section WellFormed

variable {c : Char} {cs : List Char}

theorem wellFormed_number (h : c.isDigit = true) : WellFormed (number c cs) := by
  have hds : ∀ d ∈ c :: cs.takeWhile Char.isDigit, d.isDigit = true :=
    List.forall_mem_cons.2 ⟨h, forall_mem_takeWhile⟩
  rcases fraction_eq_nil_or (cs.dropWhile Char.isDigit) with hf | ⟨e, es, hf, hes⟩
  · rw [number, hf, List.append_nil]
    exact .integer hds
  · rw [number, hf]
    exact .decimal hds hes

theorem wellFormed_punctuation {k : Kind} (h : Kind.punctuation? c = some k) :
    WellFormed (punctuation k c cs) := by
  unfold punctuation
  split
  · next hl => exact .double h hl
  · exact .single h

/-- A comment or punctuation. -/
theorem wellFormed_front_of_punctuation {k : Kind} (h : Kind.punctuation? c = some k) :
    WellFormed (front c cs) := by
  by_cases hs : c = '/' ∧ cs.head? = some '/'
  · obtain ⟨rfl, hs⟩ := hs
    obtain ⟨ds, rfl⟩ := List.head?_eq_some_iff.1 hs
    rw [front_slash_slash, List.takeWhile_cons_of_pos rfl]
    exact .comment (not_mem_takeWhile_bne lineBreak)
  · rw [front_of_punctuation h fun hc hd => hs ⟨hc, hd⟩]
    exact wellFormed_punctuation h

theorem wellFormed_string_or (cs : List Char) :
    WellFormed (string cs) ∨ string cs = unterminated (quote :: cs) := by
  rcases dropWhile_bne_eq_nil_or quote cs with h | ⟨rest, h⟩
  · exact Or.inr (by rw [string, h])
  · left
    rw [string, h]
    exact .string (not_mem_takeWhile_bne quote)

theorem wellFormed_front_or (c : Char) (cs : List Char) : WellFormed (front c cs) ∨
    c = quote ∧ front c cs = unterminated (quote :: cs) ∨
    c ≠ quote ∧ front c cs = stray c := by
  by_cases hb : isBlank c = true
  · exact Or.inl (front_of_isBlank hb ▸ .blank hb)
  by_cases hq : c = quote
  · subst hq
    rw [front_quote]
    exact (wellFormed_string_or cs).imp id fun h => Or.inl ⟨rfl, h⟩
  by_cases hd : c.isDigit = true
  · exact Or.inl (front_of_isDigit hd ▸ wellFormed_number hd)
  by_cases hw : isWordStart c = true
  · exact Or.inl (front_of_isWordStart hw ▸ .word hw forall_mem_takeWhile)
  cases hp : Kind.punctuation? c with
  | none =>
    simp only [Bool.not_eq_true] at hb hd hw
    exact Or.inr (Or.inr ⟨hq, front_of_no_class hb hq hd hw hp⟩)
  | some k => exact Or.inl (wellFormed_front_of_punctuation hp)

end WellFormed

/-- Whether a segment ends in front of the character, whatever its own ones are. -/
def EndsBefore (r : Char) : Segment → Prop
  | comment _ => r = lineBreak
  | lexeme _ _ => isBlank r = true
  | _ => True

namespace WellFormed

variable {g h : Segment} {c : Char} {cs rest : List Char}

theorem text_ne_nil (hg : WellFormed g) : g.text ≠ [] := by
  cases hg <;> simp [text]

/-- What starts with the characters of a well-formed segment has one at its front
that is no shorter. -/
theorem front (hg : WellFormed g) (ht : c :: cs = g.text ++ rest) :
    WellFormed (front c cs) ∧ g.text.length ≤ (Segment.front c cs).text.length := by
  have hone : WellFormed (Segment.front c cs) →
      WellFormed (Segment.front c cs) ∧ 1 ≤ (Segment.front c cs).text.length :=
    fun h => ⟨h, List.length_pos_iff.2 h.text_ne_nil⟩
  cases hg with
  | blank hb =>
    cases ht
    exact hone (front_of_isBlank hb ▸ .blank hb)
  | single hk =>
    cases ht
    exact hone (wellFormed_front_of_punctuation hk)
  | @comment ds hds =>
    obtain ⟨rfl, rfl⟩ : c = '/' ∧ cs = '/' :: (ds ++ rest) := by simpa [text] using ht
    refine ⟨wellFormed_front_of_punctuation (k := .slash) rfl, ?_⟩
    rw [front_comment hds]
    simp [text]
  | @double d k l hk hl =>
    obtain ⟨rfl, rfl⟩ : c = d ∧ cs = '=' :: rest := by simpa [text] using ht
    rw [front_double hk hl]
    exact ⟨.double hk hl, Nat.le_refl _⟩
  | @string ds hds =>
    obtain ⟨rfl, rfl⟩ : c = quote ∧ cs = ds ++ quote :: rest := by simpa [text] using ht
    rw [front_string hds]
    exact ⟨.string hds, Nat.le_refl _⟩
  | @integer d ds hds =>
    obtain ⟨rfl, rfl⟩ : c = d ∧ cs = ds ++ rest := by simpa [text] using ht
    refine ⟨?_, ?_⟩
    · rw [front_of_isDigit (hds c List.mem_cons_self)]
      exact wellFormed_number (hds c List.mem_cons_self)
    · rw [front_integer hds]
      simp [text]
  | @decimal d e ds es hds hes =>
    obtain ⟨rfl, rfl⟩ : c = d ∧ cs = ds ++ '.' :: e :: es ++ rest := by simpa [text] using ht
    refine ⟨?_, ?_⟩
    · rw [front_of_isDigit (hds c List.mem_cons_self)]
      exact wellFormed_number (hds c List.mem_cons_self)
    · rw [front_decimal hds hes]
      simp [text]
  | @word d ds hd hds =>
    obtain ⟨rfl, rfl⟩ : c = d ∧ cs = ds ++ rest := by simpa [text] using ht
    refine ⟨?_, ?_⟩
    · rw [front_of_isWordStart hd]
      exact .word hd forall_mem_takeWhile
    · rw [front_word hd hds]
      simp [text]

/-- What starts with the characters of a well-formed segment has the segment at its
front if the next character cannot belong to it. -/
theorem front_append (hg : WellFormed g) (ht : g.text = c :: cs)
    (hr : ∀ r, rest.head? = some r → g.EndsBefore r) : Segment.front c (cs ++ rest) = g := by
  cases hg with
  | blank hb =>
    cases ht
    exact front_of_isBlank hb
  | @comment ds hds =>
    obtain ⟨rfl, rfl⟩ : '/' = c ∧ '/' :: ds = cs := by simpa [text] using ht
    have hrest : ∀ r, rest.head? = some r → (r != lineBreak) = false := by
      intro r h
      rw [hr r h]
      rfl
    rw [List.cons_append, front_comment hds, takeWhile_eq_nil hrest, List.append_nil]
  | single hk =>
    cases ht
    have hslash := head?_ne hr (d := '/') rfl
    have hequal := head?_ne hr (d := '=') rfl
    exact (front_of_punctuation hk fun _ => hslash).trans (punctuation_eq_single hequal)
  | double hk hl =>
    cases ht
    exact front_double hk hl
  | @string ds hds =>
    obtain ⟨rfl, rfl⟩ : quote = c ∧ ds ++ [quote] = cs := by simpa [text] using ht
    rw [List.append_assoc, List.singleton_append, front_string hds]
  | @integer d ds hds =>
    cases ht
    have hrest : ∀ r, rest.head? = some r → r.isDigit = false :=
      fun r h => isDigit_eq_false_of_isBlank (hr r h)
    have hdot := head?_ne hr (d := '.') rfl
    rw [front_integer hds, takeWhile_eq_nil hrest, dropWhile_eq_self hrest, fraction_eq_nil hdot,
      List.append_nil, List.append_nil]
  | @decimal d e ds es hds hes =>
    obtain ⟨rfl, rfl⟩ : d = c ∧ ds ++ '.' :: e :: es = cs := by simpa [text] using ht
    have hrest : ∀ r, rest.head? = some r → r.isDigit = false :=
      fun r h => isDigit_eq_false_of_isBlank (hr r h)
    rw [front_decimal hds hes, takeWhile_eq_nil hrest, List.append_nil]
  | @word d ds hd hds =>
    cases ht
    have hrest : ∀ r, rest.head? = some r → isWordPart r = false :=
      fun r h => isWordPart_eq_false_of_isBlank (hr r h)
    rw [front_word hd hds, takeWhile_eq_nil hrest, List.append_nil]

theorem front_eq (hg : WellFormed g) (ht : g.text = c :: cs) : Segment.front c cs = g := by
  have h : Segment.front c (cs ++ []) = g := hg.front_append ht nofun
  rwa [List.append_nil] at h

/-- A well-formed segment is determined by its characters. -/
theorem eq_of_text_eq (hg : WellFormed g) (hh : WellFormed h) (ht : g.text = h.text) : g = h := by
  obtain ⟨c, cs, hc⟩ := List.exists_cons_of_ne_nil hg.text_ne_nil
  exact (hg.front_eq hc).symm.trans (hh.front_eq (ht.symm.trans hc))

end WellFormed

/-! ## Spellings

A kind that is spelled in one way only has one well-formed lexeme. -/

theorem wordKind_eq_or (cs : List Char) : wordKind cs = .identifier ∨
    ∃ w : Keyword, wordKind cs = .keyword w ∧ w.text = String.ofList cs := by
  rw [wordKind]
  cases hw : Keyword.ofText? (String.ofList cs) with
  | none => exact Or.inl rfl
  | some w => exact Or.inr ⟨w, rfl, Keyword.ofText?_eq_some_iff.1 hw⟩

theorem wellFormed_keyword (w : Keyword) : WellFormed (.lexeme (.keyword w) w.text.toList) := by
  have hkind : wordKind w.text.toList = .keyword w := by
    rw [wordKind, String.ofList_toList, Keyword.ofText?_text]
    rfl
  have hword : ∃ c cs, w.text.toList = c :: cs ∧ isWordStart c = true ∧
      cs.all isWordPart = true := by
    cases w <;> exact ⟨_, _, rfl, rfl, rfl⟩
  obtain ⟨c, cs, htext, hc, hcs⟩ := hword
  rw [← hkind, htext]
  exact .word hc (List.all_eq_true.1 hcs)

theorem wellFormed_of_spelling? {k : Kind} {s : String} (h : k.spelling? = some s) :
    WellFormed (.lexeme k s.toList) := by
  cases k with
  | keyword w =>
    cases h
    exact wellFormed_keyword w
  | bangEqual | equalEqual | greaterEqual | lessEqual =>
    cases h
    exact .double rfl rfl
  | identifier | string | number | endOfFile => cases h
  | _ =>
    cases h
    exact .single rfl

namespace WellFormed

variable {k : Kind} {s : String} {cs : List Char}

theorem eq_toList (h : WellFormed (.lexeme k cs)) (hs : k.spelling? = some s) :
    cs = s.toList := by
  cases h with
  | single hk =>
    cases hs.symm.trans (Kind.spelling?_punctuation hk)
    exact String.toList_ofList.symm
  | @double c k _ hk hl =>
    have hspelling := Kind.spelling?_withEqual hl
    rw [Kind.spelling?_punctuation hk] at hspelling
    cases hs.symm.trans hspelling
    simp
  | string _ | integer _ | decimal _ _ => cases hs
  | @word c cs _ _ =>
    rcases wordKind_eq_or (c :: cs) with hk | ⟨w, hk, hw⟩
    · rw [hk] at hs
      cases hs
    · rw [hk] at hs
      cases hs
      rw [hw, String.toList_ofList]

/-- A lexeme that is no name and could be spelled otherwise is that of a string or of a
number. -/
theorem string_or_number (h : WellFormed (.lexeme k cs)) (hs : k.spelling? = none)
    (hk : k ≠ .identifier) :
    (k = .string ∧ ∃ ds, quote ∉ ds ∧ cs = quote :: (ds ++ [quote])) ∨
    (k = .number ∧ ∃ ds es, ds ≠ [] ∧ (∀ c ∈ ds, c.isDigit = true) ∧
      (∀ c ∈ es, c.isDigit = true) ∧ (cs = ds ∨ es ≠ [] ∧ cs = ds ++ '.' :: es)) := by
  cases h with
  | single hp => cases hs.symm.trans (Kind.spelling?_punctuation hp)
  | double hp hl =>
    have hspelling := Kind.spelling?_withEqual hl
    rw [Kind.spelling?_punctuation hp] at hspelling
    cases hs.symm.trans hspelling
  | string hds => exact Or.inl ⟨rfl, _, hds, rfl⟩
  | @integer d ds hds => exact Or.inr ⟨rfl, d :: ds, [], nofun, hds, nofun, Or.inl rfl⟩
  | @decimal d e ds es hds hes =>
    exact Or.inr ⟨rfl, d :: ds, e :: es, nofun, hds, hes, Or.inr ⟨nofun, rfl⟩⟩
  | @word c cs _ _ =>
    rcases wordKind_eq_or (c :: cs) with hw | ⟨w, hw, -⟩
    · exact absurd hw hk
    · rw [hw] at hs
      cases hs

/-- The lexeme of a string has its quotes. -/
theorem exists_string (h : WellFormed (.lexeme .string cs)) :
    ∃ ds, quote ∉ ds ∧ cs = quote :: (ds ++ [quote]) := by
  rcases h.string_or_number rfl (by decide) with ⟨-, hds⟩ | ⟨hk, -⟩
  · exact hds
  · cases hk

/-- The lexeme of anything else is of characters that tokens are made of. -/
theorem not_mem (h : WellFormed (.lexeme k cs)) (hk : k ≠ .string) {d : Char}
    (hword : isWordPart d = false) (hpunctuation : Kind.punctuation? d = none) : d ∉ cs := by
  have hparts : ∀ {ds : List Char}, (∀ c ∈ ds, isWordPart c = true) → d ∉ ds :=
    fun hds hd => Bool.false_ne_true (hword.symm.trans (hds d hd))
  have hdigits : ∀ {ds : List Char}, (∀ c ∈ ds, c.isDigit = true) → d ∉ ds :=
    fun hds => hparts fun c hc => isWordPart_of_isDigit (hds c hc)
  have hmark : ∀ {c : Char} {k : Kind}, Kind.punctuation? c = some k → d ≠ c := by
    rintro c k hc rfl
    cases hpunctuation.symm.trans hc
  have hequal : d ≠ '=' := hmark (k := .equal) rfl
  have hdot : d ≠ '.' := hmark (k := .dot) rfl
  cases h with
  | single hp => exact List.not_mem_cons_of_ne_of_not_mem (hmark hp) nofun
  | double hp _ =>
    exact List.not_mem_cons_of_ne_of_not_mem (hmark hp)
      (List.not_mem_cons_of_ne_of_not_mem hequal nofun)
  | string _ => exact absurd rfl hk
  | integer hds => exact hdigits hds
  | decimal hds hes =>
    exact List.not_mem_append (hdigits hds)
      (List.not_mem_cons_of_ne_of_not_mem hdot (hdigits hes))
  | word hc hcs => exact hparts (List.forall_mem_cons.2 ⟨isWordPart_of_isWordStart hc, hcs⟩)

end WellFormed

end Lox.Segment
