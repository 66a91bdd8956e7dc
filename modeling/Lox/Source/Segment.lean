import Lox.Token.Basic

/-!
# Segments

A source text falls into *segments*, one after the other with nothing between
them.  A segment is a blank, a comment, a lexeme with its kind, a string that
never ends, or a stray character.

`Segment.front` is the segment at the front of a text.  It takes as many
characters as can belong to it.

* A comment takes everything up to the end of its line.
* A string takes everything through the next quote, line breaks included.  If
  there is no next quote it takes the whole text and is unterminated.
* A number takes digits, and a dot with digits if a digit follows the dot.
* A name takes letters, digits and underscores.  It may spell a reserved word.
* Punctuation takes an equals sign after it if the two form a kind of their own.

`segments` cuts a text into its segments.  `flatMap_text_segments` says that
nothing is lost and nothing is read twice.

The characters that tokens are made of fall into classes.  All of them are ASCII.  A
character of no class may still stand in a string or a comment.
-/

namespace Lox

/-! ## The alphabet -/

namespace Alphabet

/-- The character that ends a line.  No other one does. -/
def lineBreak : Char := '\n'

/-- The character on both sides of a string. -/
def quote : Char := '"'

/-- The characters between tokens: space, carriage return, tab and line break. -/
def isBlank (c : Char) : Bool :=
  c == ' ' || c == '\r' || c == '\t' || c == lineBreak

/-- The characters a name starts with: ASCII letters and the underscore. -/
def isWordStart (c : Char) : Bool := c.isAlpha || c == '_'

/-- The characters a name goes on with. -/
def isWordPart (c : Char) : Bool := isWordStart c || c.isDigit

/-! ## No character is in two classes -/

section Classes

variable {c : Char}

theorem isBlank_iff : isBlank c = true ↔ c = ' ' ∨ c = '\r' ∨ c = '\t' ∨ c = lineBreak := by
  simp [isBlank, or_assoc]

theorem isBlank_quote : isBlank quote = false := by decide

theorem isDigit_eq_false_of_isBlank (h : isBlank c = true) : c.isDigit = false := by
  rcases isBlank_iff.1 h with rfl | rfl | rfl | rfl <;> decide

theorem isWordPart_eq_false_of_isBlank (h : isBlank c = true) : isWordPart c = false := by
  rcases isBlank_iff.1 h with rfl | rfl | rfl | rfl <;> decide

theorem isBlank_eq_false_of_isDigit (h : c.isDigit = true) : isBlank c = false :=
  Bool.eq_false_iff.2 fun hb => Bool.false_ne_true ((isDigit_eq_false_of_isBlank hb).symm.trans h)

theorem isBlank_eq_false_of_isWordPart (h : isWordPart c = true) : isBlank c = false :=
  Bool.eq_false_iff.2 fun hb => Bool.false_ne_true ((isWordPart_eq_false_of_isBlank hb).symm.trans h)

theorem isWordPart_of_isWordStart (h : isWordStart c = true) : isWordPart c = true := by
  rw [isWordPart, h, Bool.true_or]

theorem isWordPart_of_isDigit (h : c.isDigit = true) : isWordPart c = true := by
  rw [isWordPart, h, Bool.or_true]

/-- Letters come after the digits. -/
theorem toNat_le_of_isAlpha (h : c.isAlpha = true) : 'A'.toNat ≤ c.toNat := by
  rcases Bool.or_eq_true_iff.1 (show (c.isUpper || c.isLower) = true from h) with h | h
  · exact UInt32.le_iff_toNat_le.1 (of_decide_eq_true h).1
  · have hle := of_decide_eq_true (Bool.and_eq_true_iff.1 h).1
    exact Nat.le_trans (Nat.le_add_right 65 32) (UInt32.le_iff_toNat_le.1 hle)

theorem isDigit_eq_false_of_isWordStart (h : isWordStart c = true) : c.isDigit = false := by
  rw [← Bool.not_eq_true]
  intro hd
  have hnine : c.toNat ≤ '9'.toNat := (Char.isDigit_iff_toNat.1 hd).2
  rcases Bool.or_eq_true_iff.1 h with h | h
  · exact absurd (Nat.le_trans (toNat_le_of_isAlpha h) hnine) (by decide)
  · rw [beq_iff_eq.1 h] at hnine
    exact absurd hnine (by decide)

end Classes

end Alphabet

open Alphabet

/-! ## Segments -/

/-- A piece of a source text. -/
inductive Segment where
  /-- One character between tokens. -/
  | blank (c : Char)
  /-- Two slashes and the rest of the line, without the line break. -/
  | comment (text : List Char)
  /-- The text of one token. -/
  | lexeme (kind : Kind) (text : List Char)
  /-- A quote without a partner, and the rest of the source. -/
  | unterminated (text : List Char)
  /-- A character that nothing starts with. -/
  | stray (c : Char)
deriving DecidableEq, Repr

namespace Segment

/-- The characters of a segment. -/
def text : Segment → List Char
  | blank c => [c]
  | comment text => text
  | lexeme _ text => text
  | unterminated text => text
  | stray c => [c]

/-- The number of line breaks in a segment. -/
def lineBreaks (g : Segment) : Nat := g.text.count lineBreak

/-! ## The segment at the front -/

/-- The string after an opening quote. -/
def string (cs : List Char) : Segment :=
  match cs.dropWhile (· != quote) with
  | [] => unterminated (quote :: cs)
  | _ :: _ => lexeme .string (quote :: (cs.takeWhile (· != quote) ++ [quote]))

/-- The fraction at the front of a text, empty unless a digit follows the dot. -/
def fraction : List Char → List Char
  | '.' :: d :: cs => if d.isDigit then '.' :: d :: cs.takeWhile Char.isDigit else []
  | _ => []

/-- The number that starts with the digit `c`. -/
def number (c : Char) (cs : List Char) : Segment :=
  lexeme .number (c :: (cs.takeWhile Char.isDigit ++ fraction (cs.dropWhile Char.isDigit)))

/-- The kind of a word: the reserved word it spells, or else a name. -/
def wordKind (text : List Char) : Kind :=
  ((Keyword.ofText? (String.ofList text)).map Kind.keyword).getD .identifier

/-- The word that starts with the letter or underscore `c`. -/
def word (c : Char) (cs : List Char) : Segment :=
  let text := c :: cs.takeWhile isWordPart
  lexeme (wordKind text) text

/-- The punctuation that starts with `c`, which is of kind `k` by itself. -/
def punctuation (k : Kind) (c : Char) (cs : List Char) : Segment :=
  match k.withEqual?, cs with
  | some kind, '=' :: _ => lexeme kind [c, '=']
  | _, _ => lexeme k [c]

/-- The segment at the front of the text `c :: cs`. -/
def front (c : Char) (cs : List Char) : Segment :=
  if isBlank c then blank c
  else if c = quote then string cs
  else if c.isDigit then number c cs
  else if isWordStart c then word c cs
  else if c = '/' ∧ cs.head? = some '/' then comment (c :: cs.takeWhile (· != lineBreak))
  else
    match Kind.punctuation? c with
    | some k => punctuation k c cs
    | none => stray c

/-! ## Which segment is at the front

The first character tells, and for a slash the one after it. -/

section Front

variable {c : Char} {cs : List Char}

/-- Punctuation is in no other class. -/
theorem classes_of_punctuation {k : Kind} (h : Kind.punctuation? c = some k) :
    isBlank c = false ∧ c ≠ quote ∧ c.isDigit = false ∧ isWordStart c = false := by
  unfold Kind.punctuation? at h
  split at h <;> first | decide | cases h

theorem front_of_isBlank (h : isBlank c = true) : front c cs = blank c := by
  simp [front, h]

theorem front_quote : front quote cs = string cs := by
  simp [front, isBlank_quote]

theorem front_of_isDigit (h : c.isDigit = true) : front c cs = number c cs := by
  have hq : c ≠ quote := by
    intro hq
    rw [hq] at h
    cases h
  simp [front, isBlank_eq_false_of_isDigit h, hq, h]

theorem front_of_isWordStart (h : isWordStart c = true) : front c cs = word c cs := by
  have hq : c ≠ quote := by
    intro hq
    rw [hq] at h
    cases h
  simp [front, isBlank_eq_false_of_isWordPart (isWordPart_of_isWordStart h), hq,
    isDigit_eq_false_of_isWordStart h, h]

theorem front_slash_slash :
    front '/' ('/' :: cs) = comment ('/' :: ('/' :: cs).takeWhile (· != lineBreak)) := by
  simp [front, show isBlank '/' = false by decide, show '/' ≠ quote by decide,
    show isWordStart '/' = false by decide]

theorem front_of_punctuation {k : Kind} (h : Kind.punctuation? c = some k)
    (hc : c = '/' → cs.head? ≠ some '/') : front c cs = punctuation k c cs := by
  obtain ⟨hb, hq, hd, hw⟩ := classes_of_punctuation h
  have hs : ¬ (c = '/' ∧ cs.head? = some '/') := fun hs => hc hs.1 hs.2
  simp only [front, hb, hq, hd, hw, hs, h, if_false, Bool.false_eq_true]

theorem front_of_no_class (hb : isBlank c = false) (hq : c ≠ quote) (hd : c.isDigit = false)
    (hw : isWordStart c = false) (hp : Kind.punctuation? c = none) : front c cs = stray c := by
  have hs : c ≠ '/' := by
    intro hs
    rw [hs] at hp
    cases hp
  simp [front, hb, hq, hd, hw, hs, hp]

end Front

/-! ## A text cut into segments -/

/-- The segments of a text whose first `n` characters belong to a segment that
is cut already. -/
def segmentsPast : Nat → List Char → List Segment
  | _, [] => []
  | n + 1, _ :: cs => segmentsPast n cs
  | 0, c :: cs =>
    let g := front c cs
    g :: segmentsPast (g.text.length - 1) cs
termination_by structural _ cs => cs

end Segment

/-- The segments of a text, in order. -/
def segments (cs : List Char) : List Segment := Segment.segmentsPast 0 cs

namespace Segment

/-! ## Nothing is lost -/

theorem segmentsPast_eq (n : Nat) (cs : List Char) : segmentsPast n cs = segments (cs.drop n) := by
  induction cs generalizing n with
  | nil => simp [segmentsPast, segments]
  | cons c cs ih =>
    cases n with
    | zero => rfl
    | succ n => rw [segmentsPast, ih, List.drop_succ_cons]

@[simp] theorem segments_nil : segments [] = [] := rfl

/-- The segment at the front, then the segments of what follows it. -/
theorem segments_cons (c : Char) (cs : List Char) :
    segments (c :: cs) = front c cs :: segments (cs.drop ((front c cs).text.length - 1)) := by
  rw [segments, segmentsPast, segmentsPast_eq]

theorem fraction_isPrefix (cs : List Char) : fraction cs <+: cs := by
  unfold fraction
  split
  · next d cs =>
    split
    · exact (List.prefix_cons_inj _).2 ((List.prefix_cons_inj _).2 (List.takeWhile_prefix _))
    · exact List.nil_prefix
  · exact List.nil_prefix

/-- What is left where a character comes first is nothing, or starts with it. -/
theorem dropWhile_bne_eq_nil_or (d : Char) (cs : List Char) :
    cs.dropWhile (· != d) = [] ∨ ∃ rest, cs.dropWhile (· != d) = d :: rest := by
  induction cs with
  | nil => exact Or.inl rfl
  | cons c cs ih =>
    by_cases h : c = d
    · exact Or.inr ⟨cs, by simp [h]⟩
    · simpa [h] using ih

theorem text_string_isPrefix (cs : List Char) : (string cs).text <+: quote :: cs := by
  unfold string
  rcases dropWhile_bne_eq_nil_or quote cs with h | ⟨rest, h⟩
  · rw [h]
    exact List.prefix_refl _
  · rw [h]
    refine (List.prefix_cons_inj _).2 ⟨rest, ?_⟩
    rw [List.append_assoc, List.singleton_append, ← h, List.takeWhile_append_dropWhile]

theorem text_number_isPrefix (c : Char) (cs : List Char) : (number c cs).text <+: c :: cs := by
  obtain ⟨rest, h⟩ := fraction_isPrefix (cs.dropWhile Char.isDigit)
  refine (List.prefix_cons_inj _).2 ⟨rest, ?_⟩
  rw [List.append_assoc, h, List.takeWhile_append_dropWhile]

theorem text_punctuation_isPrefix (k : Kind) (c : Char) (cs : List Char) :
    (punctuation k c cs).text <+: c :: cs := by
  unfold punctuation
  split
  · exact ⟨_, rfl⟩
  · exact ⟨_, rfl⟩

/-- The segment at the front is made of the first characters of the text. -/
theorem text_front_isPrefix (c : Char) (cs : List Char) : (front c cs).text <+: c :: cs := by
  unfold front
  split
  · exact ⟨cs, rfl⟩
  split
  · next h => exact h ▸ text_string_isPrefix cs
  split
  · exact text_number_isPrefix c cs
  split
  · exact (List.prefix_cons_inj _).2 (List.takeWhile_prefix _)
  split
  · exact (List.prefix_cons_inj _).2 (List.takeWhile_prefix _)
  split
  · exact text_punctuation_isPrefix _ c cs
  · exact ⟨cs, rfl⟩

theorem text_punctuation_ne_nil (k : Kind) (c : Char) (cs : List Char) :
    (punctuation k c cs).text ≠ [] := by
  unfold punctuation
  split <;> simp [text]

theorem text_string_ne_nil (cs : List Char) : (string cs).text ≠ [] := by
  unfold string
  split <;> simp [text]

/-- The segment at the front takes at least one character. -/
theorem text_front_ne_nil (c : Char) (cs : List Char) : (front c cs).text ≠ [] := by
  unfold front
  split
  · simp [text]
  split
  · exact text_string_ne_nil cs
  split
  · simp [number, text]
  split
  · simp [word, text]
  split
  · simp [text]
  split
  · exact text_punctuation_ne_nil _ c cs
  · simp [text]

/-- The segment at the front and what follows it make up the text. -/
theorem text_front_append (c : Char) (cs : List Char) :
    (front c cs).text ++ cs.drop ((front c cs).text.length - 1) = c :: cs := by
  obtain ⟨rest, h⟩ := text_front_isPrefix c cs
  have hne := text_front_ne_nil c cs
  cases ht : (front c cs).text with
  | nil => exact absurd ht hne
  | cons d ds =>
    rw [ht, List.cons_append, List.cons.injEq] at h
    obtain ⟨rfl, rfl⟩ := h
    simp

/-- The segments of a text, put together again, are the text. -/
theorem flatMap_text_segments (cs : List Char) : (segments cs).flatMap text = cs := by
  induction hn : cs.length using Nat.strongRecOn generalizing cs with
  | ind n ih =>
    cases cs with
    | nil => rfl
    | cons c cs =>
      rw [segments_cons, List.flatMap_cons, ih _ ?_ _ rfl, text_front_append]
      rw [← hn, List.length_drop, List.length_cons]
      omega

/-! ## The classes of segments

What the characters of a segment look like, class by class and without regard to
what comes after it.  A string that never ends and a stray character belong to
no class. -/

/-- A segment that belongs to its class. -/
inductive WellFormed : Segment → Prop where
  | blank {c : Char} : isBlank c = true → WellFormed (.blank c)
  | comment {cs : List Char} : lineBreak ∉ cs → WellFormed (.comment ('/' :: '/' :: cs))
  | single {c : Char} {k : Kind} : Kind.punctuation? c = some k → WellFormed (.lexeme k [c])
  | double {c : Char} {k l : Kind} : Kind.punctuation? c = some k → k.withEqual? = some l →
      WellFormed (.lexeme l [c, '='])
  | string {cs : List Char} : quote ∉ cs →
      WellFormed (.lexeme .string (quote :: (cs ++ [quote])))
  | integer {d : Char} {ds : List Char} : (∀ c ∈ d :: ds, c.isDigit = true) →
      WellFormed (.lexeme .number (d :: ds))
  | decimal {d e : Char} {ds es : List Char} : (∀ c ∈ d :: ds, c.isDigit = true) →
      (∀ c ∈ e :: es, c.isDigit = true) →
      WellFormed (.lexeme .number (d :: ds ++ '.' :: e :: es))
  | word {c : Char} {cs : List Char} : isWordStart c = true → (∀ c ∈ cs, isWordPart c = true) →
      WellFormed (.lexeme (wordKind (c :: cs)) (c :: cs))

end Segment

end Lox
