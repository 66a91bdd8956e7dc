import Lox.Proofs.Source.LongestMatch
import Lox.Source.Scanner

/-!
# What a scan gives

A scan gives one token for each lexeme and one error for each segment in error, in
the order of the source, and an end mark behind the tokens.  Blanks and comments
leave no trace but the lines they count for.  `Transcribes` says this segment by
segment.  What it says of the segments of a source is true of one list of tokens
and of one list of errors only, and they are those of the scan.
-/

namespace Lox

open Alphabet

/-- The value that a lexeme of the kind has. -/
inductive Kind.Denotes : Kind → List Char → Option String → Prop
  | string {cs : List Char} : Denotes .string (quote :: (cs ++ [quote])) (some (String.ofList cs))
  | number {cs : List Char} : Denotes .number cs (some (String.ofList cs))
  | identifier {cs : List Char} : Denotes .identifier cs (some (String.ofList cs))
  | other {k : Kind} {cs : List Char} : k.hasValue = false → Denotes k cs none

/-- The line that the text after some characters starts on. -/
def lineAt (before : List Char) : Nat := 1 + before.count lineBreak

/-- `Transcribes before gs ts es` says what the segments `gs` give where the text
`before` comes in front of them: the tokens `ts`, with the end mark, and the
errors `es`. -/
inductive Transcribes : List Char → List Segment → List Token → List Error → Prop
  | nil {before : List Char} : Transcribes before [] [Token.endOfFile (lineAt before)] []
  | blank {before : List Char} {c : Char} {gs : List Segment} {ts : List Token}
      {es : List Error} : Transcribes (before ++ [c]) gs ts es →
      Transcribes before (.blank c :: gs) ts es
  | comment {before cs : List Char} {gs : List Segment} {ts : List Token} {es : List Error} :
      Transcribes (before ++ cs) gs ts es → Transcribes before (.comment cs :: gs) ts es
  | lexeme {before cs : List Char} {k : Kind} {value : Option String} {gs : List Segment}
      {ts : List Token} {es : List Error} : k.Denotes cs value →
      Transcribes (before ++ cs) gs ts es →
      Transcribes before (.lexeme k cs :: gs)
        (⟨k, String.ofList cs, value, lineAt before⟩ :: ts) es
  | unterminated {before cs : List Char} {gs : List Segment} {ts : List Token}
      {es : List Error} : Transcribes (before ++ cs) gs ts es →
      Transcribes before (.unterminated cs :: gs) ts
        (.lexical (lineAt (before ++ cs)) "Unterminated string." :: es)
  | stray {before : List Char} {c : Char} {gs : List Segment} {ts : List Token}
      {es : List Error} : Transcribes (before ++ [c]) gs ts es →
      Transcribes before (.stray c :: gs) ts
        (.lexical (lineAt before) ("Unexpected character: " ++ String.ofList [c]) :: es)

theorem lineAt_append (before : List Char) (g : Segment) :
    lineAt (before ++ g.text) = lineAt before + g.lineBreaks := by
  rw [lineAt, lineAt, List.count_append, Segment.lineBreaks, Nat.add_assoc]

/-! ## One list of tokens and one of errors -/

theorem Kind.Denotes.unique {k : Kind} {cs : List Char} {v w : Option String}
    (hv : k.Denotes cs v) (hw : k.Denotes cs w) : v = w := by
  generalize hcs : cs = ds at hw
  cases hv with
  | string =>
    cases hw with
    | string =>
      have h := List.append_cancel_right (List.cons.inj hcs).2
      rw [h]
    | other hk => cases hk
  | number =>
    cases hw with
    | number => rw [hcs]
    | other hk => cases hk
  | identifier =>
    cases hw with
    | identifier => rw [hcs]
    | other hk => cases hk
  | other hk =>
    cases hw with
    | string | number | identifier => cases hk
    | other _ => rfl

theorem Transcribes.unique {before : List Char} {gs : List Segment} {ts us : List Token}
    {es fs : List Error} (h : Transcribes before gs ts es) (h' : Transcribes before gs us fs) :
    ts = us ∧ es = fs := by
  induction h generalizing us fs with
  | nil =>
    cases h'
    exact ⟨rfl, rfl⟩
  | blank _ ih =>
    cases h' with
    | blank h' => exact ih h'
  | comment _ ih =>
    cases h' with
    | comment h' => exact ih h'
  | lexeme hv _ ih =>
    cases h' with
    | lexeme hw h' =>
      obtain ⟨rfl, rfl⟩ := ih h'
      obtain rfl := hv.unique hw
      exact ⟨rfl, rfl⟩
  | unterminated _ ih =>
    cases h' with
    | unterminated h' =>
      obtain ⟨rfl, rfl⟩ := ih h'
      exact ⟨rfl, rfl⟩
  | stray _ ih =>
    cases h' with
    | stray h' =>
      obtain ⟨rfl, rfl⟩ := ih h'
      exact ⟨rfl, rfl⟩

/-! ## Those of the scan -/

theorem Kind.denotes_of_spelling? {k : Kind} {s : String} (h : k.spelling? = some s)
    (cs : List Char) : k.Denotes cs (k.valueOf? cs) := by
  rw [valueOf?_eq_none h]
  exact .other (hasValue_eq_false h)

theorem Segment.WellFormed.denotes {k : Kind} {cs : List Char} (h : WellFormed (.lexeme k cs)) :
    k.Denotes cs (k.valueOf? cs) := by
  cases h with
  | single hk => exact Kind.denotes_of_spelling? (Kind.spelling?_punctuation hk) _
  | double hk hl =>
    have hs := Kind.spelling?_withEqual hl
    rw [Kind.spelling?_punctuation hk] at hs
    exact Kind.denotes_of_spelling? hs _
  | @string cs _ =>
    have hvalue : (quote :: (cs ++ [quote])).tail.dropLast = cs := List.dropLast_concat
    rw [Kind.valueOf?, hvalue]
    exact .string
  | integer _ => exact .number
  | decimal _ _ => exact .number
  | @word c cs _ _ =>
    rw [wordKind]
    cases Keyword.ofText? (String.ofList (c :: cs)) with
    | none => exact .identifier
    | some w => exact .other rfl

theorem MaximalMunch.transcribes {gs : List Segment} {cs : List Char} (h : MaximalMunch gs cs)
    (before : List Char) :
    Transcribes before gs
      ((items (lineAt before) gs).filterMap Item.token? ++
        [Token.endOfFile (lineAfter (lineAt before) gs)])
      ((items (lineAt before) gs).filterMap Item.error?) := by
  induction h generalizing before with
  | nil => exact .nil
  | @cons g gs cs hg _ ih =>
    have hrest := ih (before ++ g.text)
    rw [lineAt_append] at hrest
    rw [items_cons, lineAfter, List.filterMap_append, List.filterMap_append]
    cases g with
    | blank c => exact .blank hrest
    | comment text => exact .comment hrest
    | lexeme k text =>
      cases hg with
      | longest hm _ => exact .lexeme hm.wellFormed.denotes hrest
    | unterminated text =>
      have h := Transcribes.unterminated hrest
      rw [lineAt_append] at h
      exact h
    | stray c => exact .stray hrest

/-- A source falls into segments in one way, each of them as long as it can be, and
a scan gives the tokens and the errors that they stand for. -/
theorem scan_eq_iff (source : String) :
    ∃ gs, (∀ hs, MaximalMunch hs source.toList ↔ hs = gs) ∧
      gs.flatMap Segment.text = source.toList ∧
      ∀ ts es, Transcribes [] gs ts es ↔ ts = (scan source).tokens ∧ es = (scan source).errors := by
  refine ⟨segments source.toList, fun hs => maximalMunch_iff,
    Segment.flatMap_text_segments _, fun ts es => ?_⟩
  have h := (maximalMunch_segments source.toList).transcribes []
  constructor
  · intro h'
    exact h'.unique h
  · intro h'
    obtain ⟨rfl, rfl⟩ := h'
    exact h

end Lox
