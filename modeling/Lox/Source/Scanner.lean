import Lox.Diagnostic.Basic
import Lox.Source.Segment

/-!
# The scanner

The segments of a source stand for *items*.  A lexeme gives a token, a string that
never ends and a stray character give an error, a blank and a comment give nothing.
A token carries the line it starts on.  So does the error of a stray character.  A
string that never ends is reported where the source ends.

A scanner is a place in a source text: the characters still to come and the line
they start on.  `Scanner.next` gives one item after the other, and cuts no more of
the text than it has to.  `Scanner.finish` gives all that are left at once, together
with the end mark and its line.
-/

namespace Lox

/-! ## Items -/

/-- A token of a source text, or an error in its place. -/
abbrev Item := Except Error Token

/-- The token of an item. -/
def Item.token? : Item → Option Token
  | .ok t => some t
  | .error _ => none

/-- The error of an item. -/
def Item.error? : Item → Option Error
  | .ok _ => none
  | .error e => some e

theorem Item.token?_eq_some_iff {i : Item} {t : Token} : i.token? = some t ↔ i = .ok t := by
  cases i with
  | ok u => simp [token?]
  | error e => simp [token?]

theorem Item.error?_eq_some_iff {i : Item} {e : Error} : i.error? = some e ↔ i = .error e := by
  cases i with
  | ok t => simp [error?]
  | error f => simp [error?]

/-- The tokens of changed items are the tokens of the items, changed. -/
theorem Item.filterMap_token?_map {f : Item → Item} {g : Token → Token}
    (h : ∀ i, (f i).token? = i.token?.map g) (is : List Item) :
    (is.map f).filterMap token? = (is.filterMap token?).map g := by
  have hcomp : token? ∘ f = fun i => i.token?.map g := funext h
  rw [List.filterMap_map, List.map_filterMap, hcomp]

/-- The errors of changed items are the errors of the items, changed. -/
theorem Item.filterMap_error?_map {f : Item → Item} {g : Error → Error}
    (h : ∀ i, (f i).error? = i.error?.map g) (is : List Item) :
    (is.map f).filterMap error? = (is.filterMap error?).map g := by
  have hcomp : error? ∘ f = fun i => i.error?.map g := funext h
  rw [List.filterMap_map, List.map_filterMap, hcomp]

/-- The value of a lexeme: a string without its quotes, a number or a name as
spelled, nothing for any other kind. -/
def Kind.valueOf? (kind : Kind) (text : List Char) : Option String :=
  match kind with
  | .string => some (String.ofList text.tail.dropLast)
  | .number | .identifier => some (String.ofList text)
  | _ => none

theorem Kind.valueOf?_eq_none {k : Kind} {s : String} (h : k.spelling? = some s)
    (text : List Char) : k.valueOf? text = none := by
  cases k with
  | identifier | string | number | endOfFile => cases h
  | _ => rfl

/-- The token of a lexeme. -/
def Token.ofLexeme (kind : Kind) (text : List Char) (line : Nat) : Token :=
  { kind, lexeme := String.ofList text, literal := kind.valueOf? text, line }

/-- A segment and the line it starts on. -/
structure Located where
  /-- The line, counted from one. -/
  line : Nat
  /-- The segment. -/
  segment : Segment
deriving DecidableEq, Repr

namespace Located

/-- The line that a segment ends on. -/
def endLine (g : Located) : Nat := g.line + g.segment.lineBreaks

/-- What a segment stands for. -/
def item? (g : Located) : Option Item :=
  match g.segment with
  | .blank _ | .comment _ => none
  | .lexeme kind text => some (.ok (Token.ofLexeme kind text g.line))
  | .unterminated _ => some (.error (LexicalFault.unterminatedString.onLine g.endLine))
  | .stray c => some (.error ((LexicalFault.unexpectedCharacter c).onLine g.line))

end Located

/-- Segments with their lines, the first of them on the given line. -/
def locate : Nat → List Segment → List Located
  | _, [] => []
  | line, g :: gs => ⟨line, g⟩ :: locate (line + g.lineBreaks) gs

/-- The line after segments that start on the given line. -/
def lineAfter : Nat → List Segment → Nat
  | line, [] => line
  | line, g :: gs => lineAfter (line + g.lineBreaks) gs

/-- What segments stand for, in order. -/
def items (line : Nat) (gs : List Segment) : List Item := (locate line gs).filterMap Located.item?

/-- Lines are counted by the line breaks of the text, whatever its segments. -/
theorem lineAfter_eq (line : Nat) (gs : List Segment) :
    lineAfter line gs = line + (gs.flatMap Segment.text).count Alphabet.lineBreak := by
  induction gs generalizing line with
  | nil => rfl
  | cons g gs ih =>
    rw [lineAfter, ih, List.flatMap_cons, List.count_append, Segment.lineBreaks, Nat.add_assoc]

theorem lineAfter_append (line : Nat) (gs hs : List Segment) :
    lineAfter line (gs ++ hs) = lineAfter (lineAfter line gs) hs := by
  induction gs generalizing line with
  | nil => rfl
  | cons g gs ih => exact ih _

theorem items_nil (line : Nat) : items line [] = [] := rfl

theorem items_cons (line : Nat) (g : Segment) (gs : List Segment) :
    items line (g :: gs) =
      (Located.item? ⟨line, g⟩).toList ++ items (line + g.lineBreaks) gs := by
  rw [items, locate, List.filterMap_cons]
  cases Located.item? ⟨line, g⟩ <;> rfl

theorem items_append (line : Nat) (gs hs : List Segment) :
    items line (gs ++ hs) = items line gs ++ items (lineAfter line gs) hs := by
  induction gs generalizing line with
  | nil => rfl
  | cons g gs ih => rw [List.cons_append, items_cons, items_cons, ih, List.append_assoc, lineAfter]

/-! ## Scanners -/

/-- What a source text was found to hold. -/
structure Scan where
  /-- The tokens and the errors, in the order of the source. -/
  items : List Item
  /-- The line the source ends on. -/
  endLine : Nat

namespace Scan

/-- The tokens, with the end mark. -/
def tokens (s : Scan) : List Token :=
  s.items.filterMap Item.token? ++ [Token.endOfFile s.endLine]

/-- The errors. -/
def errors (s : Scan) : List Error := s.items.filterMap Item.error?

theorem mem_tokens_iff {s : Scan} {t : Token} :
    t ∈ s.tokens ↔ .ok t ∈ s.items ∨ t = Token.endOfFile s.endLine := by
  simp [tokens, Item.token?_eq_some_iff]

/-- The end mark is among the tokens. -/
theorem exists_isEndOfFile (s : Scan) : ∃ t ∈ s.tokens, t.isEndOfFile = true :=
  ⟨Token.endOfFile s.endLine, mem_tokens_iff.2 (Or.inr rfl), rfl⟩

theorem mem_errors_iff {s : Scan} {e : Error} : e ∈ s.errors ↔ .error e ∈ s.items := by
  simp [errors, Item.error?_eq_some_iff]

end Scan

/-- A place in a source text. -/
structure Scanner where
  /-- The text still to come. -/
  rest : List Char
  /-- The line it starts on. -/
  line : Nat := 1

namespace Scanner

/-- The scanner at the start of a source text. -/
def ofSource (source : String) : Scanner := { rest := source.toList }

/-- The first item of a text whose first `n` characters belong to a segment that is
passed over already, and the scanner after it. -/
def nextPast : Nat → Nat → List Char → Option Item × Scanner
  | line, _, [] => (none, ⟨[], line⟩)
  | line, n + 1, _ :: cs => nextPast line n cs
  | line, 0, c :: cs =>
    let g := Segment.front c cs
    match Located.item? ⟨line, g⟩ with
    | some item => (some item, ⟨cs.drop (g.text.length - 1), line + g.lineBreaks⟩)
    | none => nextPast (line + g.lineBreaks) (g.text.length - 1) cs
termination_by structural _ _ cs => cs

/-- The next item, and the scanner after it.  At the end there is none, and
blanks and comments before the end are passed over. -/
def next (s : Scanner) : Option Item × Scanner := nextPast s.line 0 s.rest

/-- All that is left. -/
def finish (s : Scanner) : Scan :=
  { items := items s.line (segments s.rest), endLine := lineAfter s.line (segments s.rest) }

/-- The items of the next `n` calls, and the scanner after them. -/
def take : Nat → Scanner → List (Option Item) × Scanner
  | 0, s => ([], s)
  | n + 1, s =>
    let (taken, last) := take n s.next.2
    (s.next.1 :: taken, last)

theorem take_succ (n : Nat) (s : Scanner) :
    take (n + 1) s = (s.next.1 :: (take n s.next.2).1, (take n s.next.2).2) := rfl

end Scanner

/-- Find the tokens and errors of a source text. -/
def scan (source : String) : Scan := (Scanner.ofSource source).finish

/-- The items of a source are those of its segments. -/
theorem items_scan (source : String) :
    (scan source).items = items 1 (segments source.toList) := rfl

end Lox
