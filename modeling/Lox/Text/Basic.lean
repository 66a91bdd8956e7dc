/-!
# Texts

A sequence is cut into *lines* after every separator.  Each line but the last ends
in its separator.  Nothing follows the last separator if the sequence ends in
one, and the empty sequence has no lines.  The rule is the same for a text with
line breaks and for the bytes of a text.

Texts are read as *bytes*.  `ofUtf8?` is strict: no overlong forms, no surrogates
and nothing beyond the last code point.

An ASCII text is *quoted* between double quotes, with the characters that would break
it out of a line written as escapes.  A control character without an escape of its own
is written by its number in hexadecimal.
-/

namespace Lox.Text

/-! ## Lines -/

section Lines

variable {α : Type} [DecidableEq α]

/-- The lines of a sequence, each with its separator. -/
def linesOf (separator : α) : List α → List (List α)
  | [] => []
  | a :: as =>
    if a = separator then [a] :: linesOf separator as
    else
      match linesOf separator as with
      | [] => [[a]]
      | line :: lines => (a :: line) :: lines

end Lines

/-- A sequence without the longest run at its end of which `p` holds. -/
def dropEndWhile {α : Type} (p : α → Bool) (as : List α) : List α :=
  (as.reverse.dropWhile p).reverse

/-! ## Bytes -/

/-- The bytes that encode a text. -/
def toUtf8 (s : String) : List UInt8 := s.toUTF8.data.toList

/-- The text that bytes encode, if they encode one. -/
def ofUtf8? (bytes : List UInt8) : Option String := String.fromUTF8? bytes.toByteArray

theorem ofUtf8?_toUtf8 (s : String) : ofUtf8? (toUtf8 s) = some s := by
  have h : s.toUTF8.data.toList.toByteArray = s.toUTF8 := by
    ext1
    simp
  rw [ofUtf8?, toUtf8, h, String.fromUTF8?]
  simp only [Option.dite_none_right_eq_some, Option.some.injEq]
  exact ⟨s.isValidUTF8, rfl⟩

/-- The overlong form of a slash. -/
example : ofUtf8? [0xc0, 0xaf] = none := by decide

/-! ## ASCII and quotes -/

/-- Whether a text has ASCII characters only. -/
def isAscii (s : String) : Bool := s.toList.all fun c => c.toNat < 128

/-- Whether a character is a control character, of ASCII or of its extension. -/
def isControl (c : Char) : Bool :=
  c.toNat < 0x20 || (0x7f ≤ c.toNat && c.toNat < 0xa0)

/-- One character of a quoted text. -/
def escape (c : Char) : List Char :=
  match c with
  | '"' => ['\\', '"']
  | '\\' => ['\\', '\\']
  | '\t' => ['\\', 't']
  | '\n' => ['\\', 'n']
  | '\r' => ['\\', 'r']
  | '\x00' => ['\\', '0']
  | c =>
    if isControl c then ['\\', 'u', '\x7b'] ++ Nat.toDigits 16 c.toNat ++ ['\x7d'] else [c]

/-- An ASCII text between double quotes, with escapes. -/
def quoted (s : String) : String :=
  String.ofList ('"' :: s.toList.flatMap escape ++ ['"'])

end Lox.Text
