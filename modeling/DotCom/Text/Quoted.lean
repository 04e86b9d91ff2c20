/-
  DotCom.Text.Quoted — a character in single quotes, as messages show it: itself when it is
  printable, else an escape.
-/

import DotCom.Text.Numeral
import DotCom.Text.Printable

namespace DotCom.Text

/-- A character between the quotes of a message. -/
def escaped (c : Char) : String :=
  match c with
  | '\x00' => "\\0"
  | '\t' => "\\t"
  | '\r' => "\\r"
  | '\n' => "\\n"
  | '\x27' => "\\'"
  | '\\' => "\\\\"
  | c => if isPrintable c then c.toString else "\\u\x7b" ++ hexDigits c.toNat ++ "\x7d"

def quoted (c : Char) : String := "'" ++ escaped c ++ "'"

end DotCom.Text
