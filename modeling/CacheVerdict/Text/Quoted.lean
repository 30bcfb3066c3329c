import CacheVerdict.Text.Numeral
import CacheVerdict.Text.Printable

/-!
# Quoted text

Two ways of writing arbitrary text inside double quotes: for messages, where printable characters
stay as they are, and for graph drawings, where only printable ASCII does.
-/

namespace CacheVerdict.Text

/-- The escape of a character by its code point. -/
def codeEscape (c : Char) : String :=
  "\\u\x7b" ++ String.ofList (Numeral.hexDigits c.toNat) ++ "\x7d"

/-- A character of a message. -/
def messageChar (c : Char) : String :=
  match c with
  | '"' => "\\\""
  | '\\' => "\\\\"
  | '\t' => "\\t"
  | '\r' => "\\r"
  | '\n' => "\\n"
  | '\x00' => "\\0"
  | c => if isPrintable c then c.toString else codeEscape c

/-- Text between double quotes, as a message shows it. -/
def quoted (s : String) : String :=
  "\"" ++ String.join (s.toList.map messageChar) ++ "\""

/-- A character of a drawing's label: printable ASCII as it is, quotes and backslashes escaped. -/
def labelChar (c : Char) : String :=
  match c with
  | '\t' => "\\t"
  | '\r' => "\\r"
  | '\n' => "\\n"
  | '\x27' => "\\'"
  | '"' => "\\\""
  | '\\' => "\\\\"
  | c => if 0x20 ≤ c.toNat && c.toNat ≤ 0x7e then c.toString else codeEscape c

/-- A label whose text is shown as it is. -/
def plainLabel (s : String) : String :=
  String.join (s.toList.map labelChar)

/-- A label in which a backslash keeps its meaning for the drawing program. -/
def markedLabel (s : String) : String :=
  String.join (s.toList.map fun c => if c = '\\' then "\\" else labelChar c)

end CacheVerdict.Text
