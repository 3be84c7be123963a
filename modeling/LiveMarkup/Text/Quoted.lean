/-
Texts between double quotes, for messages and for inspection.

`quoteChar` escapes the quote, the backslash, the four named controls and every other control character;
all else is written as it is. `quoted` puts the result between quotes.
-/
namespace LiveMarkup

/-- a control character: below space, or from delete to the end of the second control block -/
def isControl (c : Char) : Bool := c.toNat < 0x20 || (0x7F ≤ c.toNat && c.toNat < 0xA0)

/-- one character between quotes -/
def quoteChar (c : Char) : List Char :=
  match c with
  | '"' => ['\\', '"']
  | '\\' => ['\\', '\\']
  | '\n' => ['\\', 'n']
  | '\r' => ['\\', 'r']
  | '\t' => ['\\', 't']
  | '\x00' => ['\\', '0']
  | c => if isControl c then ['\\', 'u', '\x7b'] ++ Nat.toDigits 16 c.toNat ++ ['\x7d'] else [c]

/-- the text between double quotes -/
def quoted (s : String) : String := String.ofList (['"'] ++ s.toList.flatMap quoteChar ++ ['"'])

end LiveMarkup
