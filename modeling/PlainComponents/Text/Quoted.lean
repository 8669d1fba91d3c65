import PlainComponents.Text.Basic
import PlainComponents.Text.Shapeless

/-!
# Quoted text

Two ways to put a text in double quotes: for a reader (`Text.quote`), where characters without a
plain shape are shown by number, and as a JSON string (`Text.jsonQuote`), where only the quote,
the backslash and the controls are escaped.
-/

namespace PlainComponents

namespace Text

/-- A number in lower case hexadecimal digits. -/
def hex (n : Nat) : Text :=
  Nat.toDigits 16 n

/-- A character of a quoted text. -/
def quoteChar (c : Char) : Text :=
  match c with
  | '\x00' => ['\\', '0']
  | '\t' => ['\\', 't']
  | '\r' => ['\\', 'r']
  | '\n' => ['\\', 'n']
  | '\\' => ['\\', '\\']
  | '"' => ['\\', '"']
  | c => if isShapeless c then ['\\', 'u', '\x7b'] ++ hex c.toNat ++ ['\x7d'] else [c]

/-- A text in quotes, for a reader. -/
def quote (t : Text) : Text :=
  ['"'] ++ t.flatMap quoteChar ++ ['"']

/-- A character of a JSON string. -/
def jsonChar (c : Char) : Text :=
  match c with
  | '"' => ['\\', '"']
  | '\\' => ['\\', '\\']
  | '\x08' => ['\\', 'b']
  | '\x0c' => ['\\', 'f']
  | '\n' => ['\\', 'n']
  | '\r' => ['\\', 'r']
  | '\t' => ['\\', 't']
  | c =>
    if c.toNat < 0x10 then ['\\', 'u', '0', '0', '0'] ++ hex c.toNat
    else if c.toNat < 0x20 then ['\\', 'u', '0', '0'] ++ hex c.toNat
    else [c]

/-- A text as a JSON string. -/
def jsonQuote (t : Text) : Text :=
  ['"'] ++ t.flatMap jsonChar ++ ['"']

end Text

end PlainComponents
