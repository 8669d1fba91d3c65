import PlainComponents.Text.Quoted

/-!
# JSON documents

JSON values and their text: in one line, or spread over lines with two blanks per level, where
an empty array or object stays on one line.
-/

namespace PlainComponents

/-- A JSON value. -/
inductive Document where
  | string (text : Text)
  | number (value : Nat)
  | flag (value : Bool)
  | array (items : List Document)
  | object (fields : List (String × Document))

namespace Document

/-- A number in decimal digits. -/
def digits (n : Nat) : Text :=
  Nat.toDigits 10 n

/-- A line break and the blanks of a level. -/
def newline (level : Nat) : Text :=
  '\n' :: List.replicate (2 * level) ' '

/-- Items between brackets, each on a line of its own. -/
def block (opening closing : Char) (level : Nat) (items : List Text) : Text :=
  if items.isEmpty then [opening, closing]
  else
    [opening] ++ newline (level + 1) ++ Text.joinWith (',' :: newline (level + 1)) items
      ++ newline level ++ [closing]

mutual

/-- The text of a document, spread over lines. -/
def pretty (level : Nat) : Document → Text
  | string t => Text.jsonQuote t
  | number n => digits n
  | flag b => (toString b).toList
  | array items => block '[' ']' level (prettyItems (level + 1) items)
  | object fields => block '\x7b' '\x7d' level (prettyFields (level + 1) fields)

def prettyItems (level : Nat) : List Document → List Text
  | [] => []
  | d :: ds => pretty level d :: prettyItems level ds

def prettyFields (level : Nat) : List (String × Document) → List Text
  | [] => []
  | (key, d) :: fields =>
    (Text.jsonQuote key.toList ++ [':', ' '] ++ pretty level d) :: prettyFields level fields

end

mutual

/-- The text of a document, in one line. -/
def compact : Document → Text
  | string t => Text.jsonQuote t
  | number n => digits n
  | flag b => (toString b).toList
  | array items => ['['] ++ Text.joinWith [','] (compactItems items) ++ [']']
  | object fields => ['\x7b'] ++ Text.joinWith [','] (compactFields fields) ++ ['\x7d']

def compactItems : List Document → List Text
  | [] => []
  | d :: ds => compact d :: compactItems ds

def compactFields : List (String × Document) → List Text
  | [] => []
  | (key, d) :: fields =>
    (Text.jsonQuote key.toList ++ [':'] ++ compact d) :: compactFields fields

end

end Document

end PlainComponents
