/-!
# Texts and byte offsets

A text is a list of characters.  Positions in it are byte offsets of its UTF-8 form, as parsers
report them.  This module fixes the two views of a text (characters and bytes) and how an offset
is turned into a character position:

* `Text.charIndex?` is the index of the character that holds a given byte; the offset just past the
  last byte is the end of the text, and anything beyond has no index;
* `Text.slice` cuts out the characters between two offsets;
* `Text.decode?` accepts exactly the byte strings that `Text.encode` produces.
-/

namespace PlainComponents

/-- A text, as its characters. -/
abbrev Text := List Char

namespace Text

/-! ### Bytes of a text -/

/-- The UTF-8 form of a text. -/
def encode (t : Text) : List UInt8 :=
  t.flatMap String.utf8EncodeChar

/-- The text whose UTF-8 form is `b`, if there is one. -/
def decode? (b : List UInt8) : Option Text :=
  b.toByteArray.utf8Decode?.map Array.toList

/-- The length of the UTF-8 form of a text. -/
def byteLength : Text → Nat
  | [] => 0
  | c :: t => c.utf8Size + byteLength t

theorem length_encode (t : Text) : (encode t).length = byteLength t := by
  induction t with
  | nil => rfl
  | cons c t ih => simp_all [encode, byteLength, String.length_utf8EncodeChar]

theorem decode?_encode (t : Text) : decode? (encode t) = some t := by
  have h : (encode t).toByteArray = List.utf8Encode t := rfl
  simp [decode?, h]

/-! ### Offsets -/

/-- The index of the character that holds byte `n`.  The offset just past the last byte is the
index just past the last character. -/
def charIndex? : Text → Nat → Option Nat
  | _, 0 => some 0
  | [], _ + 1 => none
  | c :: t, n + 1 =>
    if n + 1 < c.utf8Size then some 0 else (charIndex? t (n + 1 - c.utf8Size)).map (· + 1)

/-- The text without its first `n` bytes. -/
def dropBytes : Text → Nat → Text
  | t, 0 => t
  | [], _ + 1 => []
  | c :: t, n + 1 => dropBytes t (n + 1 - c.utf8Size)

/-- The first `n` bytes of the text. -/
def takeBytes : Text → Nat → Text
  | _, 0 => []
  | [], _ + 1 => []
  | c :: t, n + 1 => c :: takeBytes t (n + 1 - c.utf8Size)

/-- The part of the text between two offsets. -/
def slice (t : Text) (start stop : Nat) : Text :=
  takeBytes (dropBytes t start) (stop - start)

/-! ### Joining -/

/-- The texts one after the other, with `between` between neighbours. -/
def joinWith (between : Text) : List Text → Text
  | [] => []
  | [t] => t
  | t :: u :: ts => t ++ between ++ joinWith between (u :: ts)

/-! ### Blanks -/

/-- Space, tab, line feed, form feed and carriage return. -/
def isBlankByte (b : UInt8) : Bool :=
  b = 0x20 || b = 0x09 || b = 0x0a || b = 0x0c || b = 0x0d

/-- Whether the byte at offset `n` is blank; there is no blank past the end. -/
def isBlankAt (t : Text) (n : Nat) : Bool :=
  (encode t)[n]?.any isBlankByte

end Text

end PlainComponents
