import PlainComponents.Text.Basic

/-!
# Showing bytes as text

File names need not be UTF-8.  `Text.decodeLossy` shows any byte string: what is well formed is
decoded, and every maximal piece that could still have become a character but did not, as well as
every byte that starts none, becomes one replacement character.
-/

namespace PlainComponents

namespace Text

/-- The character shown for what is not UTF-8. -/
def replacement : Char := '�'

/-- A character of which the first bytes have been read. -/
structure Partial where
  /-- The bits read so far. -/
  value : Nat
  /-- The number of bytes to come, not zero. -/
  missing : Nat
  /-- The least and the greatest next byte. -/
  low : Nat
  high : Nat

/-- The first byte of a character: what can be shown at once, or what is still to come. -/
def beginChar (b : UInt8) : Text × Option Partial :=
  let n := b.toNat
  if n < 0x80 then ([Char.ofNat n], none)
  else if n < 0xc2 then ([replacement], none)
  else if n < 0xe0 then ([], some ⟨n % 32, 1, 0x80, 0xbf⟩)
  else if n < 0xf0 then
    let low := if n = 0xe0 then 0xa0 else 0x80
    let high := if n = 0xed then 0x9f else 0xbf
    ([], some ⟨n % 16, 2, low, high⟩)
  else if n < 0xf5 then
    let low := if n = 0xf0 then 0x90 else 0x80
    let high := if n = 0xf4 then 0x8f else 0xbf
    ([], some ⟨n % 8, 3, low, high⟩)
  else ([replacement], none)

/-- The next byte of a character; one that does not fit ends the piece and starts anew. -/
def continueChar (p : Partial) (b : UInt8) : Text × Option Partial :=
  let n := b.toNat
  if p.low ≤ n ∧ n ≤ p.high then
    let value := p.value * 64 + n % 64
    if p.missing ≤ 1 then ([Char.ofNat value], none)
    else ([], some ⟨value, p.missing - 1, 0x80, 0xbf⟩)
  else
    let (shown, rest) := beginChar b
    (replacement :: shown, rest)

/-- The text shown for the bytes that follow a character begun earlier, if any. -/
def decodeLossyFrom : Option Partial → List UInt8 → Text
  | none, [] => []
  | some _, [] => [replacement]
  | none, b :: bs =>
    let (shown, rest) := beginChar b
    shown ++ decodeLossyFrom rest bs
  | some p, b :: bs =>
    let (shown, rest) := continueChar p b
    shown ++ decodeLossyFrom rest bs

/-- The text shown for a byte string. -/
def decodeLossy (bytes : List UInt8) : Text :=
  decodeLossyFrom none bytes

end Text

end PlainComponents
