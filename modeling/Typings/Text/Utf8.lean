import Typings.Text.Basic

/-!
# Bytes as text

Reads bytes as UTF-8. Bytes that are not UTF-8 fall into pieces: characters, and ill-formed parts,
each of which is as long as a start of a character that the following bytes do not continue.
-/

namespace Typings.Utf8

/-- A byte that continues a character. -/
def isContinuation (b : UInt8) : Bool := 0x80 ≤ b && b ≤ 0xBF

/-- Whether a byte may stand second after the first byte of a character of several bytes. -/
def isSecond (first b : UInt8) : Bool :=
  if first = 0xE0 then 0xA0 ≤ b && b ≤ 0xBF
  else if first = 0xED then 0x80 ≤ b && b ≤ 0x9F
  else if first = 0xF0 then 0x90 ≤ b && b ≤ 0xBF
  else if first = 0xF4 then 0x80 ≤ b && b ≤ 0x8F
  else isContinuation b

/-- Number of bytes of a character with a first byte; 0 for a byte that starts none. -/
def width (first : UInt8) : Nat :=
  if first < 0x80 then 1
  else if 0xC2 ≤ first && first ≤ 0xDF then 2
  else if 0xE0 ≤ first && first ≤ 0xEF then 3
  else if 0xF0 ≤ first && first ≤ 0xF4 then 4
  else 0

/-- The six bits that a continuation byte carries. -/
def payload (b : UInt8) : Nat := b.toNat % 64

/-- The piece at the front of the bytes `first :: rest`, `none` for an ill-formed part, and how
many bytes of `rest` belong to it. -/
def piece (first : UInt8) (rest : List UInt8) : Option Char × Nat :=
  match width first, rest with
  | 1, _ => (some (Char.ofNat first.toNat), 0)
  | 2, b :: _ =>
    if isSecond first b then (some (Char.ofNat (first.toNat % 32 * 64 + payload b)), 1)
    else (none, 0)
  | 3, [b] => (none, if isSecond first b then 1 else 0)
  | 3, b :: c :: _ =>
    if !isSecond first b then (none, 0)
    else if !isContinuation c then (none, 1)
    else (some (Char.ofNat (first.toNat % 16 * 4096 + payload b * 64 + payload c)), 2)
  | 4, [b] => (none, if isSecond first b then 1 else 0)
  | 4, [b, c] => (none, if !isSecond first b then 0 else if isContinuation c then 2 else 1)
  | 4, b :: c :: d :: _ =>
    if !isSecond first b then (none, 0)
    else if !isContinuation c then (none, 1)
    else if !isContinuation d then (none, 2)
    else
      (some (Char.ofNat
        (first.toNat % 8 * 262144 + payload b * 4096 + payload c * 64 + payload d)), 3)
  | _, _ => (none, 0)

/-- The pieces of the bytes after the first `skip` ones. -/
def piecesAfter : (skip : Nat) → List UInt8 → List (Option Char)
  | _, [] => []
  | skip + 1, _ :: bs => piecesAfter skip bs
  | 0, b :: bs =>
    let (c, n) := piece b bs
    c :: piecesAfter n bs

/-- The pieces of bytes, `none` for an ill-formed part. -/
def pieces (bytes : List UInt8) : List (Option Char) := piecesAfter 0 bytes

/-- The text that bytes spell, when they are UTF-8. -/
def decode? (bytes : List UInt8) : Option Text := (pieces bytes).mapM id

/-- The text that bytes spell, with U+FFFD for each ill-formed part. -/
def decodeLossy (bytes : List UInt8) : Text :=
  (pieces bytes).map fun c => c.getD (Char.ofNat 0xFFFD)

end Typings.Utf8
