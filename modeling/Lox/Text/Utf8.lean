/-!
# Decoding texts

The characters of a file: its bytes decoded from UTF-8, and its line ends made uniform.

## Main definitions

* `Utf8.Error`: the first stretch of bytes that is no character, and why.
* `Utf8.decode`: the characters of a list of bytes.
* `Text.unifyLineEnds`: every line end written as a line feed.
-/

namespace Lox

namespace Utf8

/-- Why some bytes are no character. -/
inductive Reason where
  | invalidStart
  | invalidContinuation
  | unexpectedEnd
deriving DecidableEq, Repr

def Reason.message : Reason → String
  | invalidStart => "invalid start byte"
  | invalidContinuation => "invalid continuation byte"
  | unexpectedEnd => "unexpected end of data"

/-- The bytes that are no character, with the position of the first. -/
structure Error where
  start : Nat
  bytes : List UInt8
  reason : Reason
deriving DecidableEq, Repr

def hexByte (b : UInt8) : String :=
  String.ofList [Nat.digitChar (b.toNat / 16), Nat.digitChar (b.toNat % 16)]

/-- The wording of an error: one byte is shown, of several the positions. -/
def Error.message (e : Error) : String :=
  let place := match e.bytes with
    | [b] => "byte 0x" ++ hexByte b ++ " in position " ++ toString e.start
    | bs => "bytes in position " ++ toString e.start ++ "-" ++ toString (e.start + bs.length - 1)
  "'utf-8' codec can't decode " ++ place ++ ": " ++ e.reason.message

/-- The least and the greatest byte that may follow. -/
abbrev Range := UInt8 × UInt8

/-- The range of a byte that continues a character. -/
def tail : Range := (0x80, 0xbf)

/-- The bits that a first byte contributes, and the ranges of the bytes that must follow it. -/
def lead? (b : UInt8) : Option (Nat × List Range) :=
  if b < 0x80 then some (b.toNat, [])
  else if b < 0xc2 then none
  else if b < 0xe0 then some (b.toNat % 0x20, [tail])
  else if b = 0xe0 then some (b.toNat % 0x10, [(0xa0, 0xbf), tail])
  else if b = 0xed then some (b.toNat % 0x10, [(0x80, 0x9f), tail])
  else if b < 0xf0 then some (b.toNat % 0x10, [tail, tail])
  else if b = 0xf0 then some (b.toNat % 0x08, [(0x90, 0xbf), tail, tail])
  else if b < 0xf4 then some (b.toNat % 0x08, [tail, tail, tail])
  else if b = 0xf4 then some (b.toNat % 0x08, [(0x80, 0x8f), tail, tail])
  else none

/-- The bytes after a first byte: the code point, or the bytes that were good and what is wrong. -/
def follow (code : Nat) : List Range → List UInt8 → Except (List UInt8 × Reason) (Nat × Nat)
  | [], _ => .ok (code, 0)
  | _ :: _, [] => .error ([], .unexpectedEnd)
  | (low, high) :: ranges, b :: bytes =>
    if low ≤ b && b ≤ high then
      match follow (code * 0x40 + b.toNat % 0x40) ranges bytes with
      | .ok (c, n) => .ok (c, n + 1)
      | .error (good, reason) => .error (b :: good, reason)
    else .error ([], .invalidContinuation)

/-- Decodes bytes of which the first has position `start`, `skip` of them being already decoded. -/
def decodeFrom (start skip : Nat) : List UInt8 → Except Error (List Char)
  | [] => .ok []
  | b :: bytes =>
    match skip with
    | skip + 1 => decodeFrom (start + 1) skip bytes
    | 0 =>
      match lead? b with
      | none => .error ⟨start, [b], .invalidStart⟩
      | some (bits, ranges) =>
        match follow bits ranges bytes with
        | .error (good, reason) => .error ⟨start, b :: good, reason⟩
        | .ok (code, length) => do
          let rest ← decodeFrom (start + 1) length bytes
          return Char.ofNat code :: rest

def decode (bytes : List UInt8) : Except Error (List Char) := decodeFrom 0 0 bytes

end Utf8

namespace Text

/-- Every line end, also a carriage return alone, written as a line feed. -/
def unifyLineEnds : List Char → List Char
  | '\r' :: '\n' :: cs => '\n' :: unifyLineEnds cs
  | '\r' :: cs => '\n' :: unifyLineEnds cs
  | c :: cs => c :: unifyLineEnds cs
  | [] => []

/-- The lines of a text that ends at a line feed or in the middle of a line. -/
def lines (text : String) : List String :=
  let parts := text.splitOn "\n"
  if parts.getLast? = some "" then parts.dropLast else parts

end Text

end Lox
