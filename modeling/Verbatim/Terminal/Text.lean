import Mathlib.Algebra.Order.Ring.Int
import Mathlib.Data.List.Infix

namespace Verbatim.Terminal

/-- The text of a row, a line or a read, as its characters; lengths and offsets are in bytes. -/
abbrev Text := List Char

def Text.bytes (text : Text) : Nat := (text.map Char.utf8Size).sum

/-- The text after its first `count` bytes, when they end between characters. -/
def Text.dropBytes : Text → Nat → Option Text
  | text,0 => some text
  | [],_+1 => none
  | c::text,count+1 =>
      if c.utf8Size≤count+1 then Text.dropBytes text (count+1-c.utf8Size) else none

/-- The first `count` bytes of the text, when they end between characters. -/
def Text.takeBytes : Text → Nat → Option Text
  | _,0 => some []
  | [],_+1 => none
  | c::text,count+1 =>
      if c.utf8Size≤count+1 then
        (Text.takeBytes text (count+1-c.utf8Size)).map (c::·)
      else none

/-- The part of a text in a range of bytes: empty for a range outside it or off its characters. -/
def textIn (text : Text) (start stop : Nat) : Text :=
  if start ≤ stop then ((text.dropBytes start).bind (·.takeBytes (stop-start))).getD [] else []

/-- Unicode's White_Space property. -/
def isWhitespace (c : Char) : Bool :=
  let n := c.toNat
  (0x09≤n && n≤0x0D) || n == 0x20 || n == 0x85 || n == 0xA0 || n == 0x1680 ||
    (0x2000≤n && n≤0x200A) || n == 0x2028 || n == 0x2029 || n == 0x202F || n == 0x205F ||
    n == 0x3000

def trimPadding (line : Text) : Text := (line.reverse.dropWhile isWhitespace).reverse

def squeezed (text : Text) : Text := text.filter fun c => !isWhitespace c

/-- A line only lost text: without spaces, the old one contains the new one and is longer. -/
def lostText (old new : Text) : Bool :=
  decide ((squeezed new).bytes<(squeezed old).bytes) && decide (squeezed new <:+: squeezed old)

/-- How many cells a text and a character take, as the terminal counts them. -/
structure Widths where
  ofText : Text → Nat
  ofChar : Char → Nat

def hashFactor : Nat := 0x9e3779b97f4a7c15
def hashSeed : Nat := 0x6a09e667f3bcc908
def hashFinish : Nat := 0xbb67ae8584caa73b

/-- The 128-bit product of two words, its halves combined by exclusive or. -/
def foldWords (a b : Nat) : Nat := (a*b / 2^64) ^^^ (a*b%2^64)

def littleEndian (bytes : List UInt8) : Nat := bytes.foldr (fun byte word => byte.toNat+256*word) 0

/-- The hash with each eight bytes of the text mixed in, and what is left over. -/
def hashBytes : List UInt8 → Nat → Nat
  | b0::b1::b2::b3::b4::b5::b6::b7::rest,word =>
      hashBytes rest (foldWords (word ^^^ littleEndian [b0,b1,b2,b3,b4,b5,b6,b7]) hashFactor)
  | [],word => word
  | rest,word => foldWords (word ^^^ littleEndian rest) hashFactor

def Text.hash (text : Text) : Nat :=
  foldWords (hashBytes (text.flatMap String.utf8EncodeChar)
    (foldWords (text.bytes ^^^ hashSeed) hashFactor) ^^^ hashSeed) hashFinish

end Verbatim.Terminal
