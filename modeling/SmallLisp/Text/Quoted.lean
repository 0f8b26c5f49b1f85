import SmallLisp.Text.Glyph
import SmallLisp.Text.CharClass

/-! Text inside a message, between quotes: printable characters stand for themselves, the quote and
the backslash are escaped, and what cannot be shown is written as an escape with a letter or a
code in base 16. -/
namespace SmallLisp.Quoted

private def letterEscape (c : Char) : Option UInt8 :=
  [(7, 97), (8, 98), (9, 116), (10, 110), (11, 118), (12, 102), (13, 114)].lookup c.toNat

/-- One character as it stands between two `quote` bytes. -/
def escape (quote : UInt8) (c : Char) : Bytes :=
  let n := c.toNat
  if n == quote.toNat || n == 92 then [92, UInt8.ofNat n]
  else if CharClass.isPrintable c then Bytes.ofChar c
  else match letterEscape c with
    | some b => [92, b]
    | none =>
      if n < 0x20 || n == 0x7F then 92 :: 120 :: Bytes.hex 2 n
      else if n < 0x10000 then 92 :: 117 :: Bytes.hex 4 n
      else 92 :: 85 :: Bytes.hex 8 n

/-- A character between apostrophes. -/
def char (c : Char) : Bytes := 39 :: escape 39 c ++ [39]

private def glyph (g : Glyph) : Bytes :=
  if g.isInvalid then g.raw.flatMap fun b => 92 :: 120 :: Bytes.hex 2 b.toNat
  else escape 34 g.char

/-- A text between double quotes; an invalid byte is written as its code. -/
def text (s : Bytes) : Bytes := 34 :: (Glyph.ofBytes s).flatMap glyph ++ [34]

end SmallLisp.Quoted
