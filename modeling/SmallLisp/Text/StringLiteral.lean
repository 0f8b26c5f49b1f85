import SmallLisp.Text.Bytes

/-! A string as a program writes it: between double quotes, with a backslash before a quote or a
backslash, letters for newline and tab, and codes in base 16 for other control bytes. -/
namespace SmallLisp.StringLiteral

def escapeByte (b : UInt8) : Bytes :=
  if b == 34 then [92, 34]
  else if b == 92 then [92, 92]
  else if b == 10 then [92, 110]
  else if b == 9 then [92, 116]
  else if b < 0x20 || b == 0x7F then 92 :: 120 :: Bytes.hex 2 b.toNat
  else [b]

def render (s : Bytes) : Bytes := 34 :: s.flatMap escapeByte ++ [34]

end SmallLisp.StringLiteral
