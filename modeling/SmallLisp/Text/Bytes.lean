/-! Text of the language: source files, symbols, strings and messages are lists of bytes, so
nothing assumes that they hold valid UTF-8. Searching, cutting and joining work on bytes; the
view of a text as characters is in `SmallLisp.Text.Glyph`. -/
namespace SmallLisp

abbrev Bytes := List UInt8

namespace Bytes

theorem ne_of_high {b x : UInt8} (hb : 0x80 ≤ b.toNat) (hx : x.toNat < 0x80) : b ≠ x := by
  rintro rfl
  omega

/-- The UTF-8 encoding of one character. -/
def ofChar (c : Char) : Bytes :=
  let n := c.toNat
  if n < 0x80 then [UInt8.ofNat n]
  else if n < 0x800 then
    [UInt8.ofNat (0xC0 + n / 64), UInt8.ofNat (0x80 + n % 64)]
  else if n < 0x10000 then
    [UInt8.ofNat (0xE0 + n / 4096), UInt8.ofNat (0x80 + n / 64 % 64), UInt8.ofNat (0x80 + n % 64)]
  else
    [UInt8.ofNat (0xF0 + n / 262144), UInt8.ofNat (0x80 + n / 4096 % 64),
     UInt8.ofNat (0x80 + n / 64 % 64), UInt8.ofNat (0x80 + n % 64)]

theorem ofChar_ascii {c : Char} (h : c.toNat < 0x80) : ofChar c = [UInt8.ofNat c.toNat] :=
  if_pos h

def ofChars (cs : List Char) : Bytes := cs.flatMap ofChar

theorem ofChars_cons_ascii {c : Char} (h : c.toNat < 0x80) (cs : List Char) :
    ofChars (c :: cs) = UInt8.ofNat c.toNat :: ofChars cs := by
  rw [ofChars, List.flatMap_cons, ofChar_ascii h]
  rfl

def ofString (s : String) : Bytes := ofChars s.toList

/-- The decimal digits of `n`, without leading zeros. -/
def ofNat (n : Nat) : Bytes := ofChars (Nat.toDigits 10 n)

theorem ofNat_ne_nil (n : Nat) : ofNat n ≠ [] := by
  obtain ⟨c, cs, h⟩ := List.exists_cons_of_ne_nil (Nat.toDigits_ne_nil (n := n) (b := 10))
  rw [ofNat, h, ofChars, List.flatMap_cons, ofChar]
  repeat' split
  all_goals simp

/-- The bytes of a number are decimal digits. -/
theorem ofNat_digits {n : Nat} {b : UInt8} (h : b ∈ ofNat n) : 48 ≤ b.toNat ∧ b.toNat ≤ 57 := by
  obtain ⟨c, hc, hb⟩ := List.mem_flatMap.mp h
  have hd : 48 ≤ c.toNat ∧ c.toNat ≤ 57 := by
    simpa [Char.isDigit_iff_toNat] using
      Nat.isDigit_of_mem_toDigits (b := 10) (by decide) (by decide) hc
  rw [ofChar_ascii (by omega), List.mem_singleton] at hb
  have hn : c.toNat % 256 = c.toNat := Nat.mod_eq_of_lt (by omega)
  rw [hb, UInt8.toNat_ofNat', hn]
  exact hd

/-- The decimal digits of `n` after a minus sign if it is negative. -/
def ofInt : Int → Bytes
  | .ofNat n => ofNat n
  | .negSucc n => 45 :: ofNat (n + 1)

/-- A digit of base 16, in lower case. -/
def hexDigit (n : Nat) : UInt8 := UInt8.ofNat (if n < 10 then 48 + n else 87 + n)

/-- The last `width` digits of `n` in base 16. -/
def hex : Nat → Nat → Bytes
  | 0, _ => []
  | width + 1, n => hex width (n / 16) ++ [hexDigit (n % 16)]

/-- The parts in order, with `sep` between neighbours. -/
def join (sep : Bytes) : List Bytes → Bytes
  | [] => []
  | [p] => p
  | p :: q :: ps => p ++ sep ++ join sep (q :: ps)

/-- Whether `sub` occurs in the text. -/
def hasInfix (sub : Bytes) : Bytes → Bool
  | [] => sub.isEmpty
  | b :: s => sub.isPrefixOf (b :: s) || hasInfix sub s

private def cutFrom (sep : Bytes) : Nat → Bytes → Bytes → List Bytes
  | _, part, [] => [part.reverse]
  | skip + 1, part, _ :: s => cutFrom sep skip part s
  | 0, part, b :: s =>
    if sep.isPrefixOf (b :: s) then part.reverse :: cutFrom sep (sep.length - 1) [] s
    else cutFrom sep 0 (b :: part) s

/-- The parts of the text around every occurrence of a non-empty `sep`, found from the left. -/
def cut (sep : Bytes) (s : Bytes) : List Bytes := cutFrom sep 0 [] s

/-- The parts of the text around every byte `b`. -/
def cutByte (b : UInt8) (s : Bytes) : List Bytes := cut [b] s

private theorem cutFrom_byte_append (b : UInt8) (part s t : Bytes) :
    cutFrom [b] 0 part (s ++ b :: t) = cutFrom [b] 0 part s ++ cutFrom [b] 0 [] t := by
  induction s generalizing part with
  | nil => simp [cutFrom]
  | cons c s ih =>
    by_cases hc : b = c
    · simpa [cutFrom, hc] using ih []
    · simpa [cutFrom, hc] using ih (c :: part)

private theorem length_cutFrom_byte (b : UInt8) (part s : Bytes) :
    (cutFrom [b] 0 part s).length = s.count b + 1 := by
  induction s generalizing part with
  | nil => rfl
  | cons c s ih =>
    by_cases hc : b = c
    · subst hc
      simp [cutFrom, ih]
    · simp [cutFrom, hc, Ne.symm hc, ih]

private theorem cutFrom_byte_of_not_mem {b : UInt8} {s : Bytes} (h : b ∉ s) (part : Bytes) :
    cutFrom [b] 0 part s = [part.reverse ++ s] := by
  induction s generalizing part with
  | nil => simp [cutFrom]
  | cons c s ih =>
    obtain ⟨hc, hs⟩ := not_or.mp (mt List.mem_cons.mpr h)
    simp [cutFrom, hc, ih hs]

/-- The lines of a text: what stands between newline bytes. -/
def lines (s : Bytes) : List Bytes := cutByte 10 s

theorem lines_append (s t : Bytes) : lines (s ++ 10 :: t) = lines s ++ lines t :=
  cutFrom_byte_append 10 [] s t

theorem length_lines (s : Bytes) : (lines s).length = s.count 10 + 1 := length_cutFrom_byte 10 [] s

theorem lines_of_not_mem {s : Bytes} (h : 10 ∉ s) : lines s = [s] := cutFrom_byte_of_not_mem h []

/-- The text without one carriage return at its end. -/
def dropReturn (s : Bytes) : Bytes := if s.getLast? = some 13 then s.dropLast else s

/-- Byte by byte, the first difference decides. -/
def less (a b : Bytes) : Bool := decide (a < b)

end Bytes
end SmallLisp
