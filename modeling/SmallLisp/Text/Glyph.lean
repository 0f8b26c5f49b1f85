import SmallLisp.Text.Bytes

/-! The characters of a text. UTF-8 is decoded from the left; a byte that starts no complete
sequence stands alone as the replacement character. Each glyph keeps the bytes it was read from,
so the glyphs of a text concatenate to the text. -/
namespace SmallLisp

structure Glyph where
  char : Char
  raw : Bytes
deriving DecidableEq

namespace Glyph

/-- Stands for a byte that is part of no valid sequence. -/
def replacement : Char := Char.ofNat 0xFFFD

/-- A later byte of a sequence, within the bounds that the first byte sets. -/
def tail (b : UInt8) (lo hi : Nat) : Bool := lo ≤ b.toNat && b.toNat ≤ hi

/-- The bits of a later byte that count. -/
def low (b : UInt8) : Nat := b.toNat % 64

/-- The character at the front of `b :: rest` and how many bytes of `rest` belong to it. The
bounds on the second byte rule out overlong forms, surrogates and values above U+10FFFF. -/
def decode (b : UInt8) (rest : Bytes) : Char × Nat :=
  let n := b.toNat
  if n < 0x80 then (Char.ofNat n, 0)
  else if 0xC2 ≤ n && n < 0xE0 then
    match rest with
    | c :: _ =>
      if tail c 0x80 0xBF then (Char.ofNat ((n - 0xC0) * 64 + low c), 1) else (replacement, 0)
    | _ => (replacement, 0)
  else if 0xE0 ≤ n && n < 0xF0 then
    match rest with
    | c :: d :: _ =>
      if tail c (if n = 0xE0 then 0xA0 else 0x80) (if n = 0xED then 0x9F else 0xBF) &&
          tail d 0x80 0xBF then
        (Char.ofNat ((n - 0xE0) * 4096 + low c * 64 + low d), 2)
      else (replacement, 0)
    | _ => (replacement, 0)
  else if 0xF0 ≤ n && n < 0xF5 then
    match rest with
    | c :: d :: e :: _ =>
      if tail c (if n = 0xF0 then 0x90 else 0x80) (if n = 0xF4 then 0x8F else 0xBF) &&
          tail d 0x80 0xBF && tail e 0x80 0xBF then
        (Char.ofNat ((n - 0xF0) * 262144 + low c * 4096 + low d * 64 + low e), 3)
      else (replacement, 0)
    | _ => (replacement, 0)
  else (replacement, 0)

private def decodeFrom : Nat → Bytes → List Glyph
  | _, [] => []
  | skip + 1, _ :: s => decodeFrom skip s
  | 0, b :: s =>
    let (c, k) := decode b s
    ⟨c, b :: s.take k⟩ :: decodeFrom k s

/-- The glyphs of a text, from the left. -/
def ofBytes (s : Bytes) : List Glyph := decodeFrom 0 s

private theorem decodeFrom_eq_drop (k : Nat) (s : Bytes) :
    decodeFrom k s = decodeFrom 0 (s.drop k) := by
  induction s generalizing k with
  | nil => simp [decodeFrom]
  | cons b s ih => cases k with
    | zero => rfl
    | succ k => simpa [decodeFrom] using ih k

@[simp] theorem ofBytes_nil : ofBytes [] = [] := rfl

theorem ofBytes_cons (b : UInt8) (s : Bytes) :
    ofBytes (b :: s) =
      ⟨(decode b s).1, b :: s.take (decode b s).2⟩ :: ofBytes (s.drop (decode b s).2) := by
  change _ :: decodeFrom (decode b s).2 s = _
  rw [decodeFrom_eq_drop]
  rfl

/-- A byte that was read as no character of its own. -/
def isInvalid (g : Glyph) : Bool := g.char == replacement && g.raw.length == 1

def toBytes (gs : List Glyph) : Bytes := gs.flatMap Glyph.raw

/-- The characters of the glyphs encoded anew: what was invalid becomes the replacement
character. -/
def encode (gs : List Glyph) : Bytes := gs.flatMap fun g => Bytes.ofChar g.char

end Glyph

namespace Bytes

/-- The number of characters; an invalid byte counts as one. -/
def charCount (s : Bytes) : Nat := (Glyph.ofBytes s).length

/-- Whether the whole text is UTF-8. -/
def isUtf8 (s : Bytes) : Bool := (Glyph.ofBytes s).all fun g => !g.isInvalid

/-- One piece for each glyph. -/
def cutGlyphs (s : Bytes) : List Bytes := (Glyph.ofBytes s).map Glyph.raw

/-- The text with `f` applied to each character. -/
def mapChars (f : Char → Char) (s : Bytes) : Bytes :=
  (Glyph.ofBytes s).flatMap fun g => Bytes.ofChar (f g.char)

/-- The text without the characters in `p` at both ends. -/
def trim (p : Char → Bool) (s : Bytes) : Bytes :=
  let inner := (Glyph.ofBytes s).dropWhile fun g => p g.char
  Glyph.toBytes (inner.reverse.dropWhile fun g => p g.char).reverse

end Bytes
end SmallLisp
