import SmallLisp.Text.Glyph

/-! Reading bytes as characters. Each byte is ASCII, invalid, or the first of the encoding of one
character (`decode_cases`), so statements about texts go by induction on their characters
(`byGlyphs`). Decoding loses no byte (`toBytes_ofBytes`), and the glyphs of two texts in a row are
those of the first and those of the second if the second starts with an ASCII byte
(`ofBytes_append`). Encoding the characters anew gives the bytes back exactly if none of them is
invalid (`encode_ofBytes_eq_iff`). -/
namespace SmallLisp.Glyph

theorem toNat_ofNat {n : Nat} (h : n.isValidChar) : (Char.ofNat n).toNat = n := by
  unfold Char.ofNat
  rw [dif_pos h]
  rfl

def ascii (b : UInt8) : Glyph := ⟨Char.ofNat b.toNat, [b]⟩

theorem toNat_ascii {b : UInt8} (hb : b.toNat < 0x80) : (ascii b).char.toNat = b.toNat :=
  toNat_ofNat (by simp only [Nat.isValidChar]; omega)

theorem uint8_ofNat_eq {n : Nat} {b : UInt8} (h : n = b.toNat) : UInt8.ofNat n = b := by
  subst h
  exact UInt8.ofNat_toNat

/-- `b :: more` encodes a character beyond ASCII and is read as such whatever follows it. -/
structure Encodes (b : UInt8) (more : Bytes) (c : Char) : Prop where
  more_ne_nil : more ≠ []
  high : 0x80 ≤ c.toNat
  ofChar_eq : Bytes.ofChar c = b :: more
  bytes_high : ∀ x ∈ b :: more, 0x80 ≤ x.toNat
  decode_eq : ∀ t, decode b (more ++ t) = (c, more.length)

theorem encodes_two {b x : UInt8} (hb : 0xC2 ≤ b.toNat ∧ b.toNat < 0xE0)
    (hx : tail x 0x80 0xBF = true) :
    Encodes b [x] (Char.ofNat ((b.toNat - 0xC0) * 64 + low x)) := by
  have hx' : 0x80 ≤ x.toNat ∧ x.toNat ≤ 0xBF := by simpa [tail] using hx
  have hl : low x = x.toNat - 0x80 := by unfold low; omega
  have hn : (Char.ofNat ((b.toNat - 0xC0) * 64 + low x)).toNat = (b.toNat - 0xC0) * 64 + low x :=
    toNat_ofNat (by simp only [Nat.isValidChar]; omega)
  refine ⟨by simp, by omega, ?_, by simp; omega, fun t => ?_⟩
  · unfold Bytes.ofChar
    simp only [hn]
    rw [if_neg (by omega), if_pos (by omega), uint8_ofNat_eq (b := b) (by omega),
      uint8_ofNat_eq (b := x) (by omega)]
  · have h1 : ¬ b.toNat < 0x80 := by omega
    simp [decode, h1, hb, hx]

theorem encodes_three {b x y : UInt8} (hb : 0xE0 ≤ b.toNat ∧ b.toNat < 0xF0)
    (hx : tail x (if b.toNat = 0xE0 then 0xA0 else 0x80) (if b.toNat = 0xED then 0x9F else 0xBF) =
      true) (hy : tail y 0x80 0xBF = true) :
    Encodes b [x, y] (Char.ofNat ((b.toNat - 0xE0) * 4096 + low x * 64 + low y)) := by
  have hx' : 0x80 ≤ x.toNat ∧ x.toNat ≤ 0xBF ∧ (b.toNat = 0xE0 → 0xA0 ≤ x.toNat) ∧
      (b.toNat = 0xED → x.toNat ≤ 0x9F) := by
    simp only [tail, Bool.and_eq_true, decide_eq_true_eq] at hx
    split at hx <;> split at hx <;> omega
  have hy' : 0x80 ≤ y.toNat ∧ y.toNat ≤ 0xBF := by simpa [tail] using hy
  have hlx : low x = x.toNat - 0x80 := by unfold low; omega
  have hly : low y = y.toNat - 0x80 := by unfold low; omega
  have hn : (Char.ofNat ((b.toNat - 0xE0) * 4096 + low x * 64 + low y)).toNat =
      (b.toNat - 0xE0) * 4096 + low x * 64 + low y :=
    toNat_ofNat (by simp only [Nat.isValidChar]; omega)
  refine ⟨by simp, by omega, ?_, by simp; omega, fun t => ?_⟩
  · unfold Bytes.ofChar
    simp only [hn]
    rw [if_neg (by omega), if_neg (by omega), if_pos (by omega), uint8_ofNat_eq (b := b) (by omega),
      uint8_ofNat_eq (b := x) (by omega), uint8_ofNat_eq (b := y) (by omega)]
  · have h1 : ¬ b.toNat < 0x80 := by omega
    have h2 : ¬ b.toNat < 0xE0 := by omega
    simp [decode, h1, h2, hb, hx, hy]

theorem encodes_four {b x y z : UInt8} (hb : 0xF0 ≤ b.toNat ∧ b.toNat < 0xF5)
    (hx : tail x (if b.toNat = 0xF0 then 0x90 else 0x80) (if b.toNat = 0xF4 then 0x8F else 0xBF) =
      true) (hy : tail y 0x80 0xBF = true) (hz : tail z 0x80 0xBF = true) :
    Encodes b [x, y, z]
      (Char.ofNat ((b.toNat - 0xF0) * 262144 + low x * 4096 + low y * 64 + low z)) := by
  have hx' : 0x80 ≤ x.toNat ∧ x.toNat ≤ 0xBF ∧ (b.toNat = 0xF0 → 0x90 ≤ x.toNat) ∧
      (b.toNat = 0xF4 → x.toNat ≤ 0x8F) := by
    simp only [tail, Bool.and_eq_true, decide_eq_true_eq] at hx
    split at hx <;> split at hx <;> omega
  have hy' : 0x80 ≤ y.toNat ∧ y.toNat ≤ 0xBF := by simpa [tail] using hy
  have hz' : 0x80 ≤ z.toNat ∧ z.toNat ≤ 0xBF := by simpa [tail] using hz
  have hlx : low x = x.toNat - 0x80 := by unfold low; omega
  have hly : low y = y.toNat - 0x80 := by unfold low; omega
  have hlz : low z = z.toNat - 0x80 := by unfold low; omega
  have hn : (Char.ofNat ((b.toNat - 0xF0) * 262144 + low x * 4096 + low y * 64 + low z)).toNat =
      (b.toNat - 0xF0) * 262144 + low x * 4096 + low y * 64 + low z :=
    toNat_ofNat (by simp only [Nat.isValidChar]; omega)
  refine ⟨by simp, by omega, ?_, by simp; omega, fun t => ?_⟩
  · unfold Bytes.ofChar
    simp only [hn]
    rw [if_neg (by omega), if_neg (by omega), if_neg (by omega), uint8_ofNat_eq (b := b) (by omega),
      uint8_ofNat_eq (b := x) (by omega), uint8_ofNat_eq (b := y) (by omega),
      uint8_ofNat_eq (b := z) (by omega)]
  · have h1 : ¬ b.toNat < 0x80 := by omega
    have h2 : ¬ b.toNat < 0xE0 := by omega
    have h3 : ¬ b.toNat < 0xF0 := by omega
    simp [decode, h1, h2, h3, hb, hx, hy, hz]

/-- A byte is ASCII, stands alone as invalid, or begins the encoding of a character. -/
theorem decode_cases (b : UInt8) (s : Bytes) :
    (b.toNat < 0x80 ∧ decode b s = (Char.ofNat b.toNat, 0)) ∨
      (0x80 ≤ b.toNat ∧ decode b s = (replacement, 0)) ∨
      ∃ c more rest, s = more ++ rest ∧ Encodes b more c := by
  by_cases h1 : b.toNat < 0x80
  · exact .inl ⟨h1, by simp [decode, h1]⟩
  refine .inr ?_
  by_cases h2 : 0xC2 ≤ b.toNat ∧ b.toNat < 0xE0
  · match s with
    | [] => exact .inl ⟨by omega, by simp [decode, h1]⟩
    | x :: rest =>
      by_cases hx : tail x 0x80 0xBF = true
      · exact .inr ⟨_, [x], rest, rfl, encodes_two h2 hx⟩
      · exact .inl ⟨by omega, by simp [decode, h1, h2, hx]⟩
  by_cases h3 : 0xE0 ≤ b.toNat ∧ b.toNat < 0xF0
  · have h4 : ¬ b.toNat < 0xE0 := by omega
    match s with
    | [] | [_] => exact .inl ⟨by omega, by simp [decode, h1, h4]⟩
    | x :: y :: rest =>
      by_cases hx : tail x (if b.toNat = 0xE0 then 0xA0 else 0x80)
          (if b.toNat = 0xED then 0x9F else 0xBF) = true ∧ tail y 0x80 0xBF = true
      · exact .inr ⟨_, [x, y], rest, rfl, encodes_three h3 hx.1 hx.2⟩
      · exact .inl ⟨by omega, by simp [decode, h1, h3, h4, hx]⟩
  by_cases h4 : 0xF0 ≤ b.toNat ∧ b.toNat < 0xF5
  · have h5 : ¬ b.toNat < 0xE0 := by omega
    have h6 : ¬ b.toNat < 0xF0 := by omega
    match s with
    | [] | [_] | [_, _] => exact .inl ⟨by omega, by simp [decode, h1, h5, h6]⟩
    | x :: y :: z :: rest =>
      by_cases hx : (tail x (if b.toNat = 0xF0 then 0x90 else 0x80)
          (if b.toNat = 0xF4 then 0x8F else 0xBF) = true ∧ tail y 0x80 0xBF = true) ∧
          tail z 0x80 0xBF = true
      · exact .inr ⟨_, [x, y, z], rest, rfl, encodes_four h4 hx.1.1 hx.1.2 hx.2⟩
      · exact .inl ⟨by omega, by simp [decode, h1, h4, h5, h6, hx]⟩
  · exact .inl ⟨by omega, by simp [decode, h1, h2, h3, h4]⟩

theorem ofBytes_ascii {b : UInt8} (hb : b.toNat < 0x80) (s : Bytes) :
    ofBytes (b :: s) = ascii b :: ofBytes s := by
  have hd : decode b s = (Char.ofNat b.toNat, 0) := by simp [decode, hb]
  rw [ofBytes_cons, hd]
  rfl

theorem ofBytes_invalid {b : UInt8} {s : Bytes} (hd : decode b s = (replacement, 0)) :
    ofBytes (b :: s) = ⟨replacement, [b]⟩ :: ofBytes s := by
  rw [ofBytes_cons, hd]
  rfl

theorem Encodes.ofBytes {b : UInt8} {more : Bytes} {c : Char} (h : Encodes b more c) (s : Bytes) :
    Glyph.ofBytes (b :: more ++ s) = ⟨c, b :: more⟩ :: Glyph.ofBytes s := by
  rw [List.cons_append, ofBytes_cons, h.decode_eq]
  simp

/-- Induction on the characters of a text. -/
@[elab_as_elim]
theorem byGlyphs {motive : Bytes → Prop} (s : Bytes) (nil : motive [])
    (ascii : ∀ (b : UInt8) (s : Bytes), b.toNat < 0x80 → motive s → motive (b :: s))
    (invalid : ∀ (b : UInt8) (s : Bytes), 0x80 ≤ b.toNat → decode b s = (replacement, 0) →
      motive s → motive (b :: s))
    (encoded : ∀ (b : UInt8) (more : Bytes) (c : Char) (s : Bytes), Encodes b more c → motive s →
      motive (b :: more ++ s)) : motive s := by
  generalize hn : s.length = n
  induction n using Nat.strongRecOn generalizing s with
  | ind n ih =>
    subst hn
    match s with
    | [] => exact nil
    | b :: s =>
      rcases decode_cases b s with ⟨hb, -⟩ | ⟨hb, hd⟩ | ⟨c, more, rest, rfl, h⟩
      · exact ascii b s hb (ih s.length (by simp) s rfl)
      · exact invalid b s hb hd (ih s.length (by simp) s rfl)
      · have hlt : rest.length < (b :: (more ++ rest)).length := by
          rw [List.length_cons, List.length_append]
          omega
        exact encoded b more c rest h (ih rest.length hlt rest rfl)

theorem toBytes_ofBytes (s : Bytes) : toBytes (ofBytes s) = s := by
  induction s using byGlyphs with
  | nil => rfl
  | ascii b s hb ih => rw [ofBytes_ascii hb, toBytes, List.flatMap_cons, ← toBytes, ih]; rfl
  | invalid b s _ hd ih => rw [ofBytes_invalid hd, toBytes, List.flatMap_cons, ← toBytes, ih]; rfl
  | encoded b more c s h ih => rw [h.ofBytes, toBytes, List.flatMap_cons, ← toBytes, ih]

theorem toBytes_append (gs hs : List Glyph) : toBytes (gs ++ hs) = toBytes gs ++ toBytes hs :=
  List.flatMap_append

theorem bytes_of_ofBytes_eq {s : Bytes} {gs hs : List Glyph} (h : ofBytes s = gs ++ hs) :
    s = toBytes gs ++ toBytes hs := by
  rw [← toBytes_append, ← h, toBytes_ofBytes]

theorem ofBytes_raw_ne_nil (s : Bytes) : ∀ g ∈ ofBytes s, g.raw ≠ [] := by
  induction s using byGlyphs with
  | nil => simp
  | ascii b s hb ih => rw [ofBytes_ascii hb]; simpa [ascii] using ih
  | invalid b s _ hd ih => rw [ofBytes_invalid hd]; simpa using ih
  | encoded b more c s h ih => rw [h.ofBytes]; simpa using ih

/-- The text is empty or starts with an ASCII byte, so it continues no character before it. -/
def Separate (t : Bytes) : Prop := ∀ x ∈ t.head?, x.toNat < 0x80

theorem eq_append_of_separate {s t more rest : Bytes} (ht : Separate t)
    (hm : ∀ x ∈ more, 0x80 ≤ x.toNat) (h : s ++ t = more ++ rest) :
    ∃ rest', s = more ++ rest' := by
  rcases List.append_eq_append_iff.mp h with ⟨as, hmore, hrest⟩ | ⟨as, hs, -⟩
  · cases as with
    | nil => exact ⟨[], by simpa using hmore.symm⟩
    | cons x as =>
      have hlow := ht x (by simp [hrest])
      have hhigh := hm x (by simp [hmore])
      omega
  · exact ⟨as, hs⟩

/-- A byte stays invalid in front of another text if that one starts with no more bytes beyond
ASCII than the first. -/
theorem decode_invalid_of_prefix {b : UInt8} {s s' : Bytes} (hb : 0x80 ≤ b.toNat)
    (hd : decode b s = (replacement, 0))
    (h : ∀ more rest, (∀ x ∈ more, 0x80 ≤ x.toNat) → s' = more ++ rest → ∃ rest', s = more ++ rest') :
    decode b s' = (replacement, 0) := by
  rcases decode_cases b s' with ⟨hb', -⟩ | ⟨-, hd'⟩ | ⟨c, more, rest, hs, henc⟩
  · omega
  · exact hd'
  · obtain ⟨rest', rfl⟩ := h more rest (fun x hx => henc.bytes_high x (List.mem_cons_of_mem b hx)) hs
    rw [henc.decode_eq] at hd
    exact absurd (List.length_eq_zero_iff.mp (congrArg Prod.snd hd)) henc.more_ne_nil

theorem decode_append_invalid {b : UInt8} {s t : Bytes} (ht : Separate t)
    (hd : decode b s = (replacement, 0)) (hb : 0x80 ≤ b.toNat) :
    decode b (s ++ t) = (replacement, 0) :=
  decode_invalid_of_prefix hb hd fun _ _ hm h => eq_append_of_separate ht hm h

theorem ofBytes_append (s : Bytes) {t : Bytes} (ht : Separate t) :
    ofBytes (s ++ t) = ofBytes s ++ ofBytes t := by
  induction s using byGlyphs with
  | nil => rfl
  | ascii b s hb ih => rw [List.cons_append, ofBytes_ascii hb, ofBytes_ascii hb, ih]; rfl
  | invalid b s hb hd ih =>
    rw [List.cons_append, ofBytes_invalid hd, ofBytes_invalid (decode_append_invalid ht hd hb), ih]
    rfl
  | encoded b more c s h ih => rw [List.append_assoc, h.ofBytes, h.ofBytes, ih]; rfl

/-! ## Encoding anew -/

theorem ofChar_ascii {b : UInt8} (hb : b.toNat < 0x80) : Bytes.ofChar (ascii b).char = [b] := by
  have hc := toNat_ascii hb
  rw [Bytes.ofChar_ascii (by omega), hc, UInt8.ofNat_toNat]

theorem encode_ofBytes_ascii {b : UInt8} (hb : b.toNat < 0x80) (s : Bytes) :
    encode (ofBytes (b :: s)) = b :: encode (ofBytes s) := by
  rw [ofBytes_ascii hb, encode, List.flatMap_cons, ofChar_ascii hb]
  rfl

theorem encode_ofBytes_invalid {b : UInt8} {s : Bytes} (hd : decode b s = (replacement, 0)) :
    encode (ofBytes (b :: s)) = Bytes.ofChar replacement ++ encode (ofBytes s) := by
  rw [ofBytes_invalid hd]
  rfl

theorem Encodes.encode_ofBytes {b : UInt8} {more : Bytes} {c : Char} (h : Encodes b more c)
    (s : Bytes) : encode (Glyph.ofBytes (b :: more ++ s)) =
      b :: more ++ encode (Glyph.ofBytes s) := by
  rw [h.ofBytes, encode, List.flatMap_cons, h.ofChar_eq]
  rfl

theorem isInvalid_ascii {b : UInt8} (hb : b.toNat < 0x80) : (ascii b).isInvalid = false := by
  have hne : (ascii b).char ≠ replacement := by
    intro h
    have hc := (toNat_ascii hb).symm.trans (congrArg Char.toNat h)
    rw [hc] at hb
    exact absurd hb (by decide)
  simp [isInvalid, hne]

theorem Encodes.isInvalid {b : UInt8} {more : Bytes} {c : Char} (h : Encodes b more c) :
    Glyph.isInvalid ⟨c, b :: more⟩ = false := by
  simp [Glyph.isInvalid, h.more_ne_nil]

/-- The replacement character takes two bytes more than the byte that it replaces. -/
theorem length_encode_ofBytes (s : Bytes) :
    (encode (ofBytes s)).length = s.length + 2 * (ofBytes s).countP isInvalid := by
  induction s using byGlyphs with
  | nil => rfl
  | ascii b s hb ih =>
    rw [encode_ofBytes_ascii hb, ofBytes_ascii hb, List.countP_cons, isInvalid_ascii hb]
    simp
    omega
  | invalid b s _ hd ih =>
    have hinv : isInvalid ⟨replacement, [b]⟩ = true := rfl
    have hlen : (Bytes.ofChar replacement).length = 3 := rfl
    rw [encode_ofBytes_invalid hd, ofBytes_invalid hd, List.countP_cons, hinv, List.length_append,
      hlen]
    simp
    omega
  | encoded b more c s h ih =>
    rw [h.encode_ofBytes, h.ofBytes, List.countP_cons, h.isInvalid]
    simp
    omega

theorem isUtf8_iff (s : Bytes) : s.isUtf8 = true ↔ (ofBytes s).countP isInvalid = 0 := by
  simp [Bytes.isUtf8, List.countP_eq_zero]

theorem encode_ofBytes_of_isUtf8 {s : Bytes} (hs : s.isUtf8 = true) : encode (ofBytes s) = s := by
  rw [isUtf8_iff] at hs
  induction s using byGlyphs with
  | nil => rfl
  | ascii b s hb ih =>
    rw [ofBytes_ascii hb, List.countP_cons, isInvalid_ascii hb] at hs
    rw [encode_ofBytes_ascii hb, ih hs]
  | invalid b s _ hd ih =>
    rw [ofBytes_invalid hd, List.countP_cons] at hs
    simp [isInvalid] at hs
  | encoded b more c s h ih =>
    rw [h.ofBytes, List.countP_cons, h.isInvalid] at hs
    rw [h.encode_ofBytes, ih hs]

/-- Only UTF-8 is left as it is. -/
theorem encode_ofBytes_eq_iff (s : Bytes) : encode (ofBytes s) = s ↔ s.isUtf8 = true := by
  constructor
  · intro h
    have hlen := length_encode_ofBytes s
    rw [h] at hlen
    rw [isUtf8_iff]
    omega
  · exact encode_ofBytes_of_isUtf8

theorem encodes_replacement : Encodes 0xEF [0xBF, 0xBD] replacement :=
  encodes_three (by decide) (by decide) (by decide)

/-- What is encoded anew is UTF-8. -/
theorem isUtf8_encode_ofBytes (s : Bytes) : (encode (ofBytes s)).isUtf8 = true := by
  rw [isUtf8_iff]
  induction s using byGlyphs with
  | nil => rfl
  | ascii b s hb ih =>
    rw [encode_ofBytes_ascii hb, ofBytes_ascii hb, List.countP_cons, isInvalid_ascii hb, ih]
    rfl
  | invalid b s _ hd ih =>
    rw [encode_ofBytes_invalid hd, encodes_replacement.ofChar_eq, encodes_replacement.ofBytes,
      List.countP_cons, encodes_replacement.isInvalid, ih]
    rfl
  | encoded b more c s h ih =>
    rw [h.encode_ofBytes, h.ofBytes, List.countP_cons, h.isInvalid, ih]
    rfl

end SmallLisp.Glyph
