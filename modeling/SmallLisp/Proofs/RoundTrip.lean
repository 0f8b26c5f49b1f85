import SmallLisp.Proofs.Grammar
import SmallLisp.Term.Printer

/-! Writing a term and reading it back. Whole numbers, UTF-8 strings, names that can be read and
lists of such terms come back as they were. The scanner is followed through the text of a term up
to the byte that must follow it, and leaves the tokens of a phrase for the term behind. -/
namespace SmallLisp

/-! ## Whole numbers -/

theorem sign_ofNat (n : Nat) : Literal.sign (Bytes.ofNat n) = (false, Bytes.ofNat n) := by
  refine Literal.sign.eq_3 _ (fun s h => ?_) (fun s h => ?_)
  · have hd := Bytes.ofNat_digits (n := n) (b := 43) (by simp [h])
    exact absurd hd (by decide)
  · have hd := Bytes.ofNat_digits (n := n) (b := 45) (by simp [h])
    exact absurd hd (by decide)

theorem int?_ofInt (n : Int64) : Literal.int? (Bytes.ofInt n.toInt) = some n := by
  have hn : Int64.ofInt n.toInt = n := Int64.ofInt_toInt n
  have hlo := n.le_toInt
  have hhi := n.toInt_lt
  cases h : n.toInt with
  | ofNat m =>
    have hm : m < Nat.pow 2 63 := by rw [h] at hhi; simp at hhi ⊢; omega
    rw [h] at hn
    simp only [Bytes.ofInt, Literal.int?, sign_ofNat, Literal.whole?_ofNat, Option.bind_some,
      if_pos hm]
    exact congrArg some hn
  | negSucc m =>
    have hm : m + 1 ≤ Nat.pow 2 63 := by rw [h] at hlo; simp at hlo ⊢; omega
    rw [h] at hn
    simp only [Bytes.ofInt, Literal.int?, Literal.sign, Literal.whole?_ofNat, Option.bind_some,
      if_pos hm]
    exact congrArg some hn

/-- The bytes of a whole number are digits and perhaps a sign. -/
theorem ofInt_bytes {i : Int} {b : UInt8} (h : b ∈ Bytes.ofInt i) :
    b = 45 ∨ 48 ≤ b.toNat ∧ b.toNat ≤ 57 := by
  cases i with
  | ofNat n => exact .inr (Bytes.ofNat_digits h)
  | negSucc n =>
    rcases List.mem_cons.mp h with rfl | h
    · exact .inl rfl
    · exact .inr (Bytes.ofNat_digits h)

theorem number?_ofInt (n : Int64) : Literal.number? (Bytes.ofInt n.toInt) = some (.int n) := by
  have hpoint : (Bytes.ofInt n.toInt).contains 46 = false := by
    rw [List.contains_eq_mem, decide_eq_false_iff_not]
    intro h
    exact absurd (ofInt_bytes h) (by decide)
  rw [Literal.number?, hpoint, int?_ofInt]
  rfl

/-! ## The scanner between lexemes -/

namespace Scanner

/-- These are the tokens, the latest first, if no further character belongs to the last one. -/
inductive Ready : Scanner → List Token → Prop
  | blank (here : Place) (tokens : List Token) : Ready ⟨.blank, here, tokens⟩ tokens
  | run {start : Place} {seen : List Glyph} {l : Lexeme} (h : Lexeme.ofRun seen.reverse = .ok l)
      (here : Place) (tokens : List Token) :
      Ready ⟨.run start seen, here, tokens⟩ (⟨l, start.pos⟩ :: tokens)

theorem Ready.finish {s : Scanner} {tokens : List Token} (h : s.Ready tokens) :
    s.finish = .ok tokens.reverse := by
  cases h with
  | blank => rfl
  | run h => simp [Scanner.finish, endRun, h, emit, Except.map]

theorem Ready.step {s : Scanner} {tokens : List Token} (h : s.Ready tokens) {g : Glyph}
    (hg : isSymbolChar g.char = false) :
    s.step g = stepBlank ⟨.blank, s.here, tokens⟩ g := by
  cases h with
  | blank => rfl
  | run h => simp [Scanner.step, endRun, h, emit, hg, Except.bind]

theorem steps_run {gs : List Glyph} (h : ∀ g ∈ gs, isSymbolChar g.char = true) (start : Place)
    (seen : List Glyph) (here : Place) (tokens : List Token) :
    ∃ here', gs.foldlM Scanner.step ⟨.run start seen, here, tokens⟩ =
      .ok ⟨.run start (gs.reverse ++ seen), here', tokens⟩ := by
  induction gs generalizing seen here with
  | nil => exact ⟨here, rfl⟩
  | cons g gs ih =>
    have hg : Scanner.step ⟨.run start seen, here, tokens⟩ g =
        .ok ⟨.run start (g :: seen), here.next g, tokens⟩ := by
      simp [Scanner.step, h g List.mem_cons_self, move]
    obtain ⟨here', hgs⟩ := ih (fun g hg => h g (List.mem_cons_of_mem _ hg)) (g :: seen) _
    refine ⟨here', ?_⟩
    rw [foldlM_cons_of_ok hg, hgs, List.reverse_cons, List.append_assoc]
    rfl

theorem stepBlank_symbolChar {g : Glyph} (h : isSymbolChar g.char = true) (here : Place)
    (tokens : List Token) :
    Scanner.step ⟨.blank, here, tokens⟩ g = .ok ⟨.run here [g], here.next g, tokens⟩ := by
  have hd := h
  simp only [isSymbolChar, isDelimiter, Bool.and_eq_true, Bool.not_eq_true', Bool.or_eq_false_iff,
    beq_eq_false_iff_ne] at hd
  simp [step, stepBlank, hd, h, move]

/-- A run of symbol characters is ready to be the lexeme that it is. -/
theorem steps_word {gs : List Glyph} (hne : gs ≠ []) (h : ∀ g ∈ gs, isSymbolChar g.char = true)
    {l : Lexeme} (hl : Lexeme.ofRun gs = .ok l) (here : Place) (tokens : List Token) :
    ∃ s, gs.foldlM Scanner.step ⟨.blank, here, tokens⟩ = .ok s ∧
      s.Ready (⟨l, here.pos⟩ :: tokens) := by
  obtain ⟨g, gs, rfl⟩ := List.exists_cons_of_ne_nil hne
  obtain ⟨here', hgs⟩ := steps_run (fun g hg => h g (List.mem_cons_of_mem _ hg)) here [g]
    (here.next g) tokens
  refine ⟨⟨.run here (gs.reverse ++ [g]), here', tokens⟩, ?_, .run ?_ here' tokens⟩
  · rw [foldlM_cons_of_ok (stepBlank_symbolChar (h g List.mem_cons_self) here tokens), hgs]
  · simpa using hl

/-! ## Strings -/

theorem steps_ascii {b : UInt8} (hb : b.toNat < 0x80) {s s' : Scanner}
    (h : s.step (Glyph.ascii b) = .ok s') (t : Bytes) :
    (Glyph.ofBytes (b :: t)).foldlM step s = (Glyph.ofBytes t).foldlM step s' := by
  rw [Glyph.ofBytes_ascii hb, foldlM_cons_of_ok h]

theorem hexDigit_ascii {n : Nat} (hn : n < 16) : (Bytes.hexDigit n).toNat < 0x80 := by
  have h : ∀ m : Fin 16, (Bytes.hexDigit m).toNat < 0x80 := by decide
  exact h ⟨n, hn⟩

theorem hexValue?_hexDigit {n : Nat} (hn : n < 16) :
    hexValue? (Glyph.ascii (Bytes.hexDigit n)).char = some n := by
  have h : ∀ m : Fin 16, hexValue? (Glyph.ascii (Bytes.hexDigit m)).char = some m.val := by decide
  exact h ⟨n, hn⟩

section

variable (start : Place) (seen : Bytes) (here : Place) (tokens : List Token) (t : Bytes)

theorem step_hexHigh {g : Glyph} {n : Nat} (h : hexValue? g.char = some n) (esc : Place) :
    step ⟨.hexHigh start seen esc, here, tokens⟩ g =
      .ok ⟨.hexLow start seen esc n, here.next g, tokens⟩ := by
  simp [step, h, move]

theorem step_hexLow {g : Glyph} {n : Nat} (h : hexValue? g.char = some n) (esc : Place)
    (high : Nat) :
    step ⟨.hexLow start seen esc high, here, tokens⟩ g =
      .ok ⟨.string start (UInt8.ofNat (16 * high + n) :: seen), here.next g, tokens⟩ := by
  simp [step, h, move]

theorem steps_hexDigits {m n : Nat} (hm : m < 16) (hn : n < 16) (esc : Place) :
    ∃ here', (Glyph.ofBytes (Bytes.hexDigit m :: Bytes.hexDigit n :: t)).foldlM step
        ⟨.hexHigh start seen esc, here, tokens⟩ =
      (Glyph.ofBytes t).foldlM step
        ⟨.string start (UInt8.ofNat (16 * m + n) :: seen), here', tokens⟩ := by
  have hhigh := step_hexHigh start seen here tokens (hexValue?_hexDigit hm) esc
  have hlow := step_hexLow start seen (here.next (Glyph.ascii (Bytes.hexDigit m))) tokens
    (hexValue?_hexDigit hn) esc m
  exact ⟨_, (steps_ascii (hexDigit_ascii hm) hhigh _).trans
    (steps_ascii (hexDigit_ascii hn) hlow t)⟩

theorem steps_hex (b : UInt8) :
    ∃ here', (Glyph.ofBytes (92 :: 120 :: Bytes.hex 2 b.toNat ++ t)).foldlM step
        ⟨.string start seen, here, tokens⟩ =
      (Glyph.ofBytes t).foldlM step ⟨.string start (b :: seen), here', tokens⟩ := by
  have hhi : b.toNat / 16 % 16 < 16 := Nat.mod_lt _ (by decide)
  have hlo : b.toNat % 16 < 16 := Nat.mod_lt _ (by decide)
  have hb : UInt8.ofNat (16 * (b.toNat / 16 % 16) + b.toNat % 16) = b :=
    Glyph.uint8_ofNat_eq (by have := b.toNat_lt; omega)
  have hhex : Bytes.hex 2 b.toNat =
      [Bytes.hexDigit (b.toNat / 16 % 16), Bytes.hexDigit (b.toNat % 16)] := rfl
  obtain ⟨here', h⟩ := steps_hexDigits start seen
    ((here.next (Glyph.ascii 92)).next (Glyph.ascii 120)) tokens t hhi hlo here
  rw [hb] at h
  rw [hhex]
  exact ⟨here', (steps_ascii (by decide) rfl _).trans ((steps_ascii (by decide) rfl _).trans h)⟩

/-- A character that needs no escape. -/
theorem steps_plain {b : UInt8} (hb : b.toNat < 0x80) (hq : b ≠ 34) (he : b ≠ 92) :
    ∃ here', (Glyph.ofBytes (b :: t)).foldlM step ⟨.string start seen, here, tokens⟩ =
      (Glyph.ofBytes t).foldlM step ⟨.string start (b :: seen), here', tokens⟩ := by
  have hc := Glyph.toNat_ascii hb
  have hq' : (Glyph.ascii b).char ≠ '"' := fun h =>
    hq (UInt8.toNat_inj.mp (hc.symm.trans (congrArg Char.toNat h)))
  have he' : (Glyph.ascii b).char ≠ '\\' := fun h =>
    he (UInt8.toNat_inj.mp (hc.symm.trans (congrArg Char.toNat h)))
  refine ⟨here.next (Glyph.ascii b), steps_ascii hb ?_ t⟩
  simp [step, move, hq', he', Glyph.ofChar_ascii hb]

/-- A byte of a string is what its escape stands for. -/
theorem steps_escapeByte {b : UInt8} (hb : b.toNat < 0x80) :
    ∃ here', (Glyph.ofBytes (StringLiteral.escapeByte b ++ t)).foldlM step
        ⟨.string start seen, here, tokens⟩ =
      (Glyph.ofBytes t).foldlM step ⟨.string start (b :: seen), here', tokens⟩ := by
  by_cases hn : b = 34 ∨ b = 92 ∨ b = 10 ∨ b = 9
  · rcases hn with rfl | rfl | rfl | rfl
    all_goals exact ⟨_, (steps_ascii (by decide) rfl _).trans (steps_ascii (by decide) rfl t)⟩
  obtain ⟨hq, he, hl, ht⟩ : b ≠ 34 ∧ b ≠ 92 ∧ b ≠ 10 ∧ b ≠ 9 := by simpa using hn
  simp only [StringLiteral.escapeByte, beq_iff_eq, hq, he, hl, ht, if_false]
  split
  · exact steps_hex start seen here tokens t b
  · exact steps_plain start seen here tokens t hb hq he

theorem steps_encoded {b : UInt8} {more : Bytes} {c : Char} (h : Glyph.Encodes b more c) :
    (Glyph.ofBytes (b :: more ++ t)).foldlM step ⟨.string start seen, here, tokens⟩ =
      (Glyph.ofBytes t).foldlM step
        ⟨.string start ((b :: more).reverse ++ seen), here.next ⟨c, b :: more⟩, tokens⟩ := by
  have hq : c ≠ '"' := by
    rintro rfl
    exact absurd h.high (by decide)
  have he : c ≠ '\\' := by
    rintro rfl
    exact absurd h.high (by decide)
  have hstep : step ⟨.string start seen, here, tokens⟩ ⟨c, b :: more⟩ =
      .ok ⟨.string start ((b :: more).reverse ++ seen), here.next ⟨c, b :: more⟩, tokens⟩ := by
    simp [step, move, hq, he, h.ofChar_eq]
  rw [h.ofBytes, foldlM_cons_of_ok hstep]

end

theorem escapeByte_high {b : UInt8} (hb : 0x80 ≤ b.toNat) : StringLiteral.escapeByte b = [b] := by
  have hne : ∀ x : UInt8, x.toNat < 0x80 → b ≠ x := fun _ => Bytes.ne_of_high hb
  have hlt : ¬ b < 0x20 := by
    rw [UInt8.lt_iff_toNat_lt]
    exact Nat.not_lt.mpr (Nat.le_trans (by decide) hb)
  simp [StringLiteral.escapeByte, hne 34 (by decide), hne 92 (by decide), hne 10 (by decide),
    hne 9 (by decide), hne 0x7F (by decide), hlt]

theorem flatMap_escapeByte_high {s : Bytes} (h : ∀ x ∈ s, 0x80 ≤ x.toNat) :
    s.flatMap StringLiteral.escapeByte = s := by
  induction s with
  | nil => rfl
  | cons b s ih =>
    have hs := ih (fun x hx => h x (List.mem_cons_of_mem _ hx))
    rw [List.flatMap_cons, escapeByte_high (h b List.mem_cons_self), hs]
    rfl

theorem escapeByte_low {b : UInt8} (hb : b.toNat < 0x80) :
    ∃ x xs, StringLiteral.escapeByte b = x :: xs ∧ x.toNat < 0x80 := by
  simp only [StringLiteral.escapeByte]
  repeat' split
  case isFalse.isFalse.isFalse.isFalse.isFalse => exact ⟨b, [], rfl, hb⟩
  all_goals exact ⟨92, _, rfl, by decide⟩

/-- The bytes beyond ASCII at the front of what is written are those of the contents. -/
theorem eq_append_of_escaped {s t more rest : Bytes} (ht : Glyph.Separate t)
    (hm : ∀ x ∈ more, 0x80 ≤ x.toNat)
    (h : s.flatMap StringLiteral.escapeByte ++ t = more ++ rest) : ∃ rest', s = more ++ rest' := by
  induction more generalizing s with
  | nil => exact ⟨s, rfl⟩
  | cons x more ih =>
    have hx := hm x List.mem_cons_self
    cases s with
    | nil =>
      rw [List.flatMap_nil, List.nil_append] at h
      have hlow := ht x (by simp [h])
      omega
    | cons b s =>
      rw [List.flatMap_cons, List.append_assoc, List.cons_append] at h
      rcases Nat.lt_or_ge b.toNat 0x80 with hb | hb
      · obtain ⟨y, ys, hy, hlow⟩ := escapeByte_low hb
        rw [hy, List.cons_append] at h
        obtain rfl : y = x := (List.cons.inj h).1
        omega
      · rw [escapeByte_high hb, List.singleton_append] at h
        obtain ⟨rfl, hrest⟩ := List.cons.inj h
        obtain ⟨rest', rfl⟩ := ih (fun x hx => hm x (List.mem_cons_of_mem _ hx)) hrest
        exact ⟨rest', rfl⟩

/-- A byte that begins no character of the contents begins none of what is written. -/
theorem decode_escaped_invalid {b : UInt8} {s t : Bytes} (ht : Glyph.Separate t)
    (hb : 0x80 ≤ b.toNat) (hd : Glyph.decode b s = (Glyph.replacement, 0)) :
    Glyph.decode b (s.flatMap StringLiteral.escapeByte ++ t) = (Glyph.replacement, 0) :=
  Glyph.decode_invalid_of_prefix hb hd fun _ _ hm h => eq_append_of_escaped ht hm h

/-- The contents of a string are scanned with their characters encoded anew. -/
theorem steps_contents (s : Bytes) (start : Place) (seen : Bytes) (here : Place)
    (tokens : List Token) {t : Bytes} (ht : Glyph.Separate t) :
    ∃ here', (Glyph.ofBytes (s.flatMap StringLiteral.escapeByte ++ t)).foldlM step
        ⟨.string start seen, here, tokens⟩ =
      (Glyph.ofBytes t).foldlM step
        ⟨.string start ((Glyph.encode (Glyph.ofBytes s)).reverse ++ seen), here', tokens⟩ := by
  induction s using Glyph.byGlyphs generalizing seen here with
  | nil => exact ⟨here, rfl⟩
  | ascii b s hb ih =>
    obtain ⟨here₁, h₁⟩ := steps_escapeByte start seen here tokens
      (s.flatMap StringLiteral.escapeByte ++ t) hb
    obtain ⟨here₂, h₂⟩ := ih (b :: seen) here₁
    refine ⟨here₂, ?_⟩
    rw [List.flatMap_cons, List.append_assoc, h₁, h₂, Glyph.encode_ofBytes_ascii hb,
      List.reverse_cons, List.append_assoc]
    rfl
  | invalid b s hb hd ih =>
    have hd' := decode_escaped_invalid ht hb hd
    have hstep : step ⟨.string start seen, here, tokens⟩ ⟨Glyph.replacement, [b]⟩ =
        .ok ⟨.string start ((Bytes.ofChar Glyph.replacement).reverse ++ seen),
          here.next ⟨Glyph.replacement, [b]⟩, tokens⟩ := rfl
    obtain ⟨here', h'⟩ := ih ((Bytes.ofChar Glyph.replacement).reverse ++ seen)
      (here.next ⟨Glyph.replacement, [b]⟩)
    refine ⟨here', ?_⟩
    rw [List.flatMap_cons, escapeByte_high hb, List.append_assoc, List.singleton_append,
      Glyph.ofBytes_invalid hd', foldlM_cons_of_ok hstep, h', Glyph.encode_ofBytes_invalid hd,
      List.reverse_append, List.append_assoc]
  | encoded b more c s h ih =>
    obtain ⟨here', h'⟩ := ih ((b :: more).reverse ++ seen) (here.next ⟨c, b :: more⟩)
    refine ⟨here', ?_⟩
    rw [List.flatMap_append, flatMap_escapeByte_high h.bytes_high, List.append_assoc,
      steps_encoded start seen here tokens _ h, h', h.encode_ofBytes, List.reverse_append,
      List.append_assoc]

theorem steps_string (s : Bytes) (here : Place) (tokens : List Token) :
    ∃ s', (Glyph.ofBytes (StringLiteral.render s)).foldlM step ⟨.blank, here, tokens⟩ = .ok s' ∧
      s'.Ready (⟨.string (Glyph.encode (Glyph.ofBytes s)), here.pos⟩ :: tokens) := by
  obtain ⟨here', h⟩ := steps_contents s here [] (here.next (Glyph.ascii 34)) tokens
    (t := [34]) (by simp [Glyph.Separate])
  rw [List.append_nil] at h
  have hopen : step ⟨.blank, here, tokens⟩ (Glyph.ascii 34) =
      .ok ⟨.string here [], here.next (Glyph.ascii 34), tokens⟩ := rfl
  have hclose : ∀ seen : Bytes, step ⟨.string here seen.reverse, here', tokens⟩ (Glyph.ascii 34) =
      .ok ⟨.blank, here'.next (Glyph.ascii 34), ⟨.string seen, here.pos⟩ :: tokens⟩ := by
    intro seen
    have hchar : (Glyph.ascii 34).char = '"' := rfl
    simp [step, emit, move, hchar]
  refine ⟨_, ?_, .blank (here'.next (Glyph.ascii 34)) _⟩
  rw [StringLiteral.render, List.cons_append, steps_ascii (by decide) hopen, h,
    steps_ascii (by decide) (hclose _)]
  rfl

end Scanner

/-! ## Terms that can be read back -/

/-- The text consists of symbol characters, at least one. -/
def IsWord (s : Bytes) : Prop := s ≠ [] ∧ ∀ g ∈ Glyph.ofBytes s, isSymbolChar g.char = true

/-- The text starts like a number: with a digit, or with a minus sign and a digit. -/
inductive StartsNumber : List Glyph → Prop
  | digit {g : Glyph} (gs : List Glyph) (h : CharClass.isDigit g.char = true) :
      StartsNumber (g :: gs)
  | minus {g h : Glyph} (gs : List Glyph) (hg : g.char = '-')
      (hh : CharClass.isDigit h.char = true) : StartsNumber (g :: h :: gs)

/-- A word that stands for itself: no number, no mark, no hash, no keyword. -/
structure IsName (s : Bytes) : Prop where
  word : IsWord s
  not_number : ¬ StartsNumber (Glyph.ofBytes s)
  not_marked : ¬ Mark.Starts s
  not_hash : s ≠ [35]
  not_keyword : ∀ b t, s ≠ 58 :: b :: t

inductive Readable : Term → Prop
  | int (n : Int64) : Readable (.int n)
  | string {s : Bytes} (h : s.isUtf8 = true) : Readable (.string s)
  | symbol {name : Bytes} (h : IsName name) : Readable (.symbol name)
  | keyword {name : Bytes} (h : IsWord name) : Readable (.keyword name)
  | list {ts : List Term} (h : ∀ t ∈ ts, Readable t) : Readable (.list ts)

theorem looksNumeric_iff (gs : List Glyph) : looksNumeric gs = true ↔ StartsNumber gs := by
  constructor
  · intro h
    match gs, h with
    | [g], h => exact .digit [] h
    | g :: g' :: gs, h =>
      simp only [looksNumeric, Bool.or_eq_true, Bool.and_eq_true, beq_iff_eq] at h
      rcases h with h | ⟨hg, hh⟩
      · exact .digit _ h
      · exact .minus gs hg hh
  · rintro (⟨gs, h⟩ | ⟨gs, hg, hh⟩)
    · cases gs <;> simp [looksNumeric, h]
    · simp [looksNumeric, hg, hh]

/-- Scanning the text leaves the tokens of a phrase for the term. -/
def ScansAs (text : Bytes) (t : Term) : Prop :=
  ∀ (here : Place) (tokens : List Token), ∃ (x : Phrase) (s : Scanner), x.term = t ∧
    (Glyph.ofBytes text).foldlM Scanner.step ⟨.blank, here, tokens⟩ = .ok s ∧
      s.Ready (x.tokens.reverse ++ tokens)

def Scans (t : Term) : Prop := ScansAs t.render t

/-- Every string is scanned as a string, with its characters encoded anew. -/
theorem scansAs_literal (s : Bytes) :
    ScansAs (StringLiteral.render s) (.string (Glyph.encode (Glyph.ofBytes s))) := by
  intro here tokens
  obtain ⟨s', hsteps, hready⟩ := Scanner.steps_string s here tokens
  exact ⟨.string _ here.pos, s', rfl, hsteps, hready⟩

theorem scans_string {s : Bytes} (h : s.isUtf8 = true) : Scans (.string s) := by
  have hs := scansAs_literal s
  rwa [Glyph.encode_ofBytes_of_isUtf8 h] at hs

theorem ofBytes_ne_nil {s : Bytes} (h : s ≠ []) : Glyph.ofBytes s ≠ [] := by
  intro hs
  have hbytes := Glyph.toBytes_ofBytes s
  rw [hs] at hbytes
  exact h hbytes.symm

theorem ofRun_symbol {s : Bytes} (hn : ¬ StartsNumber (Glyph.ofBytes s)) :
    Lexeme.ofRun (Glyph.ofBytes s) = .ok (.symbol s) := by
  rw [← looksNumeric_iff, Bool.not_eq_true] at hn
  simp [Lexeme.ofRun, hn, Glyph.toBytes_ofBytes]

theorem scans_symbol {name : Bytes} (h : IsName name) : Scans (.symbol name) := by
  intro here tokens
  obtain ⟨s, hsteps, hready⟩ := Scanner.steps_word (ofBytes_ne_nil h.word.1) h.word.2
    (ofRun_symbol h.not_number) here tokens
  exact ⟨.atom ⟨name, [], name, .rest h.not_marked⟩ here.pos h.word.1 h.not_hash _
    (.symbol rfl h.not_keyword), s, rfl, hsteps, hready⟩

theorem scans_keyword {name : Bytes} (h : IsWord name) : Scans (.keyword name) := by
  intro here tokens
  have hgs : Glyph.ofBytes (58 :: name) = Glyph.ascii 58 :: Glyph.ofBytes name :=
    Glyph.ofBytes_ascii (by decide) name
  have hword : ∀ g ∈ Glyph.ofBytes (58 :: name), isSymbolChar g.char = true := by
    rw [hgs, List.forall_mem_cons]
    exact ⟨rfl, h.2⟩
  have hn : ¬ StartsNumber (Glyph.ofBytes (58 :: name)) := by
    rw [hgs, ← looksNumeric_iff, Bool.not_eq_true]
    cases Glyph.ofBytes name <;> rfl
  have hmark : ¬ Mark.Starts (58 :: name) := by simp [Mark.Starts]
  obtain ⟨s, hsteps, hready⟩ := Scanner.steps_word (ofBytes_ne_nil (by simp)) hword
    (ofRun_symbol hn) here tokens
  obtain ⟨b, name, rfl⟩ := List.exists_cons_of_ne_nil h.1
  exact ⟨.atom ⟨58 :: b :: name, [], _, .rest hmark⟩ here.pos (by simp) (by simp) _
    (.keyword b name), s, rfl, hsteps, hready⟩

theorem digit_char {b : UInt8} (h : 48 ≤ b.toNat ∧ b.toNat ≤ 57) :
    isSymbolChar (Glyph.ascii b).char = true ∧ CharClass.isDigit (Glyph.ascii b).char = true := by
  have hall : ∀ m : Fin 10, isSymbolChar (Char.ofNat (48 + m)) = true ∧
      CharClass.isDigit (Char.ofNat (48 + m)) = true := by decide
  have hb : b.toNat = 48 + (b.toNat - 48) := by omega
  rw [Glyph.ascii, hb]
  exact hall ⟨b.toNat - 48, by omega⟩

theorem ofInt_startsNumber (i : Int) : StartsNumber (Glyph.ofBytes (Bytes.ofInt i)) := by
  have hnat : ∀ n, ∃ b t, Bytes.ofNat n = b :: t ∧ 48 ≤ b.toNat ∧ b.toNat ≤ 57 := by
    intro n
    obtain ⟨b, t, h⟩ := List.exists_cons_of_ne_nil (Bytes.ofNat_ne_nil n)
    exact ⟨b, t, h, Bytes.ofNat_digits (n := n) (by simp [h])⟩
  cases i with
  | ofNat n =>
    obtain ⟨b, t, h, hb⟩ := hnat n
    rw [Bytes.ofInt, h, Glyph.ofBytes_ascii (by omega)]
    exact .digit _ (digit_char hb).2
  | negSucc n =>
    obtain ⟨b, t, h, hb⟩ := hnat (n + 1)
    rw [Bytes.ofInt, h, Glyph.ofBytes_ascii (by decide), Glyph.ofBytes_ascii (by omega)]
    exact .minus _ rfl (digit_char hb).2

theorem mem_ofBytes_ascii {s : Bytes} (h : ∀ b ∈ s, b.toNat < 0x80) {g : Glyph}
    (hg : g ∈ Glyph.ofBytes s) : ∃ b ∈ s, g = Glyph.ascii b := by
  induction s with
  | nil => simp at hg
  | cons b s ih =>
    rw [Glyph.ofBytes_ascii (h b List.mem_cons_self)] at hg
    rcases List.mem_cons.mp hg with rfl | hg
    · exact ⟨b, List.mem_cons_self, rfl⟩
    · obtain ⟨b', hb', rfl⟩ := ih (fun b hb => h b (List.mem_cons_of_mem _ hb)) hg
      exact ⟨b', List.mem_cons_of_mem _ hb', rfl⟩

theorem ofInt_symbolChars (i : Int) :
    ∀ g ∈ Glyph.ofBytes (Bytes.ofInt i), isSymbolChar g.char = true := by
  intro g hg
  have hascii : ∀ b ∈ Bytes.ofInt i, b.toNat < 0x80 := by
    intro b hb
    rcases ofInt_bytes hb with rfl | hb
    · decide
    · omega
  obtain ⟨b, hb, rfl⟩ := mem_ofBytes_ascii hascii hg
  rcases ofInt_bytes hb with rfl | hb
  · rfl
  · exact (digit_char hb).1

theorem scans_int (n : Int64) : Scans (.int n) := by
  intro here tokens
  have hne : Glyph.ofBytes (Bytes.ofInt n.toInt) ≠ [] := by
    intro h
    have hn := ofInt_startsNumber n.toInt
    rw [h] at hn
    cases hn
  have hl : Lexeme.ofRun (Glyph.ofBytes (Bytes.ofInt n.toInt)) =
      .ok (.number (Bytes.ofInt n.toInt) (.int n)) := by
    have hn := (looksNumeric_iff _).mpr (ofInt_startsNumber n.toInt)
    simp [Lexeme.ofRun, hn, Glyph.toBytes_ofBytes, number?_ofInt]
  obtain ⟨s, hsteps, hready⟩ :=
    Scanner.steps_word hne (ofInt_symbolChars n.toInt) hl here tokens
  exact ⟨.number _ (.int n) here.pos, s, rfl, hsteps, hready⟩

/-- A byte that cannot belong to a lexeme ends what is before it. -/
theorem steps_delimiter {a : Bytes} {s s₁ s₂ : Scanner} {tokens : List Token} {b : UInt8}
    (ha : (Glyph.ofBytes a).foldlM Scanner.step s = .ok s₁) (hready : s₁.Ready tokens)
    (hb : b.toNat < 0x80) (hd : isSymbolChar (Glyph.ascii b).char = false)
    (h : Scanner.stepBlank ⟨.blank, s₁.here, tokens⟩ (Glyph.ascii b) = .ok s₂) (t : Bytes) :
    (Glyph.ofBytes (a ++ b :: t)).foldlM Scanner.step s =
      (Glyph.ofBytes t).foldlM Scanner.step s₂ := by
  have hsep : Glyph.Separate (b :: t) := by simpa [Glyph.Separate] using hb
  rw [Glyph.ofBytes_append a hsep, foldlM_append_of_ok ha]
  exact Scanner.steps_ascii hb ((hready.step hd).trans h) t

/-- Texts with spaces between them are the terms that they are one by one. -/
theorem scans_elements {parts : List (Bytes × Term)} (h : ∀ p ∈ parts, ScansAs p.1 p.2)
    (here : Place) (tokens : List Token) :
    ∃ (xs : Phrases) (s : Scanner), xs.terms = parts.map Prod.snd ∧
      (Glyph.ofBytes (Bytes.join [32] (parts.map Prod.fst))).foldlM Scanner.step
        ⟨.blank, here, tokens⟩ = .ok s ∧ s.Ready (xs.tokens.reverse ++ tokens) := by
  induction parts generalizing here tokens with
  | nil => exact ⟨.nil, _, rfl, rfl, .blank here tokens⟩
  | cons p parts ih =>
    obtain ⟨x, s, hx, hsteps, hready⟩ := h p List.mem_cons_self here tokens
    cases parts with
    | nil =>
      refine ⟨.cons x .nil, s, by rw [Phrases.terms, hx]; rfl, hsteps, ?_⟩
      simpa [Phrases.tokens] using hready
    | cons p' parts =>
      obtain ⟨xs, s', hterms, hsteps', hready'⟩ := ih (fun p hp => h p (List.mem_cons_of_mem _ hp))
        (s.here.next (Glyph.ascii 32)) (x.tokens.reverse ++ tokens)
      refine ⟨.cons x xs, s', by rw [Phrases.terms, hx, hterms]; rfl, ?_, ?_⟩
      · have hspace := steps_delimiter hsteps hready (b := 32) (by decide) rfl rfl
          (Bytes.join [32] ((p' :: parts).map Prod.fst))
        have hjoin : Bytes.join [32] ((p :: p' :: parts).map Prod.fst) =
            p.1 ++ 32 :: Bytes.join [32] ((p' :: parts).map Prod.fst) := by
          simp [Bytes.join]
        rw [hjoin]
        exact hspace.trans hsteps'
      · rwa [Phrases.tokens, List.reverse_append, List.append_assoc]

/-- Texts in brackets are a group of the terms that they are. -/
theorem scans_group {b : Bracket} {o c : UInt8} (ho : o.toNat < 0x80) (hc : c.toNat < 0x80)
    (hd : isSymbolChar (Glyph.ascii c).char = false)
    (hopen : ∀ here tokens, Scanner.step ⟨.blank, here, tokens⟩ (Glyph.ascii o) =
      .ok ⟨.blank, here.next (Glyph.ascii o), ⟨.opening b, here.pos⟩ :: tokens⟩)
    (hclose : ∀ here tokens, Scanner.stepBlank ⟨.blank, here, tokens⟩ (Glyph.ascii c) =
      .ok ⟨.blank, here.next (Glyph.ascii c), ⟨.closing b, here.pos⟩ :: tokens⟩)
    {parts : List (Bytes × Term)} (h : ∀ p ∈ parts, ScansAs p.1 p.2) :
    ScansAs (o :: Bytes.join [32] (parts.map Prod.fst) ++ [c])
      (b.group.build (parts.map Prod.snd)) := by
  intro here tokens
  obtain ⟨xs, s, hxs, hsteps, hready⟩ := scans_elements h (here.next (Glyph.ascii o))
    (⟨.opening b, here.pos⟩ :: tokens)
  have hend := steps_delimiter hsteps hready hc hd (hclose s.here _) []
  refine ⟨.group b here.pos xs s.here.pos, _, by rw [Phrase.term, hxs], ?_,
    .blank (s.here.next (Glyph.ascii c)) _⟩
  rw [List.cons_append, Scanner.steps_ascii ho (hopen here tokens), hend]
  simp [Phrase.tokens]
  rfl

theorem renderAll_eq (ts : List Term) : renderAll ts = ts.map Term.render := by
  induction ts with
  | nil => rfl
  | cons t ts ih => rw [renderAll, ih, List.map_cons]

theorem scans_list {ts : List Term} (h : ∀ t ∈ ts, Scans t) : Scans (.list ts) := by
  let parts := ts.map fun t => (t.render, t)
  have hparts : ∀ p ∈ parts, ScansAs p.1 p.2 := by
    intro p hp
    obtain ⟨t, ht, rfl⟩ := List.mem_map.mp hp
    exact h t ht
  have hgroup := scans_group (b := .round) (o := 40) (c := 41) (by decide) (by decide) rfl
    (fun _ _ => rfl) (fun _ _ => rfl) hparts
  have htexts : parts.map Prod.fst = renderAll ts := by
    rw [renderAll_eq, List.map_map]
    rfl
  have hterms : parts.map Prod.snd = ts := by
    rw [List.map_map]
    exact List.map_id ts
  rw [htexts, hterms] at hgroup
  exact hgroup

theorem Readable.scans {t : Term} (h : Readable t) : Scans t := by
  induction h with
  | int n => exact scans_int n
  | string h => exact scans_string h
  | symbol h => exact scans_symbol h
  | keyword h => exact scans_keyword h
  | list _ ih => exact scans_list ih

/-! ## The first term -/

namespace Reader

theorem put_terms (stack : List Pending) (terms : List Term) (t : Term) :
    terms <:+ (put stack terms t).terms := by
  induction stack generalizing t with
  | nil => exact List.suffix_cons t terms
  | cons p stack ih => cases p with
    | group g seen => exact List.suffix_refl terms
    | mark m => exact ih (m.apply t)
    | hash => exact List.suffix_cons t terms

theorem feedSymbol_terms {r r' : Reader} {text : Bytes} {pos : Position}
    (h : r.feedSymbol text pos = .ok r') : r.terms <:+ r'.terms := by
  simp only [feedSymbol] at h
  split at h
  · obtain rfl := Except.ok.inj h
    exact List.suffix_refl _
  split at h
  · obtain rfl := Except.ok.inj h
    exact List.suffix_refl _
  split at h
  · split at h
    · obtain rfl := Except.ok.inj h
      exact put_terms ..
    · cases h
  · obtain rfl := Except.ok.inj h
    exact put_terms ..

theorem feedClosing_terms {r r' : Reader} {b : Bracket} {pos : Position}
    (h : r.feedClosing b pos = .ok r') : r.terms <:+ r'.terms := by
  unfold feedClosing at h
  split at h
  · split at h
    · obtain rfl := Except.ok.inj h
      exact put_terms ..
    · cases h
  · cases h

/-- Complete terms stay. -/
theorem feed_terms {r r' : Reader} {t : Token} (h : r.feed t = .ok r') : r.terms <:+ r'.terms := by
  unfold feed at h
  split at h
  case h_1 | h_3 | h_4 =>
    obtain rfl := Except.ok.inj h
    exact List.suffix_refl _
  case h_2 => cases h
  case h_5 => exact feedClosing_terms h
  case h_6 | h_7 =>
    obtain rfl := Except.ok.inj h
    exact put_terms ..
  case h_8 => exact feedSymbol_terms h

theorem feeds_terms {r r' : Reader} {ts : List Token} (h : ts.foldlM feed r = .ok r') :
    r.terms <:+ r'.terms := by
  induction ts generalizing r with
  | nil =>
    obtain rfl := Except.ok.inj h
    exact List.suffix_refl _
  | cons t ts ih =>
    obtain ⟨r₁, ht, h⟩ := foldlM_cons_ok h
    exact (feed_terms ht).trans (ih h)

end Reader

/-- The term that is complete first is the only one, if there is only one in the end. -/
theorem readFirst_of_feeds {ts : List Token} {r r' : Reader} {t : Term} (hr : r.terms = [])
    (h : ts.foldlM Reader.feed r = .ok r') (ht : r'.terms = [t]) :
    readFirst r ts = .ok (some t) := by
  induction ts generalizing r with
  | nil =>
    obtain rfl := Except.ok.inj h
    exact absurd (hr.symm.trans ht) (by simp)
  | cons token ts ih =>
    obtain ⟨r₁, hf, h⟩ := foldlM_cons_ok h
    cases hr₁ : r₁.terms with
    | nil => rw [readFirst_goesOn hf hr₁, ih hr₁ h]
    | cons first rest =>
      have hsuffix := Reader.feeds_terms h
      rw [hr₁, ht] at hsuffix
      obtain ⟨rfl, rfl⟩ : first = t ∧ rest = [] := by
        simpa using hsuffix.eq_of_length_le (by simp)
      exact readFirst_ends hf hr₁ ts

theorem tokenize_scanned {text : Bytes} {t : Term} (h : ScansAs text t) :
    ∃ x : Phrase, x.term = t ∧ tokenize text = .ok x.tokens := by
  obtain ⟨x, s, hx, hsteps, hready⟩ := h .start []
  refine ⟨x, hx, ?_⟩
  have hfinish := hready.finish
  rw [List.append_nil, List.reverse_reverse] at hfinish
  rw [tokenize, scan, Scanner.start, hsteps]
  exact congrArg (Except.mapError _) hfinish

/-- A text that scans as a term is read as that. -/
theorem parse_scanned {text : Bytes} {t : Term} (h : ScansAs text t) :
    parse text = .ok [t] ∧ parseFirst text = .ok t := by
  obtain ⟨x, rfl, htokens⟩ := tokenize_scanned h
  have hfeed : x.tokens.foldlM Reader.feed Reader.start = .ok ⟨[], [x.term]⟩ :=
    x.feed (by intro _ h; cases h) []
  exact ⟨parseWith_eq_ok_iff.mpr ⟨_, htokens, readAll_eq_some_iff.mpr hfeed⟩,
    parseWith_eq_ok_iff.mpr ⟨_, htokens, readFirst_of_feeds rfl hfeed rfl⟩⟩

/-- What is written can be read back. -/
theorem read_render {t : Term} (h : Readable t) :
    parse t.render = .ok [t] ∧ parseFirst t.render = .ok t := parse_scanned h.scans

def everyKind : Term :=
  .list [.int Int64.minValue, .string [34, 10, 0, 0xC3, 0xA9], .symbol (Bytes.ofString "-a'"),
    .keyword (Bytes.ofString "1"), .list []]

theorem minus_isName : IsName (Bytes.ofString "-a'") where
  word := ⟨by decide, by decide⟩
  not_number := fun h => absurd ((looksNumeric_iff _).mpr h) (by decide)
  not_marked := by
    rintro (h | h | h)
    all_goals exact absurd h (by decide)
  not_hash := by decide
  not_keyword := by
    intro b t h
    cases h

theorem everyKind_readable : Readable everyKind := by
  refine .list fun t ht => ?_
  simp only [List.mem_cons, List.not_mem_nil, or_false] at ht
  rcases ht with rfl | rfl | rfl | rfl | rfl
  · exact .int _
  · exact .string (by decide)
  · exact .symbol minus_isName
  · exact .keyword ⟨by decide, by decide⟩
  · exact .list (by simp)

theorem everyKind_read_back :
    parse (Bytes.ofString "(-9223372036854775808 \"\\\"\\n\\x00é\" -a' :1 ())") =
        .ok [everyKind] ∧
      parseFirst (Bytes.ofString "(-9223372036854775808 \"\\\"\\n\\x00é\" -a' :1 ())") =
        .ok everyKind := by
  have hrender : everyKind.render =
      Bytes.ofString "(-9223372036854775808 \"\\\"\\n\\x00é\" -a' :1 ())" := rfl
  rw [← hrender]
  exact read_render everyKind_readable

/-! ## Strings of any bytes -/

theorem tokenize_literal (s : Bytes) : tokenize (StringLiteral.render s) =
    .ok [⟨.string (Glyph.encode (Glyph.ofBytes s)), ⟨1, 1⟩⟩] := by
  obtain ⟨s', hsteps, hready⟩ := Scanner.steps_string s .start []
  rw [tokenize, scan, Scanner.start, hsteps]
  exact congrArg (Except.mapError _) hready.finish

/-- Every string is written as the literal of one string, which has the replacement character for
each byte that belongs to no character. So a string is read back exactly if it is UTF-8, and what
is read back is read back unchanged from then on. -/
theorem string_read_back (s : Bytes) :
    ∃ s', tokenize (Term.string s).render = .ok [⟨.string s', ⟨1, 1⟩⟩] ∧
      parse (Term.string s).render = .ok [.string s'] ∧
      parseFirst (Term.string s).render = .ok (.string s') ∧
      (s' = s ↔ s.isUtf8 = true) ∧
      s'.length = s.length + 2 * (Glyph.ofBytes s).countP Glyph.isInvalid ∧
      parseFirst (Term.string s').render = .ok (.string s') := by
  have hread := parse_scanned (scansAs_literal s)
  have hutf8 := Glyph.isUtf8_encode_ofBytes s
  exact ⟨Glyph.encode (Glyph.ofBytes s), tokenize_literal s, hread.1, hread.2,
    Glyph.encode_ofBytes_eq_iff s, Glyph.length_encode_ofBytes s,
    (parse_scanned (scans_string hutf8)).2⟩

/-- A string of one byte that begins no character is read back as the three bytes of the
replacement character. -/
theorem lone_byte_replaced :
    tokenize (Term.string [0xFF]).render = .ok [⟨.string [0xEF, 0xBF, 0xBD], ⟨1, 1⟩⟩] ∧
      parseFirst (Term.string [0xFF]).render = .ok (.string [0xEF, 0xBF, 0xBD]) ∧
      ([0xEF, 0xBF, 0xBD] : Bytes) ≠ [0xFF] :=
  ⟨tokenize_literal [0xFF], (parse_scanned (scansAs_literal [0xFF])).2, by decide⟩

end SmallLisp
