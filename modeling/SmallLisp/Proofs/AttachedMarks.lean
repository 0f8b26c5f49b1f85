import SmallLisp.Proofs.RoundTrip

/-! Marks with and without a blank behind them. What follows an attached mark is taken for a number
by its first bytes, and what stands alone by its first characters. The two agree but for digits
beyond ASCII (`startsNumber_iff`), so a mark may be set apart with the same outcome exactly
if no such digit begins the text (`mark_apart_iff`). -/
namespace SmallLisp

/-! ## The two tests for a number -/

def unsigned : Bytes → Bytes
  | 45 :: s => s
  | s => s

/-- Behind a minus sign, if there is one, the text starts with a digit beyond ASCII. -/
def StartsForeign (s : Bytes) : Prop :=
  ∃ g ∈ (Glyph.ofBytes (unsigned s)).head?, CharClass.isDigit g.char = true ∧ 0x80 ≤ g.char.toNat

theorem unsigned_cons {b : UInt8} (h : b ≠ 45) (s : Bytes) : unsigned (b :: s) = b :: s :=
  unsigned.eq_2 _ fun _ hs => h (List.cons.inj hs).1

theorem isDigit_ascii {b : UInt8} (hb : b.toNat < 0x80) :
    CharClass.isDigit (Glyph.ascii b).char = (Literal.digit? 10 b).isSome := by
  have hc := Glyph.toNat_ascii hb
  simp only [CharClass.isDigit, hc, Literal.digit?]
  rw [if_pos hb]
  split <;> simp_all

/-- The first character is the first byte, or both lie beyond ASCII. -/
theorem head_ofBytes (b : UInt8) (s : Bytes) :
    (b.toNat < 0x80 ∧ Glyph.ofBytes (b :: s) = Glyph.ascii b :: Glyph.ofBytes s) ∨
      (0x80 ≤ b.toNat ∧ ∃ g gs, Glyph.ofBytes (b :: s) = g :: gs ∧ 0x80 ≤ g.char.toNat) := by
  rcases Glyph.decode_cases b s with ⟨hb, -⟩ | ⟨hb, hd⟩ | ⟨c, more, rest, rfl, h⟩
  · exact .inl ⟨hb, Glyph.ofBytes_ascii hb s⟩
  · have hhigh : 0x80 ≤ Glyph.replacement.toNat := by decide
    exact .inr ⟨hb, _, _, Glyph.ofBytes_invalid hd, hhigh⟩
  · exact .inr ⟨h.bytes_high b List.mem_cons_self, _, _, h.ofBytes rest, h.high⟩

theorem looksNumeric_bytes_iff (s : Bytes) : Reader.looksNumeric s = true ↔
    ∃ b ∈ (unsigned s).head?, (Literal.digit? 10 b).isSome = true := by
  have hminus : Literal.digit? 10 45 = none := rfl
  match s with
  | [] => simp [Reader.looksNumeric, unsigned]
  | [b] =>
    by_cases hb : b = 45
    · subst hb
      simp [Reader.looksNumeric, unsigned, hminus]
    · simp [Reader.looksNumeric, unsigned_cons hb]
  | b :: c :: s =>
    by_cases hb : b = 45
    · subst hb
      simp [Reader.looksNumeric, unsigned, hminus]
    · simp [Reader.looksNumeric, unsigned_cons hb, hb]

theorem startsNumber_cons {g : Glyph} (hg : g.char ≠ '-') (gs : List Glyph) :
    StartsNumber (g :: gs) ↔ CharClass.isDigit g.char = true := by
  constructor
  · rintro (⟨gs, h⟩ | ⟨gs, hminus, -⟩)
    · exact h
    · exact absurd hminus hg
  · exact .digit gs

theorem startsNumber_minus (gs : List Glyph) : StartsNumber (Glyph.ascii 45 :: gs) ↔
    ∃ g ∈ gs.head?, CharClass.isDigit g.char = true := by
  constructor
  · rintro (⟨gs, h⟩ | ⟨gs, -, h⟩)
    · cases h
    · exact ⟨_, rfl, h⟩
  · rintro ⟨g, hg, h⟩
    obtain ⟨gs, rfl⟩ := List.head?_eq_some_iff.mp hg
    exact .minus gs rfl h

theorem startsNumber_iff_head (s : Bytes) : StartsNumber (Glyph.ofBytes s) ↔
    ∃ g ∈ (Glyph.ofBytes (unsigned s)).head?, CharClass.isDigit g.char = true := by
  match s with
  | [] =>
    rw [← looksNumeric_iff]
    simp [looksNumeric, unsigned]
  | b :: s =>
    by_cases hb : b = 45
    · subst hb
      rw [Glyph.ofBytes_ascii (by decide), startsNumber_minus]
      rfl
    · rw [unsigned_cons hb]
      have hchar : ∀ g : Glyph, g.char = '-' → g.char.toNat = 45 := fun g h => by rw [h]; rfl
      rcases head_ofBytes b s with ⟨hlow, hgs⟩ | ⟨-, g, gs, hgs, hhigh⟩
      · have hg : (Glyph.ascii b).char ≠ '-' := by
          intro h
          have h45 := hchar _ h
          rw [Glyph.toNat_ascii hlow] at h45
          exact hb (UInt8.toNat_inj.mp h45)
        rw [hgs, startsNumber_cons hg]
        simp
      · have hg : g.char ≠ '-' := by
          intro h
          have h45 := hchar g h
          omega
        rw [hgs, startsNumber_cons hg]
        simp

/-- The scanner takes for a number what the reader does, and also what starts with a digit beyond
ASCII. -/
theorem startsNumber_iff (s : Bytes) :
    StartsNumber (Glyph.ofBytes s) ↔ Reader.looksNumeric s = true ∨ StartsForeign s := by
  rw [startsNumber_iff_head, looksNumeric_bytes_iff, StartsForeign]
  cases unsigned s with
  | nil => simp
  | cons b t =>
    rcases head_ofBytes b t with ⟨hb, hgs⟩ | ⟨hb, g, gs, hgs, hg⟩
    · have hc := Glyph.toNat_ascii hb
      simp [hgs, isDigit_ascii hb, hc, Nat.not_le.mpr hb]
    · simp [hgs, hg, Literal.digit?_eq_none hb]

/-- A digit beyond ASCII starts with a byte beyond ASCII. -/
theorem StartsForeign.bytes {s : Bytes} (h : StartsForeign s) :
    ∃ b t, 0x80 ≤ b.toNat ∧ unsigned s = b :: t ∧ (s = b :: t ∨ s = 45 :: b :: t) := by
  obtain ⟨g, hg, -, hhigh⟩ := h
  have hshape : s = unsigned s ∨ s = 45 :: unsigned s := by
    unfold unsigned
    split <;> simp
  cases hs : unsigned s with
  | nil =>
    rw [hs] at hg
    cases hg
  | cons b t =>
    rw [hs] at hg hshape
    rcases head_ofBytes b t with ⟨hb, hgs⟩ | ⟨hb, -⟩
    · rw [hgs] at hg
      obtain rfl : Glyph.ascii b = g := Option.some.inj hg
      rw [Glyph.toNat_ascii hb] at hhigh
      omega
    · exact ⟨b, t, hb, rfl, hshape⟩

theorem StartsForeign.not_looksNumeric {s : Bytes} (h : StartsForeign s) :
    Reader.looksNumeric s = false := by
  obtain ⟨b, t, hb, hs, -⟩ := h.bytes
  rw [Bool.eq_false_iff, ne_eq, looksNumeric_bytes_iff, hs]
  simp [Literal.digit?_eq_none hb]

theorem StartsForeign.number?_eq {s : Bytes} (h : StartsForeign s) : Literal.number? s = none := by
  obtain ⟨b, t, hb, -, hs⟩ := h.bytes
  refine Literal.number?_eq_none (t := t) ?_ hb
  rcases hs with rfl | rfl
  · have hsign : Literal.sign (b :: t) = (false, b :: t) :=
      Literal.sign.eq_3 _ (fun _ hs => Bytes.ne_of_high hb (by decide) (List.cons.inj hs).1)
        (fun _ hs => Bytes.ne_of_high hb (by decide) (List.cons.inj hs).1)
    rw [hsign]
  · rfl

theorem not_startsNumber {b : UInt8} (hb : b.toNat < 0x80) (hne : b ≠ 45)
    (hd : Literal.digit? 10 b = none) (s : Bytes) : ¬ StartsNumber (Glyph.ofBytes (b :: s)) := by
  have hlow : ¬ 0x80 ≤ (Glyph.ascii b).char.toNat := by
    rw [Glyph.toNat_ascii hb]
    omega
  rw [startsNumber_iff, looksNumeric_bytes_iff, StartsForeign, unsigned_cons hne,
    Glyph.ofBytes_ascii hb]
  simp [hd, hlow]

/-- No mark, hash or colon stands in front of a number. -/
theorem plain_of_startsNumber {s : Bytes} (h : StartsNumber (Glyph.ofBytes s)) :
    ¬ Mark.Starts s ∧ s ≠ [35] ∧ ∀ b t, s ≠ 58 :: b :: t := by
  match s with
  | [] => exact ⟨fun h => h, by simp, by simp⟩
  | b :: s =>
    refine ⟨?_, ?_, ?_⟩
    · rintro (rfl | rfl | rfl)
      all_goals exact not_startsNumber (by decide) (by decide) rfl s h
    · rintro hs
      obtain ⟨rfl, -⟩ := List.cons.inj hs
      exact not_startsNumber (by decide) (by decide) rfl s h
    · rintro c t hs
      obtain ⟨rfl, -⟩ := List.cons.inj hs
      exact not_startsNumber (by decide) (by decide) rfl s h

/-! ## What comes of a text -/

def ParseError.fault? : ParseError → Option SyntaxFault
  | .malformed e => some e.fault
  | .incomplete => none

/-- The first term of a text, or why there is none, wherever the flaw is. -/
def outcome (src : Bytes) : Except (Option SyntaxFault) Term :=
  match parseFirst src with
  | .ok t => .ok t
  | .error e => .error e.fault?

def conclude : Except Flaw (Option Term) → Except (Option SyntaxFault) Term
  | .ok (some t) => .ok t
  | .ok none => .error none
  | .error f => .error (some f.fault)

theorem outcome_of_tokens {src : Bytes} {tokens : List Token}
    (h : scan (Glyph.ofBytes src) = .ok tokens) :
    outcome src = conclude (readFirst Reader.start tokens) := by
  have htokens : tokenize src = .ok tokens := by
    rw [tokenize, h]
    rfl
  simp only [outcome, parseFirst, parseWith, htokens]
  cases readFirst Reader.start tokens with
  | error f => rfl
  | ok o => cases o <;> rfl

theorem outcome_of_flaw {src : Bytes} {f : LexicalFlaw} (h : scan (Glyph.ofBytes src) = .error f) :
    outcome src = .error (some f.fault) := by
  rw [outcome, parseFirst, parseWith, tokenize, h]
  rfl

/-- What a run at the end of a text adds to the tokens before it. -/
theorem scan_run {gs : List Glyph} (hne : gs ≠ []) (h : ∀ g ∈ gs, isSymbolChar g.char = true)
    (here : Place) (tokens : List Token) :
    (gs.foldlM Scanner.step ⟨.blank, here, tokens⟩).bind Scanner.finish =
      match Lexeme.ofRun gs with
      | .ok l => .ok (tokens.reverse ++ [⟨l, here.pos⟩])
      | .error f => .error ⟨f, here⟩ := by
  obtain ⟨g, gs, rfl⟩ := List.exists_cons_of_ne_nil hne
  obtain ⟨here', hgs⟩ := Scanner.steps_run (fun g hg => h g (List.mem_cons_of_mem _ hg)) here [g]
    (here.next g) tokens
  have hrun : (gs.reverse ++ [g]).reverse = g :: gs := by simp
  rw [foldlM_cons_of_ok (Scanner.stepBlank_symbolChar (h g List.mem_cons_self) here tokens), hgs]
  simp only [Except.bind, Scanner.finish, Scanner.endRun, hrun]
  cases Lexeme.ofRun (g :: gs) with
  | error f => rfl
  | ok l => simp [Scanner.emit, Except.map]

/-! ## A mark and a word -/

def Mark.text : Mark → Bytes
  | .quote => [39]
  | .quasiquote => [96]
  | .unquote => [126]
  | .splice => [126, 64]

variable {m : Mark} {w : Bytes}

/-- A tilde must not be taken for the front of `~@`. -/
theorem prefixed_mark (hm : m = .unquote → w.head? ≠ some 64) {ms : List Mark} {r : Bytes}
    (h : Prefixed w ms r) : Prefixed (m.text ++ w) (m :: ms) r := by
  cases m with
  | quote => exact .quote h
  | quasiquote => exact .quasiquote h
  | unquote => exact .unquote (hm rfl) h
  | splice => exact .splice h

theorem mark_glyphs (m : Mark) (s : Bytes) :
    Glyph.ofBytes (m.text ++ s) = Glyph.ofBytes m.text ++ Glyph.ofBytes s := by
  cases m <;> simp [Mark.text, Glyph.ofBytes_ascii]

theorem isWord_mark (m : Mark) : IsWord m.text := by
  cases m
  all_goals exact ⟨by decide, by decide⟩

theorem isWord_mark_append (hw : IsWord w) : IsWord (m.text ++ w) := by
  refine ⟨fun h => hw.1 (List.append_eq_nil_iff.mp h).2, fun g hg => ?_⟩
  rw [mark_glyphs] at hg
  rcases List.mem_append.mp hg with hg | hg
  · exact (isWord_mark m).2 g hg
  · exact hw.2 g hg

theorem mark_not_startsNumber (m : Mark) (s : Bytes) :
    ¬ StartsNumber (Glyph.ofBytes (m.text ++ s)) := by
  cases m
  all_goals exact not_startsNumber (by decide) (by decide) rfl _

/-- A word is one token. -/
theorem scan_word (hw : IsWord w) (hn : ¬ StartsNumber (Glyph.ofBytes w)) :
    scan (Glyph.ofBytes w) = .ok [⟨.symbol w, ⟨1, 1⟩⟩] := by
  have hrun := scan_run (ofBytes_ne_nil hw.1) hw.2 .start []
  rw [ofRun_symbol hn] at hrun
  exact hrun

/-- With a blank between them, the mark and the word are a token each. -/
theorem scan_apart (m : Mark) (hw : IsWord w) : ∃ p, scan (Glyph.ofBytes (m.text ++ 32 :: w)) =
    match Lexeme.ofRun (Glyph.ofBytes w) with
    | .ok l => .ok [⟨.symbol m.text, ⟨1, 1⟩⟩, ⟨l, p.pos⟩]
    | .error f => .error ⟨f, p⟩ := by
  have hmark := isWord_mark m
  have hn : ¬ StartsNumber (Glyph.ofBytes m.text) := by
    have h := mark_not_startsNumber m []
    rwa [List.append_nil] at h
  obtain ⟨s, hsteps, hready⟩ := Scanner.steps_word (ofBytes_ne_nil hmark.1) hmark.2
    (ofRun_symbol hn) Place.start []
  have hspace := steps_delimiter hsteps hready (b := 32) (by decide) rfl rfl w
  refine ⟨s.here.next (Glyph.ascii 32), ?_⟩
  rw [scan, Scanner.start, hspace]
  exact scan_run (ofBytes_ne_nil hw.1) hw.2 (s.here.next (Glyph.ascii 32)) _

/-! ## The reader after a mark -/

theorem readFirst_single (r : Reader) (t : Token) :
    readFirst r [t] = (r.feed t).map fun r => r.terms.head? := by
  unfold readFirst
  cases r.feed t with
  | error f => rfl
  | ok r => cases hr : r.terms <;> simp [Except.bind, Except.map, hr, readFirst]

theorem readFirst_mark (m : Mark) (pos : Position) (ts : List Token) :
    readFirst Reader.start (⟨.symbol m.text, pos⟩ :: ts) = readFirst ⟨[.mark m], []⟩ ts := by
  refine readFirst_goesOn ?_ rfl ts
  cases m <;> rfl

/-- The same result, or the same fault at perhaps another position. -/
inductive Alike {α : Type} : Except Flaw α → Except Flaw α → Prop
  | ok (a : α) : Alike (.ok a) (.ok a)
  | error (f : SyntaxFault) (pos pos' : Position) : Alike (.error ⟨f, pos⟩) (.error ⟨f, pos'⟩)

theorem Alike.conclude_eq {x y : Except Flaw Reader} (h : Alike x y) (f : Reader → Option Term) :
    conclude (x.map f) = conclude (y.map f) := by
  cases h <;> rfl

/-- After a mark, attached or not, a word is read in the same way unless the mark makes a number
of it. -/
theorem feedSymbol_apart (hm : m = .unquote → w.head? ≠ some 64)
    (hn : Reader.looksNumeric w = false) (stack : List Pending) (terms : List Term)
    (pos pos' : Position) :
    Alike (Reader.feedSymbol ⟨stack, terms⟩ (m.text ++ w) pos)
      (Reader.feedSymbol ⟨.mark m :: stack, terms⟩ w pos') := by
  obtain ⟨ms, r, h⟩ : ∃ ms r, Prefixed w ms r := ⟨_, _, prefixed_strip w⟩
  have hnumber : (!(m :: ms).isEmpty && Reader.looksNumeric r) =
      (!ms.isEmpty && Reader.looksNumeric r) := by
    cases h with
    | rest _ => simp [hn]
    | quote | quasiquote | unquote | splice => rfl
  have hpush : ((m :: ms).map Pending.mark).reverse ++ stack =
      (ms.map Pending.mark).reverse ++ .mark m :: stack := by
    simp
  simp only [Reader.feedSymbol, (prefixed_mark hm h).strip_eq, h.strip_eq, hnumber, hpush]
  split
  · exact .ok _
  split
  · exact .ok _
  split
  · cases Literal.number? r with
    | none => exact .error ..
    | some v => exact .ok _
  · exact .ok _

/-- After an attached mark a number is read as after a mark and a blank. -/
theorem feedSymbol_number (hn : Reader.looksNumeric w = true) (stack : List Pending)
    (terms : List Term) (pos : Position) :
    Reader.feedSymbol ⟨stack, terms⟩ (m.text ++ w) pos =
      match Literal.number? w with
      | some v => .ok (Reader.put (.mark m :: stack) terms (Reader.numeral v))
      | none => .error ⟨.malformedNumber w, ⟨pos.line, pos.col + m.width⟩⟩ := by
  obtain ⟨hmark, hhash, -⟩ := plain_of_startsNumber ((startsNumber_iff w).mpr (.inl hn))
  have hne : w ≠ [] := by
    rintro rfl
    cases hn
  have hat : m = .unquote → w.head? ≠ some 64 := by
    rintro - h
    obtain ⟨t, rfl⟩ := List.head?_eq_some_iff.mp h
    exact absurd hn (by cases t <;> simp [Reader.looksNumeric, Literal.digit?])
  have hfeed := feedSymbol_marked ⟨m.text ++ w, [m], w, prefixed_mark hat (.rest hmark)⟩ stack terms
    pos
  simp only [List.isEmpty_iff, hne, hhash, hn, beq_iff_eq] at hfeed
  exact hfeed

/-! ## Marks set apart -/

theorem outcome_attached (m : Mark) (hw : IsWord w) :
    outcome (m.text ++ w) =
      conclude ((Reader.feedSymbol Reader.start (m.text ++ w) ⟨1, 1⟩).map fun r =>
        r.terms.head?) := by
  rw [outcome_of_tokens (scan_word (isWord_mark_append hw) (mark_not_startsNumber m w)),
    readFirst_single]
  rfl

theorem outcome_apart (m : Mark) (hw : IsWord w) : ∃ pos, outcome (m.text ++ 32 :: w) =
    match Lexeme.ofRun (Glyph.ofBytes w) with
    | .ok l => conclude ((Reader.feed ⟨[.mark m], []⟩ ⟨l, pos⟩).map fun r => r.terms.head?)
    | .error f => .error (some f) := by
  obtain ⟨p, hscan⟩ := scan_apart m hw
  refine ⟨p.pos, ?_⟩
  cases hl : Lexeme.ofRun (Glyph.ofBytes w) with
  | error f =>
    rw [hl] at hscan
    exact outcome_of_flaw hscan
  | ok l =>
    rw [hl] at hscan
    rw [outcome_of_tokens hscan, readFirst_mark, readFirst_single]

theorem ofRun_number (hn : StartsNumber (Glyph.ofBytes w)) : Lexeme.ofRun (Glyph.ofBytes w) =
    match Literal.number? w with
    | some v => .ok (.number w v)
    | none => .error (.malformedNumber w) := by
  have hnumber := (looksNumeric_iff _).mpr hn
  cases hv : Literal.number? w with
  | none => simp [Lexeme.ofRun, hnumber, Glyph.toBytes_ofBytes, hv]
  | some v => simp [Lexeme.ofRun, hnumber, Glyph.toBytes_ofBytes, hv]

/-- What is no number to the scanner is none to the reader, and is read in the same way. -/
theorem apart_of_name (hw : IsWord w) (hm : m = .unquote → w.head? ≠ some 64)
    (hn : ¬ StartsNumber (Glyph.ofBytes w)) :
    outcome (m.text ++ w) = outcome (m.text ++ 32 :: w) := by
  have hbytes : Reader.looksNumeric w = false :=
    Bool.eq_false_iff.mpr fun h => hn ((startsNumber_iff w).mpr (.inl h))
  obtain ⟨pos, hpos⟩ := outcome_apart m hw
  rw [ofRun_symbol hn] at hpos
  rw [hpos, outcome_attached m hw]
  exact (feedSymbol_apart hm hbytes [] [] ⟨1, 1⟩ pos).conclude_eq _

/-- What is a number to both is read in the same way, or is malformed in the same way. -/
theorem apart_of_number (hw : IsWord w) (hn : Reader.looksNumeric w = true) :
    outcome (m.text ++ w) = outcome (m.text ++ 32 :: w) := by
  obtain ⟨pos, hpos⟩ := outcome_apart m hw
  rw [ofRun_number ((startsNumber_iff w).mpr (.inl hn))] at hpos
  rw [hpos, outcome_attached m hw, Reader.start, feedSymbol_number hn]
  cases Literal.number? w <;> rfl

/-- What is a number to the scanner alone is a name after an attached mark. -/
theorem attached_foreign (hw : IsWord w) (hm : m = .unquote → w.head? ≠ some 64)
    (hf : StartsForeign w) : outcome (m.text ++ w) = .ok (m.apply (.symbol w)) := by
  obtain ⟨hmark, hhash, hcolon⟩ := plain_of_startsNumber ((startsNumber_iff w).mpr (.inr hf))
  have hfeed := feedSymbol_marked ⟨m.text ++ w, [m], w, prefixed_mark hm (.rest hmark)⟩ [] []
    ⟨1, 1⟩
  simp only [List.isEmpty_iff, hw.1, hhash, hf.not_looksNumeric, beq_iff_eq, Bool.and_false,
    Reader.name.eq_2 w hcolon] at hfeed
  rw [outcome_attached m hw, Reader.start, hfeed]
  rfl

theorem apart_foreign (hw : IsWord w) (hf : StartsForeign w) :
    outcome (m.text ++ 32 :: w) = .error (some (.malformedNumber w)) := by
  obtain ⟨pos, hpos⟩ := outcome_apart m hw
  rw [ofRun_number ((startsNumber_iff w).mpr (.inr hf)), hf.number?_eq] at hpos
  exact hpos

/-- A mark may be set apart from the word after it, unless the word starts with a digit beyond
ASCII. Then it is a name after an attached mark and a malformed number on its own. -/
theorem mark_apart_iff (hw : IsWord w) (hm : m = .unquote → w.head? ≠ some 64) :
    (outcome (m.text ++ w) = outcome (m.text ++ 32 :: w) ↔ ¬ StartsForeign w) ∧
    (StartsForeign w → outcome (m.text ++ w) = .ok (m.apply (.symbol w)) ∧
      outcome (m.text ++ 32 :: w) = .error (some (.malformedNumber w))) := by
  refine ⟨⟨fun h hf => ?_, fun hf => ?_⟩, fun hf => ⟨attached_foreign hw hm hf,
    apart_foreign hw hf⟩⟩
  · rw [attached_foreign hw hm hf, apart_foreign hw hf] at h
    cases h
  · by_cases hn : StartsNumber (Glyph.ofBytes w)
    · exact apart_of_number hw (((startsNumber_iff w).mp hn).resolve_right hf)
    · exact apart_of_name hw hm hn

/-- A mark before a word with a mark of its own. -/
theorem nested_marks_apart :
    IsWord (Bytes.ofString "'-1x") ∧ (Mark.splice = .unquote →
      (Bytes.ofString "'-1x").head? ≠ some 64) ∧
    outcome (Bytes.ofString "~@'-1x") = outcome (Bytes.ofString "~@ '-1x") := by
  have hw : IsWord (Bytes.ofString "'-1x") := ⟨by decide, by decide⟩
  have hf : ¬ StartsForeign (Bytes.ofString "'-1x") := by
    rintro ⟨g, hg, -, hhigh⟩
    obtain rfl := Option.some.inj hg
    exact absurd hhigh (by decide)
  have hm : Mark.splice = .unquote → (Bytes.ofString "'-1x").head? ≠ some 64 := by
    intro h
    cases h
  exact ⟨hw, hm, (mark_apart_iff hw hm).1.mpr hf⟩

/-- An Arabic digit is a name after an attached quote, and a malformed number after a quote and a
blank. -/
theorem arabic_digit_differs :
    outcome (Bytes.ofString "'٣") = .ok (Mark.quote.apply (.symbol (Bytes.ofString "٣"))) ∧
      outcome (Bytes.ofString "' ٣") = .error (some (.malformedNumber (Bytes.ofString "٣"))) ∧
      outcome (Bytes.ofString "'٣") ≠ outcome (Bytes.ofString "' ٣") := by
  have hw : IsWord (Bytes.ofString "٣") := ⟨by decide, by decide⟩
  have hf : StartsForeign (Bytes.ofString "٣") := ⟨_, rfl, by decide, by decide⟩
  have hattached : outcome (Bytes.ofString "'٣") =
      .ok (Mark.quote.apply (.symbol (Bytes.ofString "٣"))) :=
    attached_foreign (m := .quote) hw (by simp) hf
  have hapart : outcome (Bytes.ofString "' ٣") =
      .error (some (.malformedNumber (Bytes.ofString "٣"))) :=
    apart_foreign (m := .quote) hw hf
  refine ⟨hattached, hapart, fun h => ?_⟩
  rw [hattached, hapart] at h
  cases h

end SmallLisp
