import SmallLisp.Proofs.SourceLines
import SmallLisp.Reader

/-! Texts joined by a newline. A newline ends every lexeme but a string, so the tokens of two texts
with a newline between them are those of the first and, further down, those of the second; a flaw
of the first other than an open string is a flaw of the whole. Hence so are the terms. -/
namespace SmallLisp

def newline : Glyph := ⟨'\n', [10]⟩

/-! ## Moving down by some lines -/

def Position.down (n : Nat) (p : Position) : Position := ⟨p.line + n, p.col⟩

def Token.down (n : Nat) (t : Token) : Token := ⟨t.lexeme, t.pos.down n⟩

def Flaw.down (n : Nat) (f : Flaw) : Flaw := ⟨f.fault, f.pos.down n⟩

/-- The place behind `n` more lines, which have `k` bytes. -/
def Place.down (n k : Nat) (p : Place) : Place := ⟨p.pos.down n, p.offset + k, p.lineStart + k⟩

def LexicalFlaw.down (n k : Nat) (f : LexicalFlaw) : LexicalFlaw := ⟨f.fault, f.place.down n k⟩

/-- Only the line number changes: the text of the line stays the same. -/
def SyntaxError.down (n : Nat) (e : SyntaxError) : SyntaxError := ⟨e.fault, e.pos.down n, e.text⟩

def Mode.down (n k : Nat) : Mode → Mode
  | .blank => .blank
  | .comment => .comment
  | .run start seen => .run (start.down n k) seen
  | .string start seen => .string (start.down n k) seen
  | .escape start seen esc => .escape (start.down n k) seen (esc.down n k)
  | .hexHigh start seen esc => .hexHigh (start.down n k) seen (esc.down n k)
  | .hexLow start seen esc high => .hexLow (start.down n k) seen (esc.down n k) high

/-- The scanner further down in a text from which it has the tokens `before`. -/
def Scanner.down (before : List Token) (n k : Nat) (s : Scanner) : Scanner :=
  ⟨s.mode.down n k, s.here.down n k, s.tokens.map (Token.down n) ++ before⟩

def lower {ε α β : Type} (d : ε → ε) (f : α → β) : Except ε α → Except ε β
  | .ok a => .ok (f a)
  | .error e => .error (d e)

@[simp] theorem lower_ok {ε α β : Type} (d : ε → ε) (f : α → β) (a : α) :
    lower d f (.ok a) = .ok (f a) := rfl

@[simp] theorem lower_error {ε α β : Type} (d : ε → ε) (f : α → β) (e : ε) :
    lower d f (.error e) = .error (d e) := rfl

theorem lower_bind {ε α β γ δ : Type} {d : ε → ε} {f : α → γ} {g : β → δ} {r : Except ε α}
    {k : α → Except ε β} {k' : γ → Except ε δ} (h : ∀ a, k' (f a) = lower d g (k a)) :
    (lower d f r).bind k' = lower d g (r.bind k) := by
  cases r with
  | ok a => exact h a
  | error e => rfl

theorem Position.down_next (n : Nat) (p : Position) (c : Char) :
    (p.down n).next c = (p.next c).down n := by
  unfold Position.next
  split
  · simp only [Position.down, Nat.add_right_comm]
  · rfl

theorem Place.down_next (n k : Nat) (p : Place) (g : Glyph) :
    (p.down n k).next g = (p.next g).down n k := by
  have hoffset : p.offset + k + g.raw.length = p.offset + g.raw.length + k := Nat.add_right_comm ..
  simp only [next, down, Position.down_next, hoffset, mk.injEq, true_and]
  split <;> rfl

namespace Scanner

variable (before : List Token) (n k : Nat) (s : Scanner)

theorem down_move (g : Glyph) (m : Mode) :
    (s.move g m).down before n k = (s.down before n k).move g (m.down n k) := by
  simp only [move, down, Place.down_next]

theorem down_here : (s.down before n k).here = s.here.down n k := rfl

theorem down_emit (l : Lexeme) (p : Place) :
    (s.emit l p).down before n k = (s.down before n k).emit l (p.down n k) := rfl

theorem down_stepBlank (g : Glyph) :
    (s.down before n k).stepBlank g =
      lower (LexicalFlaw.down n k) (down before n k) (s.stepBlank g) := by
  simp only [stepBlank, apply_ite (lower (LexicalFlaw.down n k) (down before n k)), lower_ok,
    lower_error, down_move, down_emit, down_here, Mode.down, LexicalFlaw.down]

theorem down_endRun (start : Place) (seen : List Glyph) :
    (s.down before n k).endRun (start.down n k) seen =
      lower (LexicalFlaw.down n k) (down before n k) (s.endRun start seen) := by
  unfold endRun
  split <;> rfl

theorem down_stepEscape (g : Glyph) (start : Place) (seen : Bytes) (esc : Place) :
    (s.down before n k).stepEscape g (start.down n k) seen (esc.down n k) =
      lower (LexicalFlaw.down n k) (down before n k) (s.stepEscape g start seen esc) := by
  simp only [stepEscape, apply_ite (lower (LexicalFlaw.down n k) (down before n k)), lower_ok,
    lower_error, down_move, Mode.down, LexicalFlaw.down]

theorem down_step (g : Glyph) :
    (s.down before n k).step g = lower (LexicalFlaw.down n k) (down before n k) (s.step g) := by
  have hmode : (s.down before n k).mode = s.mode.down n k := rfl
  unfold step
  rw [hmode]
  cases s.mode with
  | blank => exact down_stepBlank before n k s g
  | comment =>
    rw [lower_ok, down_move, apply_ite (Mode.down n k)]
    rfl
  | run start seen =>
    simp only [Mode.down, apply_ite (lower (LexicalFlaw.down n k) (down before n k)), lower_ok,
      down_move]
    rw [down_endRun, lower_bind fun s => down_stepBlank before n k s g]
  | string start seen =>
    simp only [Mode.down, apply_ite (lower (LexicalFlaw.down n k) (down before n k)), lower_ok,
      down_move, down_emit, down_here]
  | escape start seen esc => exact down_stepEscape before n k s g start seen esc
  | hexHigh start seen esc =>
    simp only [Mode.down]
    cases hexValue? g.char with
    | none => rfl
    | some h => simp only [lower_ok, down_move, Mode.down]
  | hexLow start seen esc high =>
    simp only [Mode.down]
    cases hexValue? g.char with
    | none => rfl
    | some h => simp only [lower_ok, down_move, Mode.down]

theorem down_steps (gs : List Glyph) :
    gs.foldlM step (s.down before n k) =
      lower (LexicalFlaw.down n k) (down before n k) (gs.foldlM step s) := by
  induction gs generalizing s with
  | nil => rfl
  | cons g gs ih =>
    rw [List.foldlM_cons, List.foldlM_cons, down_step]
    exact lower_bind ih

/-- What the tokens further down come to, after those before. -/
theorem down_finish :
    (s.down before n k).finish =
      lower (LexicalFlaw.down n k) (fun ts => before.reverse ++ ts.map (Token.down n)) s.finish := by
  have hmode : (s.down before n k).mode = s.mode.down n k := rfl
  unfold finish
  rw [hmode]
  cases s.mode with
  | blank => simp [Mode.down, lower, down]
  | comment => simp [Mode.down, lower, down]
  | run start seen =>
    simp only [Mode.down]
    rw [down_endRun]
    cases s.endRun start seen with
    | ok s => simp [lower, down, Except.map]
    | error f => rfl
  | string start seen => rfl
  | escape start seen esc => rfl
  | hexHigh start seen esc => rfl
  | hexLow start seen esc high => rfl

/-! ## The newline -/

theorem step_newline_of_ok {s : Scanner} {ts : List Token} (h : s.finish = .ok ts) :
    s.step newline = .ok (start.down ts.reverse s.here.pos.line (s.here.offset + 1)) := by
  have hhere : s.here.next newline = Place.start.down s.here.pos.line (s.here.offset + 1) := by
    simp [Place.next, Place.down, Place.start, Position.next, Position.down, newline, Nat.add_comm]
  obtain ⟨mode, here, tokens⟩ := s
  cases mode with
  | blank | comment =>
    obtain rfl : tokens.reverse = ts := Except.ok.inj h
    rw [List.reverse_reverse]
    exact congrArg (fun p => Except.ok (Scanner.mk .blank p tokens)) hhere
  | run start seen =>
    -- The newline ends the run just as the end of the text does.
    change (endRun _ start seen).map _ = _ at h
    change (endRun _ start seen).bind _ = _
    unfold endRun at h ⊢
    cases hl : Lexeme.ofRun seen.reverse with
    | error f => simp [hl, Except.map] at h
    | ok l =>
      simp only [hl] at h
      obtain rfl : (⟨l, start.pos⟩ :: tokens : List Token).reverse = ts := Except.ok.inj h
      rw [List.reverse_reverse]
      exact congrArg (fun p => Except.ok (Scanner.mk .blank p _)) hhere
  | string | escape | hexHigh | hexLow => simp [finish] at h

theorem step_newline_of_error {s : Scanner} {f : LexicalFlaw} (h : s.finish = .error f)
    (hf : f.fault ≠ .unterminatedString) : s.step newline = .error f := by
  obtain ⟨mode, here, tokens⟩ := s
  cases mode with
  | blank | comment => simp [finish] at h
  | run start seen =>
    change (endRun _ start seen).map _ = _ at h
    change (endRun _ start seen).bind _ = _
    unfold endRun at h ⊢
    cases hl : Lexeme.ofRun seen.reverse with
    | error f => simpa [hl, Except.map, Except.bind] using h
    | ok l => simp [hl, Except.map] at h
  | string | escape =>
    obtain rfl := Except.error.inj h
    exact absurd rfl hf
  | hexHigh | hexLow =>
    have hx : hexValue? '\n' = none := by decide
    obtain rfl := Except.error.inj h
    simp only [step, newline, hx]

end Scanner

/-! ## Two texts -/

theorem ofBytes_newline (a b : Bytes) :
    Glyph.ofBytes (a ++ 10 :: b) = Glyph.ofBytes a ++ newline :: Glyph.ofBytes b := by
  have hsep : Glyph.Separate (10 :: b) := by simp [Glyph.Separate]
  rw [Glyph.ofBytes_append a hsep, Glyph.ofBytes_ascii (by decide)]
  rfl

/-- Scanning goes through a newline like any other character. -/
theorem scan_newline (gs hs : List Glyph) :
    scan (gs ++ newline :: hs) = (gs.foldlM Scanner.step Scanner.start).bind fun s =>
      (s.step newline).bind fun s => (hs.foldlM Scanner.step s).bind Scanner.finish := by
  unfold scan
  rw [List.foldlM_append]
  cases gs.foldlM Scanner.step Scanner.start with
  | error f => rfl
  | ok s =>
    change ((newline :: hs).foldlM Scanner.step s).bind Scanner.finish = _
    rw [List.foldlM_cons]
    cases hn : s.step newline with
    | error f => simp only [Except.bind, hn]; rfl
    | ok s' => simp only [Except.bind, hn]; rfl

theorem scan_newline_of_ok {a : Bytes} {ts : List Token} (h : scan (Glyph.ofBytes a) = .ok ts)
    (hs : List Glyph) :
    scan (Glyph.ofBytes a ++ newline :: hs) =
      lower (LexicalFlaw.down (a.count 10 + 1) (a.length + 1))
        (fun us => ts ++ us.map (Token.down (a.count 10 + 1))) (scan hs) := by
  obtain ⟨s, ha, hfinish⟩ := scan_eq_ok h
  have hreads := (Scanner.start_reads (Glyph.ofBytes a)).steps (List.nil_append _).symm
  rw [ha] at hreads
  have hcounts : s.here.Counts a := hreads.here ▸ .ofBytes a
  rw [scan_newline, ha]
  change (s.step newline).bind _ = _
  rw [Scanner.step_newline_of_ok hfinish, hcounts.line, hcounts.offset, Nat.add_comm 1]
  -- The rest is scanned as from the start, further down.
  change (hs.foldlM Scanner.step (Scanner.start.down ts.reverse _ _)).bind _ = _
  rw [Scanner.down_steps]
  refine lower_bind fun s => ?_
  rw [Scanner.down_finish, List.reverse_reverse]

theorem scan_newline_of_error {gs : List Glyph} {f : LexicalFlaw} (h : scan gs = .error f)
    (hf : f.fault ≠ .unterminatedString) (hs : List Glyph) :
    scan (gs ++ newline :: hs) = .error f := by
  rw [scan_newline]
  unfold scan at h
  cases hs' : gs.foldlM Scanner.step Scanner.start with
  | error f' => rwa [hs'] at h
  | ok s =>
    rw [hs'] at h
    simp only [Except.bind, Scanner.step_newline_of_error h hf]

theorem locate_append_left {a : Bytes} {f : LexicalFlaw} (h : f.place.lineStart ≤ a.length)
    (b : Bytes) : f.locate (a ++ 10 :: b) = f.locate a :=
  congrArg (SyntaxError.mk _ _) (lineFrom_append_left h b)

theorem locate_append_right (a b : Bytes) (f : LexicalFlaw) :
    (f.down (a.count 10 + 1) (a.length + 1)).locate (a ++ 10 :: b) =
      (f.locate b).down (a.count 10 + 1) := by
  have hline := lineFrom_append_right (a ++ [10]) b f.place.lineStart
  rw [List.append_assoc, List.length_append] at hline
  exact congrArg (SyntaxError.mk _ _) hline

/-! ## The main results -/

theorem tokenize_newline_of_ok {a : Bytes} {ts : List Token} (h : tokenize a = .ok ts)
    (b : Bytes) :
    tokenize (a ++ 10 :: b) =
      match tokenize b with
      | .ok us => .ok (ts ++ us.map (Token.down (a.count 10 + 1)))
      | .error e => .error (e.down (a.count 10 + 1)) := by
  unfold tokenize
  rw [ofBytes_newline, scan_newline_of_ok (tokenize_eq_ok h)]
  cases scan (Glyph.ofBytes b) with
  | ok us => rfl
  | error f => exact congrArg Except.error (locate_append_right a b f)

theorem tokenize_newline_of_error {a : Bytes} {e : SyntaxError} (h : tokenize a = .error e)
    (he : e.fault ≠ .unterminatedString) (b : Bytes) : tokenize (a ++ 10 :: b) = .error e := by
  obtain ⟨f, ha, rfl⟩ := tokenize_eq_error h
  rw [tokenize, ofBytes_newline, scan_newline_of_error ha he]
  exact congrArg Except.error (locate_append_left (lineStart_le ha) b)

/-! ## Terms -/

namespace Reader

/-- The reader when it has the terms `before` from further up. -/
def below (before : List Term) (r : Reader) : Reader := ⟨r.stack, r.terms ++ before⟩

variable (before : List Term) (n : Nat)

theorem put_below (stack : List Pending) (terms : List Term) (t : Term) :
    put stack (terms ++ before) t = (put stack terms t).below before := by
  induction stack generalizing t with
  | nil => rfl
  | cons p stack ih => cases p with
    | group g seen => rfl
    | mark m => exact ih (m.apply t)
    | hash => rfl

theorem feedSymbol_below (r : Reader) (text : Bytes) (pos : Position) :
    (r.below before).feedSymbol text (pos.down n) =
      lower (Flaw.down n) (below before) (r.feedSymbol text pos) := by
  obtain ⟨stack, terms⟩ := r
  simp only [feedSymbol, below, put_below]
  split
  · rfl
  split
  · rfl
  split
  · split <;> rfl
  · rfl

theorem feedClosing_below (r : Reader) (b : Bracket) (pos : Position) :
    (r.below before).feedClosing b (pos.down n) =
      lower (Flaw.down n) (below before) (r.feedClosing b pos) := by
  obtain ⟨stack, terms⟩ := r
  simp only [feedClosing, below, put_below]
  split
  · split <;> rfl
  · rfl

theorem feed_below (r : Reader) (t : Token) :
    (r.below before).feed (t.down n) = lower (Flaw.down n) (below before) (r.feed t) := by
  have hstack : (r.below before).stack = r.stack := rfl
  have hlexeme : (t.down n).lexeme = t.lexeme := rfl
  have hterms : (r.below before).terms = r.terms ++ before := rfl
  unfold feed
  simp only [hstack, hlexeme, hterms, put_below]
  split
  case h_5 => exact feedClosing_below before n r _ t.pos
  case h_8 => exact feedSymbol_below before n r _ t.pos
  all_goals rfl

theorem feeds_below (r : Reader) (ts : List Token) :
    (ts.map (Token.down n)).foldlM feed (r.below before) =
      lower (Flaw.down n) (below before) (ts.foldlM feed r) := by
  induction ts generalizing r with
  | nil => rfl
  | cons t ts ih =>
    rw [List.map_cons, List.foldlM_cons, List.foldlM_cons, feed_below]
    exact lower_bind ih

end Reader

theorem readAll_append {ts us : List Token} {xs ys : List Term}
    (hts : readAll ts = .ok (some xs)) (hus : readAll us = .ok (some ys)) (n : Nat) :
    readAll (ts ++ us.map (Token.down n)) = .ok (some (xs ++ ys)) := by
  rw [readAll_eq_some_iff] at hts hus ⊢
  have hstart : Reader.mk [] xs.reverse = Reader.start.below xs.reverse := rfl
  rw [foldlM_append_of_ok hts, hstart, Reader.feeds_below, hus, List.reverse_append]
  rfl

theorem parse_newline {a b : Bytes} {xs ys : List Term} (ha : parse a = .ok xs)
    (hb : parse b = .ok ys) : parse (a ++ 10 :: b) = .ok (xs ++ ys) := by
  obtain ⟨ts, hta, hra⟩ := parseWith_eq_ok_iff.mp ha
  obtain ⟨us, htb, hrb⟩ := parseWith_eq_ok_iff.mp hb
  refine parseWith_eq_ok_iff.mpr ⟨_, ?_, readAll_append hra hrb (a.count 10 + 1)⟩
  rw [tokenize_newline_of_ok hta, htb]

/-- A newline between two texts separates their tokens and terms. The tokens of the second, or the
error in it, move down by the lines of the first; an error in the first is the error of the whole,
unless it is a string that goes on behind the newline. -/
theorem newline_separates (a b : Bytes) :
    (∀ ts, tokenize a = .ok ts →
      tokenize (a ++ 10 :: b) =
        match tokenize b with
        | .ok us => .ok (ts ++ us.map (Token.down (1 + a.count 10)))
        | .error e => .error (e.down (1 + a.count 10))) ∧
    (∀ e, tokenize a = .error e → e.fault ≠ .unterminatedString →
      tokenize (a ++ 10 :: b) = .error e) ∧
    (∀ xs ys, parse a = .ok xs → parse b = .ok ys → parse (a ++ 10 :: b) = .ok (xs ++ ys)) := by
  refine ⟨fun ts h => ?_, fun e h he => tokenize_newline_of_error h he b,
    fun xs ys ha hb => parse_newline ha hb⟩
  rw [Nat.add_comm 1]
  exact tokenize_newline_of_ok h b

/-! ### Four short texts -/

def quoteAndMinus : Bytes := Bytes.ofString "'f\n-"

def sevenAndComment : Bytes := Bytes.ofString "7 ; c"

def halfEscape : Bytes := Bytes.ofString "\"\\x"

def openString : Bytes := Bytes.ofString " \"s"

theorem quoteAndMinus_tokens : tokenize quoteAndMinus =
    .ok [⟨.symbol (Bytes.ofString "'f"), ⟨1, 1⟩⟩, ⟨.symbol (Bytes.ofString "-"), ⟨2, 1⟩⟩] := rfl

theorem halfEscape_error : tokenize halfEscape =
    .error ⟨.invalidHexEscape, ⟨1, 2⟩, halfEscape⟩ := rfl

theorem quoteAndMinus_terms : parse quoteAndMinus =
    .ok [.list [.sym "quote", .sym "f"], .sym "-"] := rfl

theorem sevenAndComment_terms : parse sevenAndComment = .ok [.int 7] := rfl

theorem newline_separates_at :
    tokenize (quoteAndMinus ++ 10 :: openString) =
      .error ⟨.unterminatedString, ⟨3, 2⟩, openString⟩ ∧
    tokenize (halfEscape ++ 10 :: sevenAndComment) =
      .error ⟨.invalidHexEscape, ⟨1, 2⟩, halfEscape⟩ ∧
    parse (quoteAndMinus ++ 10 :: sevenAndComment) =
      .ok [.list [.sym "quote", .sym "f"], .sym "-", .int 7] :=
  ⟨(newline_separates quoteAndMinus openString).1 _ quoteAndMinus_tokens,
    (newline_separates halfEscape sevenAndComment).2.1 _ halfEscape_error (by decide),
    (newline_separates quoteAndMinus sevenAndComment).2.2 _ _ quoteAndMinus_terms
      sevenAndComment_terms⟩
end SmallLisp
