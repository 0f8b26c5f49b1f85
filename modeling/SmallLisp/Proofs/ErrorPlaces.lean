import SmallLisp.Proofs.AttachedMarks
import SmallLisp.Proofs.Layout

/-! Where syntax errors point. A flaw is at a character other than a blank, whether the scanner
finds it (`scan_shows`) or the reader (`feed_shows`), and by `scan_locate` both quote the line with
the number of its position. So this is the line that the character is on, the column is inside of
it, and the caret stands under the character (`syntaxError_pointsInto`). -/
namespace SmallLisp

/-- At `p` there is a character other than a blank. -/
def Shows (gs : List Glyph) (p : Position) : Prop :=
  ∃ (before after : List Glyph) (g : Glyph), gs = before ++ g :: after ∧
    p = (⟨1, 1⟩ : Position).after before ∧ CharClass.isSpace g.char = false

theorem Place.IsShown.shows {gs : List Glyph} {p : Place} (h : p.IsShown gs) :
    Shows gs p.pos := by
  obtain ⟨before, rest, g, hgs, rfl, hg⟩ := h
  exact ⟨before, rest, g, hgs, start.after_pos before, hg⟩

/-! ## The reader -/

theorem not_isSpace_of_isSymbolChar {c : Char} (h : isSymbolChar c = true) :
    CharClass.isSpace c = false := by
  simp only [isSymbolChar, isDelimiter, Bool.and_eq_true, Bool.not_eq_true',
    Bool.or_eq_false_iff] at h
  exact h.1.1.1.1.1.1.1

theorem Written.visible {gs : List Glyph} {l : Lexeme} (h : Written gs l) :
    ∃ g rest, gs = g :: rest ∧ CharClass.isSpace g.char = false := by
  cases h with
  | @opening g b h => exact ⟨g, [], rfl, by rw [h]; cases b <;> rfl⟩
  | @closing g b h => exact ⟨g, [], rfl, by rw [h]; cases b <;> rfl⟩
  | run ne chars h =>
    obtain ⟨g, rest, rfl⟩ := List.exists_cons_of_ne_nil ne
    exact ⟨g, rest, rfl, not_isSpace_of_isSymbolChar (chars g List.mem_cons_self)⟩
  | @string o c body s opens closes contents => exact ⟨o, body ++ [c], rfl, by rw [opens]; rfl⟩

theorem Written.symbol {gs : List Glyph} {text : Bytes} (h : Written gs (.symbol text)) :
    text = Glyph.toBytes gs ∧ ∀ g ∈ gs, isSymbolChar g.char = true := by
  obtain _ | _ | ⟨-, chars, h⟩ | _ := h
  refine ⟨?_, chars⟩
  unfold Lexeme.ofRun at h
  dsimp only at h
  split at h
  · split at h <;> simp at h
  · simpa using h.symm

/-- Each token has its lexeme at its position. -/
theorem Laid.written {p : Position} {gs : List Glyph} {ts : List Token} (h : Laid p gs ts) :
    ∀ t ∈ ts, ∃ before body after, gs = before ++ (body ++ after) ∧ t.pos = p.after before ∧
      Written body t.lexeme := by
  induction h with
  | last => exact List.forall_mem_nil _
  | @cons p gap body rest l ts blank written apart laid ih =>
    refine List.forall_mem_cons.mpr ⟨⟨gap, body, rest, rfl, rfl, written⟩, fun t ht => ?_⟩
    obtain ⟨before, body', after, rfl, hpos, hwritten⟩ := ih t ht
    refine ⟨gap ++ body ++ before, body', after, by simp only [List.append_assoc], ?_, hwritten⟩
    rw [hpos, Position.after_append, Position.after_append]

/-- The text is as many characters as the marks are wide, all on one line, and the characters of
`r`. -/
def Fronts (text : Bytes) (ms : List Mark) (r : Bytes) : Prop :=
  ∃ front, Glyph.ofBytes text = front ++ Glyph.ofBytes r ∧ newlines front = 0 ∧
    front.length = Mark.widths ms

theorem Fronts.mark (m : Mark) {text r : Bytes} {ms : List Mark} (h : Fronts text ms r) :
    Fronts (m.text ++ text) (m :: ms) r := by
  obtain ⟨front, htext, hline, hlength⟩ := h
  have hm : newlines (Glyph.ofBytes m.text) = 0 ∧ (Glyph.ofBytes m.text).length = m.width := by
    cases m <;> decide
  refine ⟨Glyph.ofBytes m.text ++ front, ?_, ?_, ?_⟩
  · rw [mark_glyphs, htext, List.append_assoc]
  · rw [newlines, List.countP_append, ← newlines, ← newlines, hm.1, hline]
  · rw [List.length_append, hm.2, hlength, Mark.widths]

theorem Prefixed.fronts {text r : Bytes} {ms : List Mark} (h : Prefixed text ms r) :
    Fronts text ms r := by
  induction h with
  | rest h => exact ⟨[], rfl, rfl, rfl⟩
  | quote h ih => exact ih.mark .quote
  | quasiquote h ih => exact ih.mark .quasiquote
  | unquote hs h ih => exact ih.mark .unquote
  | splice h ih => exact ih.mark .splice

namespace Reader

/-- A flaw in a symbol is behind its marks. -/
theorem feedSymbol_error {r : Reader} {text : Bytes} {pos : Position} {f : Flaw}
    (h : r.feedSymbol text pos = .error f) : (Mark.strip text).2 ≠ [] ∧
      f.pos = ⟨pos.line, pos.col + Mark.widths (Mark.strip text).1⟩ := by
  unfold feedSymbol at h
  dsimp only at h
  split at h
  · cases h
  · next hne =>
    split at h
    · cases h
    split at h
    · split at h
      · cases h
      · exact ⟨by simpa using hne, by rw [← Except.error.inj h]⟩
    · cases h

theorem feedClosing_error {r : Reader} {b : Bracket} {pos : Position} {f : Flaw}
    (h : r.feedClosing b pos = .error f) : f.pos = pos := by
  unfold feedClosing at h
  split at h
  · split at h
    · cases h
    · rw [← Except.error.inj h]
  · rw [← Except.error.inj h]

/-- A flaw that the reader finds is at a token, or inside of a symbol. -/
theorem feed_error {r : Reader} {t : Token} {f : Flaw} (h : r.feed t = .error f) :
    f.pos = t.pos ∨ ∃ text, t.lexeme = .symbol text ∧ r.feedSymbol text t.pos = .error f := by
  unfold feed at h
  split at h
  case h_2 => exact .inl (by rw [← Except.error.inj h])
  case h_5 => exact .inl (feedClosing_error h)
  case h_8 text hlexeme _ => exact .inr ⟨text, hlexeme, h⟩
  all_goals cases h

/-- What the reader finds wrong with a token of the text is at a character of it. -/
theorem feed_shows {gs : List Glyph} {ts : List Token} (hlaid : Laid ⟨1, 1⟩ gs ts)
    (hgs : Glyph.Exact gs) {t : Token} (ht : t ∈ ts) {r : Reader} {f : Flaw}
    (h : r.feed t = .error f) : Shows gs f.pos := by
  obtain ⟨before, body, after, rfl, hpos, hwritten⟩ := hlaid.written t ht
  rcases feed_error h with hf | ⟨text, hlexeme, hsymbol⟩
  · obtain ⟨g, rest, rfl, hg⟩ := hwritten.visible
    exact ⟨before, rest ++ after, g, by simp, by rw [hf, hpos], hg⟩
  · obtain ⟨hne, hf⟩ := feedSymbol_error hsymbol
    obtain ⟨front, htext, hline, hlength⟩ := (prefixed_strip text).fronts
    obtain ⟨g, rest, hrest⟩ := List.exists_cons_of_ne_nil (ofBytes_ne_nil hne)
    rw [hlexeme] at hwritten
    obtain ⟨rfl, hchars⟩ := hwritten.symbol
    -- The symbol is its marks and what follows them, which starts with `g`.
    have hbody : body = front ++ g :: rest := by
      have hexact : Glyph.Exact body := hgs.append.2.append.1
      rw [← hrest, ← htext, hexact]
    refine ⟨before ++ front, rest ++ after, g, by simp [hbody], ?_,
      not_isSpace_of_isSymbolChar (hchars g (by simp [hbody]))⟩
    rw [hf, hpos, Position.after_append, Position.after_of_newlines_eq_zero hline, hlength]

end Reader

theorem foldlM_error {ε α σ : Type} {f : σ → α → Except ε σ} {s : σ} {as : List α} {e : ε}
    (h : as.foldlM f s = .error e) : ∃ a ∈ as, ∃ s', f s' a = .error e := by
  induction as generalizing s with
  | nil => cases h
  | cons a as ih =>
    rw [List.foldlM_cons] at h
    cases hs : f s a with
    | error e' =>
      rw [hs] at h
      exact ⟨a, List.mem_cons_self, s, hs.trans h⟩
    | ok s' =>
      rw [hs] at h
      obtain ⟨b, hb, hf⟩ := ih h
      exact ⟨b, List.mem_cons_of_mem a hb, hf⟩

theorem readAll_error {ts : List Token} {f : Flaw} (h : readAll ts = .error f) :
    ∃ t ∈ ts, ∃ r : Reader, r.feed t = .error f := by
  unfold readAll at h
  cases hs : ts.foldlM Reader.feed Reader.start with
  | error f' =>
    rw [hs] at h
    exact foldlM_error (hs.trans (congrArg Except.error (Except.error.inj h)))
  | ok r => rw [hs] at h; cases h

theorem readFirst_error {r : Reader} {ts : List Token} {f : Flaw}
    (h : readFirst r ts = .error f) : ∃ t ∈ ts, ∃ r : Reader, r.feed t = .error f := by
  induction ts generalizing r with
  | nil => cases h
  | cons t ts ih =>
    unfold readFirst at h
    cases hs : r.feed t with
    | error f' =>
      rw [hs] at h
      exact ⟨t, List.mem_cons_self, r, hs.trans (congrArg Except.error (Except.error.inj h))⟩
    | ok r' =>
      rw [hs] at h
      dsimp only [Except.bind] at h
      split at h
      · cases h
      · obtain ⟨u, hu, hf⟩ := ih h
        exact ⟨u, List.mem_cons_of_mem t hu, hf⟩

theorem parseWith_error {α : Type} {f : List Token → Except Flaw (Option α)} {src : Bytes}
    {e : SyntaxError} (h : parseWith f src = .error (.malformed e)) :
    tokenize src = .error e ∨
      ∃ ts flaw, tokenize src = .ok ts ∧ f ts = .error flaw ∧ flaw.locate src = e := by
  unfold parseWith at h
  split at h
  case h_1 e' he => exact .inl (by simpa using he.trans (by simpa using h))
  case h_2 ts hts =>
    split at h
    case h_1 flaw hflaw => exact .inr ⟨ts, flaw, hts, hflaw, by simpa using h⟩
    all_goals cases h

/-- A syntax error is a flaw at a character of the text. -/
theorem syntaxError_shows {src : Bytes} {e : SyntaxError}
    (h : tokenize src = .error e ∨ parseFirst src = .error (.malformed e) ∨
      parse src = .error (.malformed e)) :
    ∃ f : Flaw, Shows (Glyph.ofBytes src) f.pos ∧ f.locate src = e := by
  have hscan (h : tokenize src = .error e) :
      ∃ f : Flaw, Shows (Glyph.ofBytes src) f.pos ∧ f.locate src = e := by
    obtain ⟨f, hf, hlocate⟩ := tokenize_eq_error h
    exact ⟨⟨f.fault, f.place.pos⟩, (scan_shows hf).shows, (scan_locate hf).symm.trans hlocate⟩
  have hread {ts : List Token} {f : Flaw} (hts : tokenize src = .ok ts) (hlocate : f.locate src = e)
      (hfeed : ∃ t ∈ ts, ∃ r : Reader, r.feed t = .error f) :
      ∃ f : Flaw, Shows (Glyph.ofBytes src) f.pos ∧ f.locate src = e := by
    obtain ⟨t, ht, r, hf⟩ := hfeed
    exact ⟨f, Reader.feed_shows (tokenize_laid hts) (Glyph.exact_ofBytes src) ht hf, hlocate⟩
  rcases h with h | h | h
  · exact hscan h
  · rcases parseWith_error h with h | ⟨ts, f, hts, hf, hlocate⟩
    · exact hscan h
    · exact hread hts hlocate (readFirst_error hf)
  · rcases parseWith_error h with h | ⟨ts, f, hts, hf, hlocate⟩
    · exact hscan h
    · exact hread hts hlocate (readAll_error hf)

/-! ## The line and the caret -/

/-- `line` is line `n` of a text, from one: a part between newlines. -/
structure IsLine (src : Bytes) (n : Nat) (line : Bytes) : Prop where
  whole : (10 : UInt8) ∉ line
  cut : ∃ before after, src = before ++ line ++ after ∧ n = 1 + before.count 10 ∧
    (∀ b ∈ before.getLast?, b = 10) ∧ ∀ b ∈ after.head?, b = 10

/-- The error quotes its line of the text without one carriage return at the end, its column is
that of a character of the line other than a blank, and the last line of its message is a caret
behind a pad that is as wide as what stands before the character and has its tabs. -/
structure SyntaxError.PointsInto (e : SyntaxError) (src : Bytes) : Prop where
  line : ∃ line, IsLine src e.pos.line line ∧
    (line = e.text ++ [13] ∨ line = e.text ∧ e.text.getLast? ≠ some 13)
  col_pos : 1 ≤ e.pos.col
  col_le : e.pos.col ≤ Bytes.charCount e.text
  visible : ∀ g, (Glyph.ofBytes e.text)[e.pos.col - 1]? = some g → CharClass.isSpace g.char = false
  caret : ∃ pad, (Bytes.lines e.message).getLast? = some (pad ++ [94]) ∧
    pad.length = e.pos.col - 1 ∧
    ∀ i g, i < e.pos.col - 1 → (Glyph.ofBytes e.text)[i]? = some g →
      pad[i]? = some (if g.char = '\t' then 9 else 32)

theorem sourceLine_of_isLine {src line : Bytes} {n : Nat} (h : IsLine src n line) :
    sourceLine src n = Bytes.dropReturn line := by
  obtain ⟨before, after, rfl, rfl, hbefore, hafter⟩ := h.cut
  rcases List.eq_nil_or_concat before with rfl | ⟨before, b, rfl⟩
  · exact sourceLine_one h.whole after hafter
  · obtain rfl : b = 10 := hbefore b (by simp)
    have hn : 1 + (before.concat 10).count 10 = 1 + (before.count 10 + 1) := by simp
    rw [hn, List.concat_append, List.append_assoc, List.cons_append,
      sourceLine_append_right _ _ (Nat.le_refl 1), sourceLine_one h.whole after hafter]

/-- What is behind the last newline of one text and before the first of the next is a line of both
together. -/
theorem isLine_between (front back : Bytes) :
    IsLine (front ++ back) (Position.past front).line
      (front.rtakeWhile (· != 10) ++ back.takeWhile (· != 10)) := by
  have hlast : (10 : UInt8) ∉ front.rtakeWhile (· != 10) :=
    fun h => absurd (List.mem_rtakeWhile_imp h) (by decide)
  have hfirst : (10 : UInt8) ∉ back.takeWhile (· != 10) :=
    fun h => absurd (List.mem_takeWhile_imp h) (by decide)
  have hfront : front.rdropWhile (· != 10) ++ front.rtakeWhile (· != 10) = front :=
    List.rdropWhile_append_rtakeWhile
  have hback : back.takeWhile (· != 10) ++ back.dropWhile (· != 10) = back :=
    List.takeWhile_append_dropWhile
  refine ⟨by simp only [List.mem_append, hlast, hfirst, or_self, not_false_eq_true],
    front.rdropWhile (· != 10), back.dropWhile (· != 10), ?_, ?_, ?_, ?_⟩
  · rw [← List.append_assoc, hfront, List.append_assoc, hback]
  · have hcount := congrArg (List.count 10) hfront
    rw [List.count_append, List.count_eq_zero.mpr hlast] at hcount
    exact congrArg (1 + ·) hcount.symm
  · intro b hb
    obtain ⟨hne, rfl⟩ := List.mem_getLast?_eq_getLast hb
    simpa using List.rdropWhile_last_not (· != 10) front hne
  · exact fun b hb => eq_newline_of_head_dropWhile hb

theorem ofBytes_takeWhile_append (s : Bytes) : Glyph.ofBytes s =
    Glyph.ofBytes (s.takeWhile (· != 10)) ++ Glyph.ofBytes (s.dropWhile (· != 10)) := by
  have hsep : Glyph.Separate (s.dropWhile (· != 10)) := by
    intro b hb
    rw [eq_newline_of_head_dropWhile hb]
    decide
  rw [← Glyph.ofBytes_append _ hsep, List.takeWhile_append_dropWhile]

theorem ofBytes_append_rtakeWhile (s : Bytes) :
    ∃ before, Glyph.ofBytes s = before ++ Glyph.ofBytes (s.rtakeWhile (· != 10)) := by
  rcases Position.rtakeWhile_newline_cases s with h | ⟨before, h⟩
  · exact ⟨[], congrArg Glyph.ofBytes h⟩
  · refine ⟨Glyph.ofBytes before ++ [newline], ?_⟩
    rw [congrArg Glyph.ofBytes h, ofBytes_newline, List.append_assoc]
    rfl

/-- A text that is cut between two characters is cut so on the line of the cut. -/
theorem ofBytes_between {front back : Bytes}
    (h : Glyph.ofBytes (front ++ back) = Glyph.ofBytes front ++ Glyph.ofBytes back) :
    Glyph.ofBytes (front.rtakeWhile (· != 10) ++ back.takeWhile (· != 10)) =
      Glyph.ofBytes (front.rtakeWhile (· != 10)) ++ Glyph.ofBytes (back.takeWhile (· != 10)) := by
  obtain ⟨before, hfront⟩ := ofBytes_append_rtakeWhile front
  have hline : Glyph.ofBytes (front ++ back) = before ++
      ((Glyph.ofBytes (front.rtakeWhile (· != 10)) ++ Glyph.ofBytes (back.takeWhile (· != 10))) ++
        Glyph.ofBytes (back.dropWhile (· != 10))) := by
    rw [h, hfront, ofBytes_takeWhile_append back]
    simp only [List.append_assoc]
  have hexact := (Glyph.exact_of_ofBytes_eq hline).2.append.1
  rwa [Glyph.Exact, Glyph.toBytes_append, Glyph.toBytes_ofBytes, Glyph.toBytes_ofBytes] at hexact

/-- A character other than a blank is the first of the rest of its line. -/
theorem ofBytes_takeWhile_cons {s : Bytes} {g : Glyph} {gs : List Glyph}
    (h : Glyph.ofBytes s = g :: gs) (hg : CharClass.isSpace g.char = false) :
    ∃ row, Glyph.ofBytes (s.takeWhile (· != 10)) = g :: row := by
  rw [ofBytes_takeWhile_append] at h
  cases hrow : Glyph.ofBytes (s.takeWhile (· != 10)) with
  | cons g' row =>
    rw [hrow] at h
    exact ⟨row, by rw [(List.cons.inj h).1]⟩
  | nil =>
    -- Else the line ends here, and the character is the newline.
    rw [hrow, List.nil_append] at h
    cases hrest : s.dropWhile (· != 10) with
    | nil =>
      rw [hrest] at h
      cases h
    | cons b rest =>
      obtain rfl : b = 10 := eq_newline_of_head_dropWhile (by rw [hrest]; rfl)
      rw [hrest, Glyph.ofBytes_ascii (by decide)] at h
      rw [← (List.cons.inj h).1] at hg
      exact absurd hg (by decide)

/-- The character at a place is on the line of that place, in its column. -/
theorem Shows.line {src : Bytes} {p : Position} (h : Shows (Glyph.ofBytes src) p) :
    ∃ line g, IsLine src p.line line ∧ 1 ≤ p.col ∧
      (Glyph.ofBytes line)[p.col - 1]? = some g ∧ CharClass.isSpace g.char = false := by
  obtain ⟨gs, hs, g, hsrc, hp, hg⟩ := h
  obtain ⟨hgs, hhs⟩ := Glyph.exact_of_ofBytes_eq hsrc
  have hbytes := Glyph.bytes_of_ofBytes_eq hsrc
  unfold Glyph.Exact at hgs hhs
  generalize Glyph.toBytes gs = front at hbytes hgs
  generalize Glyph.toBytes (g :: hs) = back at hbytes hhs
  have hpast : p = Position.past front := by rw [hp, ← hgs, Position.after_ofBytes]
  refine ⟨_, g, hbytes ▸ hpast ▸ isLine_between front back, hpast ▸ Nat.le_add_right 1 _, ?_, hg⟩
  obtain ⟨row, hrow⟩ := ofBytes_takeWhile_cons hhs hg
  have hcol : p.col - 1 = (Glyph.ofBytes (front.rtakeWhile (· != 10))).length := by
    rw [hpast, Position.past, Nat.add_sub_cancel_left, Bytes.charCount]
  rw [ofBytes_between (by rw [← hbytes, hsrc, hgs, hhs]), hrow, hcol,
    List.getElem?_append_right (Nat.le_refl _), Nat.sub_self, List.getElem?_cons_zero]

/-- One carriage return at the end of a line is the last of its characters. -/
theorem dropReturn_cases (line : Bytes) :
    (line = Bytes.dropReturn line ++ [13] ∧
      Glyph.ofBytes line = Glyph.ofBytes (Bytes.dropReturn line) ++ [Glyph.ascii 13]) ∨
    line = Bytes.dropReturn line ∧ (Bytes.dropReturn line).getLast? ≠ some 13 := by
  by_cases h : line.getLast? = some 13
  · obtain ⟨front, rfl⟩ := List.getLast?_eq_some_iff.mp h
    have hdrop : Bytes.dropReturn (front ++ [13]) = front := by simp [Bytes.dropReturn]
    have hsep : Glyph.Separate [13] := by simp [Glyph.Separate]
    rw [hdrop, Glyph.ofBytes_append front hsep]
    exact .inl ⟨rfl, rfl⟩
  · have hdrop : Bytes.dropReturn line = line := if_neg h
    rw [hdrop]
    exact .inr ⟨rfl, h⟩

theorem getElem?_dropReturn {line : Bytes} {n : Nat} {g : Glyph}
    (h : (Glyph.ofBytes line)[n]? = some g) (hg : CharClass.isSpace g.char = false) :
    (Glyph.ofBytes (Bytes.dropReturn line))[n]? = some g := by
  rcases dropReturn_cases line with ⟨-, hline⟩ | ⟨hline, -⟩
  · rw [hline] at h
    rcases Nat.lt_or_ge n (Glyph.ofBytes (Bytes.dropReturn line)).length with hlt | hge
    · rwa [List.getElem?_append_left hlt] at h
    · rw [List.getElem?_append_right hge] at h
      obtain rfl := List.mem_singleton.mp (List.mem_of_getElem? h)
      exact absurd hg (by decide)
  · rwa [← hline]

namespace SyntaxError

theorem caretPad_eq {e : SyntaxError} (h : e.pos.col ≤ Bytes.charCount e.text) :
    e.caretPad = ((Glyph.ofBytes e.text).take (e.pos.col - 1)).map
      fun g => if g.char == '\t' then (9 : UInt8) else 32 := by
  unfold Bytes.charCount at h
  have hlen : e.pos.col - 1 - min (e.pos.col - 1) (Glyph.ofBytes e.text).length = 0 := by omega
  simp [caretPad, hlen]

theorem lines_message (e : SyntaxError) :
    (Bytes.lines e.message).getLast? = some (e.caretPad ++ [94]) := by
  have hpad : (10 : UInt8) ∉ e.caretPad ++ [94] := by
    intro h
    rcases List.mem_append.mp h with h | h
    · rcases List.mem_append.mp h with h | h
      · obtain ⟨g, -, hg⟩ := List.mem_map.mp h
        split at hg <;> exact absurd hg (by decide)
      · exact absurd (List.eq_of_mem_replicate h) (by decide)
    · exact absurd h (by decide)
  have hmessage : ∃ front, e.message = front ++ 10 :: (e.caretPad ++ [94]) := by
    unfold message
    rw [List.append_assoc, List.cons_append]
    exact ⟨_, rfl⟩
  obtain ⟨front, hfront⟩ := hmessage
  rw [hfront, Bytes.lines_append, Bytes.lines_of_not_mem hpad, List.getLast?_concat]

end SyntaxError

theorem Shows.pointsInto {src : Bytes} {f : Flaw} (h : Shows (Glyph.ofBytes src) f.pos) :
    (f.locate src).PointsInto src := by
  obtain ⟨line, g, hline, hpos, hat, hg⟩ := h.line
  have htext : (f.locate src).text = Bytes.dropReturn line := sourceLine_of_isLine hline
  have hshown := getElem?_dropReturn hat hg
  have hcol : f.pos.col ≤ Bytes.charCount (Bytes.dropReturn line) := by
    obtain ⟨hlt, -⟩ := List.getElem?_eq_some_iff.mp hshown
    unfold Bytes.charCount
    omega
  have hpad := SyntaxError.caretPad_eq (e := f.locate src) (htext ▸ hcol)
  refine ⟨⟨line, hline, ?_⟩, hpos, htext ▸ hcol, fun g' hg' => ?_,
    _, SyntaxError.lines_message _, ?_, fun i g' hi hg' => ?_⟩
  · rw [htext]
    rcases dropReturn_cases line with ⟨h, -⟩ | ⟨h, hlast⟩
    · exact .inl h
    · exact .inr ⟨h, hlast⟩
  · rw [htext, Flaw.locate, hshown] at hg'
    obtain rfl := Option.some.inj hg'
    exact hg
  · rw [hpad, List.length_map, List.length_take, Nat.min_eq_left]
    have hlen : (f.locate src).pos.col ≤ Bytes.charCount (f.locate src).text := htext ▸ hcol
    unfold Bytes.charCount at hlen
    omega
  · simp [hpad, List.getElem?_take_of_lt hi, hg']

/-- Every syntax error points at a character of its text, whether the scanner or the reader
raises it. -/
theorem syntaxError_pointsInto {src : Bytes} {e : SyntaxError}
    (h : tokenize src = .error e ∨ parseFirst src = .error (.malformed e) ∨
      parse src = .error (.malformed e)) : e.PointsInto src := by
  obtain ⟨f, hf, rfl⟩ := syntaxError_shows h
  exact hf.pointsInto

/-- The scanner stops inside of a string that began on the line before. -/
def secondLineEscape : Bytes := Bytes.ofString "\"é\n\t\\q\"\r\n"

/-- The reader stops inside of a symbol, behind its mark. -/
def quotedNumber : Bytes := Bytes.ofString "(a\r\n\t'1x\r\n)"

theorem secondLineEscape_error : tokenize secondLineEscape =
    .error ⟨.unknownEscape 'q', ⟨2, 2⟩, Bytes.ofString "\t\\q\""⟩ := rfl

theorem quotedNumber_error : parse quotedNumber =
    .error (.malformed ⟨.malformedNumber (Bytes.ofString "1x"), ⟨2, 3⟩,
      Bytes.ofString "\t'1x"⟩) := rfl

theorem secondLines_pointedInto :
    (tokenize secondLineEscape =
        .error ⟨.unknownEscape 'q', ⟨2, 2⟩, Bytes.ofString "\t\\q\""⟩ ∧
      SyntaxError.PointsInto ⟨.unknownEscape 'q', ⟨2, 2⟩, Bytes.ofString "\t\\q\""⟩
        secondLineEscape) ∧
    parse quotedNumber =
        .error (.malformed ⟨.malformedNumber (Bytes.ofString "1x"), ⟨2, 3⟩,
          Bytes.ofString "\t'1x"⟩) ∧
      SyntaxError.PointsInto ⟨.malformedNumber (Bytes.ofString "1x"), ⟨2, 3⟩,
        Bytes.ofString "\t'1x"⟩ quotedNumber :=
  ⟨⟨secondLineEscape_error, syntaxError_pointsInto (.inl secondLineEscape_error)⟩,
    quotedNumber_error, syntaxError_pointsInto (.inr (.inr quotedNumber_error))⟩

end SmallLisp
