import Mathlib.Data.List.DropRight
import SmallLisp.Proofs.Newline
import SmallLisp.Proofs.RoundTrip

/-! Where the tokens of a text stand in it. The lexemes follow each other in the order of the
tokens, with nothing but blanks and comments before, between and after them, and a token's position
counts the lines and characters in front of its lexeme (`tokenize_layout`). Read from any character
on, the scanner lays out what is left of the text (`steps_goesOn`); from characters this is carried
over to bytes (`Laid.layout`). -/
namespace SmallLisp

/-! ## Parts of a text -/

namespace Glyph

/-- The characters are those that their bytes are read as. -/
def Exact (gs : List Glyph) : Prop := ofBytes (toBytes gs) = gs

theorem exact_ofBytes (s : Bytes) : Exact (ofBytes s) := by
  rw [Exact, toBytes_ofBytes]

theorem exact_nil_append {s : Bytes} {hs : List Glyph} (h : ofBytes s = [] ++ hs) :
    Exact [] ∧ Exact hs := by
  rw [List.nil_append] at h
  exact ⟨rfl, h ▸ exact_ofBytes s⟩

/-- What is read as one character in a text is read so in every part of it that holds all its
bytes. -/
theorem exact_of_ofBytes_eq {s : Bytes} {gs hs : List Glyph} (h : ofBytes s = gs ++ hs) :
    Exact gs ∧ Exact hs := by
  induction s using byGlyphs generalizing gs with
  | nil =>
    obtain ⟨rfl, rfl⟩ := List.append_eq_nil_iff.mp h.symm
    exact ⟨rfl, rfl⟩
  | ascii b s hb ih =>
    cases gs with
    | nil => exact exact_nil_append h
    | cons g gs =>
      rw [ofBytes_ascii hb] at h
      obtain ⟨rfl, htail⟩ := List.cons.inj (h.trans (List.cons_append ..))
      obtain ⟨hgs, hhs⟩ := ih htail
      exact ⟨(ofBytes_ascii hb (toBytes gs)).trans (congrArg _ hgs), hhs⟩
  | invalid b s hb hd ih =>
    cases gs with
    | nil => exact exact_nil_append h
    | cons g gs =>
      rw [ofBytes_invalid hd] at h
      obtain ⟨rfl, htail⟩ := List.cons.inj (h.trans (List.cons_append ..))
      obtain ⟨hgs, hhs⟩ := ih htail
      have hsplit : s = toBytes gs ++ toBytes hs := bytes_of_ofBytes_eq htail
      have hd' : decode b (toBytes gs) = (replacement, 0) :=
        decode_invalid_of_prefix hb hd fun more rest _ hm =>
          ⟨rest ++ toBytes hs, by rw [hsplit, hm, List.append_assoc]⟩
      exact ⟨(ofBytes_invalid hd').trans (congrArg _ hgs), hhs⟩
  | encoded b more c s henc ih =>
    cases gs with
    | nil => exact exact_nil_append h
    | cons g gs =>
      rw [henc.ofBytes] at h
      obtain ⟨rfl, htail⟩ := List.cons.inj (h.trans (List.cons_append ..))
      obtain ⟨hgs, hhs⟩ := ih htail
      exact ⟨(henc.ofBytes (toBytes gs)).trans (congrArg _ hgs), hhs⟩

theorem Exact.append {gs hs : List Glyph} (h : Exact (gs ++ hs)) : Exact gs ∧ Exact hs :=
  exact_of_ofBytes_eq h

/-- An ASCII character has one byte. -/
theorem raw_of_ascii {s : Bytes} :
    ∀ g ∈ ofBytes s, g.char.toNat < 0x80 → g.raw = Bytes.ofChar g.char := by
  induction s using byGlyphs with
  | nil => simp
  | ascii b s hb ih =>
    rw [ofBytes_ascii hb, List.forall_mem_cons]
    refine ⟨fun _ => ?_, ih⟩
    rw [ofChar_ascii hb]
    rfl
  | invalid b s _ hd ih =>
    rw [ofBytes_invalid hd, List.forall_mem_cons]
    have hr : ¬ replacement.toNat < 0x80 := by decide
    exact ⟨fun h => absurd h hr, ih⟩
  | encoded b more c s henc ih =>
    rw [henc.ofBytes, List.forall_mem_cons]
    exact ⟨fun _ => henc.ofChar_eq.symm, ih⟩

end Glyph

/-! ## Positions -/

namespace Position

/-- Where a text goes on behind the bytes `before`: on the line that comes after as many newlines,
and behind as many characters as follow the last of them. -/
def past (before : Bytes) : Position :=
  ⟨1 + before.count 10, 1 + Bytes.charCount (before.rtakeWhile (· != 10))⟩

theorem after_of_newlines_eq_zero {gs : List Glyph} (h : newlines gs = 0) (p : Position) :
    p.after gs = ⟨p.line, p.col + gs.length⟩ := by
  induction gs generalizing p with
  | nil => rfl
  | cons g gs ih =>
    have hg : (g.char == '\n') = false := by
      cases hg : g.char == '\n' with
      | true => simp [newlines, hg] at h
      | false => rfl
    have hnext : p.next g.char = ⟨p.line, p.col + 1⟩ := by simp [next, hg]
    have hgs : newlines gs = 0 := by simpa [newlines, hg] using h
    have hcol : p.col + 1 + gs.length = p.col + (gs.length + 1) := by omega
    change (p.next g.char).after gs = _
    rw [ih hgs, hnext, List.length_cons, hcol]

/-- Counting goes on behind the last newline. -/
theorem after_newline {gs hs : List Glyph} (h : newlines hs = 0) (p : Position) :
    p.after (gs ++ newline :: hs) = ⟨p.line + newlines gs + 1, 1 + hs.length⟩ := by
  rw [after_append]
  change ((p.after gs).next '\n').after hs = _
  rw [after_of_newlines_eq_zero h, ← after_line]
  rfl

/-- A text is its last line, behind a newline unless it is the only one. -/
theorem rtakeWhile_newline_cases (s : Bytes) :
    s = s.rtakeWhile (· != 10) ∨ ∃ before, s = before ++ 10 :: s.rtakeWhile (· != 10) := by
  have hs : s.rdropWhile (· != 10) ++ s.rtakeWhile (· != 10) = s :=
    List.rdropWhile_append_rtakeWhile
  rcases List.eq_nil_or_concat (s.rdropWhile (· != 10)) with hnil | ⟨before, b, hcons⟩
  · rw [hnil] at hs
    exact .inl hs.symm
  · have hne : s.rdropWhile (· != 10) ≠ [] := by simp [hcons]
    have hb : b = 10 := by simpa [hcons] using List.rdropWhile_last_not (· != 10) s hne
    rw [hcons, hb, List.concat_append] at hs
    exact .inr ⟨before, hs.symm⟩

/-- The scanner's count is the one from the start of the text. -/
theorem after_ofBytes (s : Bytes) : (⟨1, 1⟩ : Position).after (Glyph.ofBytes s) = past s := by
  unfold past
  generalize hlast : s.rtakeWhile (· != 10) = last
  have hcount : last.count 10 = 0 := by
    refine List.count_eq_zero.mpr fun hm => ?_
    exact absurd (List.mem_rtakeWhile_imp (hlast ▸ hm)) (by decide)
  have hline : newlines (Glyph.ofBytes last) = 0 := by rw [newlines_ofBytes, hcount]
  rcases hlast ▸ rtakeWhile_newline_cases s with rfl | ⟨before, rfl⟩
  · rw [after_of_newlines_eq_zero hline, hcount]
    rfl
  · rw [ofBytes_newline, after_newline hline, newlines_ofBytes, List.count_append,
      List.count_cons_self, hcount]
    rfl

end Position

/-! ## What stands in a text -/

/-- What the characters between the quotes of a string stand for: themselves, or with a backslash a
newline, a tab, a quote, a backslash or the byte with two digits of base 16. -/
inductive Unescapes : List Glyph → Bytes → Prop
  | nil : Unescapes [] []
  | plain {g : Glyph} {gs : List Glyph} {s : Bytes} (quote : g.char ≠ '"')
      (backslash : g.char ≠ '\\') (rest : Unescapes gs s) :
      Unescapes (g :: gs) (Bytes.ofChar g.char ++ s)
  | letter {b e : Glyph} {gs : List Glyph} {x : UInt8} {s : Bytes} (backslash : b.char = '\\')
      (escape : (e.char, x) ∈ [('n', 10), ('t', 9), ('"', 34), ('\\', 92)])
      (rest : Unescapes gs s) : Unescapes (b :: e :: gs) (x :: s)
  | hex {b e h l : Glyph} {gs : List Glyph} {m n : Nat} {s : Bytes} (backslash : b.char = '\\')
      (escape : e.char = 'x') (high : hexValue? h.char = some m) (low : hexValue? l.char = some n)
      (rest : Unescapes gs s) :
      Unescapes (b :: e :: h :: l :: gs) (UInt8.ofNat (16 * m + n) :: s)

inductive Spells : Bytes → Lexeme → Prop
  | opening (b : Bracket) : Spells b.openText (.opening b)
  | closing (b : Bracket) : Spells b.closeText (.closing b)
  | symbol {w : Bytes} (word : IsWord w) (name : ¬ StartsNumber (Glyph.ofBytes w)) :
      Spells w (.symbol w)
  | number {w : Bytes} {v : Literal.Numeral} (word : IsWord w)
      (numeric : StartsNumber (Glyph.ofBytes w)) (value : Literal.number? w = some v) :
      Spells w (.number w v)
  | string {body s : Bytes} (contents : Unescapes (Glyph.ofBytes body) s) :
      Spells (34 :: body ++ [34]) (.string s)

/-- A lexeme that goes on as long as symbol characters follow. -/
def Lexeme.IsRun : Lexeme → Prop
  | .symbol _ | .number _ _ => True
  | _ => False

/-- No symbol character follows directly on a symbol or number. -/
def Lexeme.Apart (l : Lexeme) (after : List Glyph) : Prop :=
  l.IsRun → ∀ g ∈ after.head?, isSymbolChar g.char = false

/-- Blanks, and comments with the newline that ends them. -/
inductive Blank : List Glyph → Prop
  | nil : Blank []
  | space {g : Glyph} {gs : List Glyph} (h : CharClass.isSpace g.char = true) (rest : Blank gs) :
      Blank (g :: gs)
  | comment {s n : Glyph} {note gs : List Glyph} (semicolon : s.char = ';')
      (line : newlines note = 0) (hn : n.char = '\n') (rest : Blank gs) :
      Blank (s :: note ++ n :: gs)

/-- What may stand behind the last lexeme: blanks and comments, the last of which may be open. -/
inductive Trailing : List Glyph → Prop
  | blank {gs : List Glyph} (h : Blank gs) : Trailing gs
  | comment {s : Glyph} {gs note : List Glyph} (h : Blank gs) (semicolon : s.char = ';')
      (line : newlines note = 0) : Trailing (gs ++ s :: note)

/-- From the byte offset `start` on, the text consists of the lexemes of the tokens at the given
offsets, each where its token says, of blanks between them, and of what trails them. -/
inductive Layout (src : Bytes) : Nat → List Token → List Nat → Prop
  | nil {start : Nat} (trailing : Trailing (Glyph.ofBytes (src.drop start))) :
      Layout src start [] []
  | cons {start offset : Nat} {spelling : Bytes} {t : Token} {ts : List Token} {offsets : List Nat}
      (le : start ≤ offset) (gap : Blank (Glyph.ofBytes ((src.take offset).drop start)))
      (spelled : Spells spelling t.lexeme) (here : spelling <+: src.drop offset)
      (apart : t.lexeme.Apart (Glyph.ofBytes (src.drop (offset + spelling.length))))
      (pos : t.pos = Position.past (src.take offset))
      (rest : Layout src (offset + spelling.length) ts offsets) :
      Layout src start (t :: ts) (offset :: offsets)

/-! ## Laying out what is left of a text -/

def Bracket.openChar : Bracket → Char
  | .round => '('
  | .curly => '\x7b'

def Bracket.closeChar : Bracket → Char
  | .round => ')'
  | .curly => '\x7d'

inductive Written : List Glyph → Lexeme → Prop
  | opening {g : Glyph} {b : Bracket} (h : g.char = b.openChar) : Written [g] (.opening b)
  | closing {g : Glyph} {b : Bracket} (h : g.char = b.closeChar) : Written [g] (.closing b)
  | run {gs : List Glyph} {l : Lexeme} (ne : gs ≠ [])
      (chars : ∀ g ∈ gs, isSymbolChar g.char = true) (h : Lexeme.ofRun gs = .ok l) : Written gs l
  | string {o c : Glyph} {body : List Glyph} {s : Bytes} (opens : o.char = '"')
      (closes : c.char = '"') (contents : Unescapes body s) : Written (o :: body ++ [c]) (.string s)

/-- The characters `gs`, the first of which is at `p`, are the lexemes of the tokens with blanks
between them. -/
inductive Laid : Position → List Glyph → List Token → Prop
  | last {p : Position} {gs : List Glyph} (trailing : Trailing gs) : Laid p gs []
  | cons {p : Position} {gap body rest : List Glyph} {l : Lexeme} {ts : List Token}
      (blank : Blank gap) (written : Written body l) (apart : l.Apart rest)
      (laid : Laid ((p.after gap).after body) rest ts) :
      Laid p (gap ++ (body ++ rest)) (⟨l, p.after gap⟩ :: ts)

theorem Blank.append {gs hs : List Glyph} (h : Blank gs) (hhs : Blank hs) : Blank (gs ++ hs) := by
  induction h with
  | nil => exact hhs
  | space h _ ih => exact .space h ih
  | comment semicolon line hn _ ih =>
    rw [List.append_assoc]
    exact .comment semicolon line hn ih

theorem Blank.trailing {gs hs : List Glyph} (h : Blank gs) (hhs : Trailing hs) :
    Trailing (gs ++ hs) := by
  cases hhs with
  | blank hb => exact .blank (h.append hb)
  | comment hb semicolon line =>
    rw [← List.append_assoc]
    exact .comment (h.append hb) semicolon line

theorem Laid.gap {p : Position} {gap gs : List Glyph} {ts : List Token} (h : Blank gap)
    (hl : Laid (p.after gap) gs ts) : Laid p (gap ++ gs) ts := by
  cases hl with
  | last trailing => exact .last (h.trailing trailing)
  | cons blank written apart laid =>
    rw [← Position.after_append p] at laid ⊢
    rw [← List.append_assoc]
    exact .cons (h.append blank) written apart laid

theorem Laid.lexeme {p : Position} {body rest : List Glyph} {l : Lexeme} {ts : List Token}
    (written : Written body l) (apart : l.Apart rest) (laid : Laid (p.after body) rest ts) :
    Laid p (body ++ rest) (⟨l, p⟩ :: ts) :=
  .cons .nil written apart laid

inductive CommentGoesOn : Position → List Glyph → List Token → Prop
  | open {p : Position} {note : List Glyph} (line : newlines note = 0) : CommentGoesOn p note []
  | ended {p : Position} {note rest : List Glyph} {n : Glyph} {ts : List Token}
      (line : newlines note = 0) (hn : n.char = '\n')
      (laid : Laid (p.after (note ++ [n])) rest ts) : CommentGoesOn p (note ++ n :: rest) ts

/-- The characters go on with the symbol or number that starts at `start` with `seen`, which is in
reverse. -/
inductive RunGoesOn (start : Position) (seen : List Glyph) :
    Position → List Glyph → List Token → Prop
  | mk {p : Position} {more rest : List Glyph} {l : Lexeme} {ts : List Token}
      (chars : ∀ g ∈ more, isSymbolChar g.char = true)
      (h : Lexeme.ofRun (seen.reverse ++ more) = .ok l)
      (apart : ∀ g ∈ rest.head?, isSymbolChar g.char = false) (laid : Laid (p.after more) rest ts) :
      RunGoesOn start seen p (more ++ rest) (⟨l, start⟩ :: ts)

/-- The characters go on with the string that starts at `start` and has the contents `seen`, in
reverse, in front of the escape that begins with `back`. -/
inductive StringGoesOn (start : Position) (seen : Bytes) (back : List Glyph) :
    Position → List Glyph → List Token → Prop
  | mk {p : Position} {body rest : List Glyph} {q : Glyph} {s : Bytes} {ts : List Token}
      (contents : Unescapes (back ++ body) s) (hq : q.char = '"')
      (laid : Laid (p.after (body ++ [q])) rest ts) :
      StringGoesOn start seen back p (body ++ q :: rest)
        (⟨.string (seen.reverse ++ s), start⟩ :: ts)

/-- What is left of a text, from the inside of a lexeme or a comment on. -/
def Mode.GoesOn : Mode → Position → List Glyph → List Token → Prop
  | .blank, p, gs, ts => Laid p gs ts
  | .comment, p, gs, ts => CommentGoesOn p gs ts
  | .run start seen, p, gs, ts => RunGoesOn start.pos seen p gs ts
  | .string start seen, p, gs, ts => StringGoesOn start.pos seen [] p gs ts
  | .escape start seen _, p, gs, ts =>
    ∀ b : Glyph, b.char = '\\' → StringGoesOn start.pos seen [b] p gs ts
  | .hexHigh start seen _, p, gs, ts =>
    ∀ b e : Glyph, b.char = '\\' → e.char = 'x' → StringGoesOn start.pos seen [b, e] p gs ts
  | .hexLow start seen _ high, p, gs, ts =>
    ∀ b e h : Glyph, b.char = '\\' → e.char = 'x' → hexValue? h.char = some high →
      StringGoesOn start.pos seen [b, e, h] p gs ts

section

variable {start p : Position} {gs : List Glyph} {g : Glyph} {ts : List Token}

theorem newlines_eq_zero_cons (hg : g.char ≠ '\n') (h : newlines gs = 0) :
    newlines (g :: gs) = 0 := by
  simpa [newlines, hg] using h

theorem CommentGoesOn.cons (hg : g.char ≠ '\n') (h : CommentGoesOn (p.next g.char) gs ts) :
    CommentGoesOn p (g :: gs) ts := by
  cases h with
  | «open» line => exact .open (newlines_eq_zero_cons hg line)
  | ended line hn laid =>
    rw [← List.cons_append]
    exact .ended (newlines_eq_zero_cons hg line) hn laid

theorem CommentGoesOn.newline (hg : g.char = '\n') (h : Laid (p.next g.char) gs ts) :
    CommentGoesOn p (g :: gs) ts := by
  rw [← List.nil_append (g :: gs)]
  exact .ended rfl hg h

theorem RunGoesOn.cons {seen : List Glyph} (hg : isSymbolChar g.char = true)
    (h : RunGoesOn start (g :: seen) (p.next g.char) gs ts) :
    RunGoesOn start seen p (g :: gs) ts := by
  obtain ⟨chars, hl, apart, laid⟩ := h
  rw [List.reverse_cons, List.append_assoc] at hl
  rw [← List.cons_append]
  exact .mk (List.forall_mem_cons.mpr ⟨hg, chars⟩) hl apart laid

theorem RunGoesOn.ends {seen : List Glyph} {l : Lexeme} (hl : Lexeme.ofRun seen.reverse = .ok l)
    (apart : ∀ g ∈ gs.head?, isSymbolChar g.char = false) (laid : Laid p gs ts) :
    RunGoesOn start seen p gs (⟨l, start⟩ :: ts) := by
  rw [← List.nil_append gs]
  rw [← List.append_nil seen.reverse] at hl
  exact .mk (List.forall_mem_nil _) hl apart laid

variable {seen : Bytes} {back : List Glyph}

theorem StringGoesOn.ends (hg : g.char = '"') (laid : Laid (p.next g.char) gs ts) :
    StringGoesOn start seen [] p (g :: gs) (⟨.string seen.reverse, start⟩ :: ts) := by
  rw [← List.nil_append (g :: gs), ← List.append_nil seen.reverse]
  exact .mk .nil hg laid

/-- One more character of an escape. -/
theorem StringGoesOn.escape (h : StringGoesOn start seen (back ++ [g]) (p.next g.char) gs ts) :
    StringGoesOn start seen back p (g :: gs) ts := by
  obtain ⟨contents, hq, laid⟩ := h
  rw [List.append_assoc] at contents
  rw [← List.cons_append]
  exact .mk contents hq laid

/-- The character that completes what stands for some bytes of the contents. -/
theorem StringGoesOn.stands (xs : Bytes)
    (hxs : ∀ {body s}, Unescapes body s → Unescapes (back ++ g :: body) (xs ++ s))
    (h : StringGoesOn start (xs.reverse ++ seen) [] (p.next g.char) gs ts) :
    StringGoesOn start seen back p (g :: gs) ts := by
  obtain ⟨contents, hq, laid⟩ := h
  rw [List.reverse_append, List.reverse_reverse, List.append_assoc, ← List.cons_append]
  exact .mk (hxs contents) hq laid

end

namespace Scanner

inductive BlankStep (s : Scanner) (g : Glyph) : Scanner → Prop
  | space (h : CharClass.isSpace g.char = true) : BlankStep s g (s.move g .blank)
  | comment (h : g.char = ';') : BlankStep s g (s.move g .comment)
  | bracket {l : Lexeme} (h : Written [g] l) (hl : ¬ l.IsRun) :
      BlankStep s g ((s.emit l s.here).move g .blank)
  | string (h : g.char = '"') : BlankStep s g (s.move g (.string s.here []))
  | run (h : isSymbolChar g.char = true) : BlankStep s g (s.move g (.run s.here [g]))

theorem blankStep_of_ok {s s' : Scanner} {g : Glyph} (h : s.stepBlank g = .ok s') :
    BlankStep s g s' := by
  unfold stepBlank at h
  dsimp only at h
  split at h
  · next hc => exact Except.ok.inj h ▸ .space hc
  split at h
  · next hc => exact Except.ok.inj h ▸ .comment (eq_of_beq hc)
  split at h
  · next hc => exact Except.ok.inj h ▸ .bracket (.opening (b := .round) (eq_of_beq hc)) id
  split at h
  · next hc => exact Except.ok.inj h ▸ .bracket (.closing (b := .round) (eq_of_beq hc)) id
  split at h
  · next hc => exact Except.ok.inj h ▸ .bracket (.opening (b := .curly) (eq_of_beq hc)) id
  split at h
  · next hc => exact Except.ok.inj h ▸ .bracket (.closing (b := .curly) (eq_of_beq hc)) id
  split at h
  · next hc => exact Except.ok.inj h ▸ .string (eq_of_beq hc)
  split at h
  · next hc => exact Except.ok.inj h ▸ .run hc
  · cases h

/-- A character outside of all lexemes and what it begins. -/
theorem BlankStep.laid {s s' : Scanner} {g : Glyph} {gs : List Glyph} {ts : List Token}
    (h : BlankStep s g s') (hgs : s'.mode.GoesOn s'.here.pos gs ts) :
    ∃ us, s'.tokens.reverse ++ ts = s.tokens.reverse ++ us ∧ Laid s.here.pos (g :: gs) us := by
  cases h with
  | space h => exact ⟨ts, rfl, Laid.gap (.space h .nil) hgs⟩
  | comment h =>
    refine ⟨ts, rfl, ?_⟩
    cases hgs with
    | «open» line => exact .last (.comment .nil h line)
    | ended line hn laid =>
      have hgap := Laid.gap (p := s.here.pos) (.comment h line hn .nil) laid
      rwa [List.append_assoc] at hgap
  | @bracket l h hl =>
    refine ⟨⟨l, s.here.pos⟩ :: ts, ?_, .lexeme h (fun hr => absurd hr hl) hgs⟩
    simp [move, emit]
  | string h =>
    obtain ⟨contents, hq, laid⟩ := hgs
    refine ⟨_, rfl, ?_⟩
    have hstring := Laid.lexeme (p := s.here.pos) (.string h hq contents) (fun hr => hr.elim) laid
    rwa [List.append_assoc] at hstring
  | run h =>
    obtain ⟨chars, hl, apart, laid⟩ := hgs
    exact ⟨_, rfl, .lexeme (.run (List.cons_ne_nil _ _) (List.forall_mem_cons.mpr ⟨h, chars⟩) hl)
      (fun _ => apart) laid⟩

theorem stepEscape_goesOn {s s' : Scanner} {g : Glyph} {start esc : Place} {seen : Bytes}
    {gs : List Glyph} {ts : List Token} (h : s.stepEscape g start seen esc = .ok s')
    (hgs : s'.mode.GoesOn s'.here.pos gs ts) :
    ∃ us, s'.tokens.reverse ++ ts = s.tokens.reverse ++ us ∧
      (Mode.escape start seen esc).GoesOn s.here.pos (g :: gs) us := by
  have hletter {x : UInt8} (hx : (g.char, x) ∈ [('n', 10), ('t', 9), ('"', 34), ('\\', 92)])
      (hs : s' = s.move g (.string start (x :: seen))) :
      ∃ us, s'.tokens.reverse ++ ts = s.tokens.reverse ++ us ∧
        (Mode.escape start seen esc).GoesOn s.here.pos (g :: gs) us := by
    subst hs
    exact ⟨ts, rfl, fun b hb => StringGoesOn.stands [x] (.letter hb hx) hgs⟩
  unfold stepEscape at h
  dsimp only at h
  split at h
  · next hc => exact hletter (by simp [eq_of_beq hc]) (Except.ok.inj h).symm
  split at h
  · next hc => exact hletter (by simp [eq_of_beq hc]) (Except.ok.inj h).symm
  split at h
  · next hc => exact hletter (by simp [eq_of_beq hc]) (Except.ok.inj h).symm
  split at h
  · next hc => exact hletter (by simp [eq_of_beq hc]) (Except.ok.inj h).symm
  split at h
  · next hc =>
    obtain rfl := Except.ok.inj h
    exact ⟨ts, rfl, fun b hb => StringGoesOn.escape (hgs b g hb (eq_of_beq hc))⟩
  · cases h

/-- One step: what the scanner finds behind the character is what it finds from the character on,
less what the character itself completes. -/
theorem step_goesOn {s s' : Scanner} {g : Glyph} {gs : List Glyph} {ts : List Token}
    (h : s.step g = .ok s') (hgs : s'.mode.GoesOn s'.here.pos gs ts) :
    ∃ us, s'.tokens.reverse ++ ts = s.tokens.reverse ++ us ∧
      s.mode.GoesOn s.here.pos (g :: gs) us := by
  obtain ⟨mode, here, tokens⟩ := s
  cases mode with
  | blank => exact (blankStep_of_ok h).laid hgs
  | comment =>
    obtain rfl := Except.ok.inj h
    refine ⟨ts, rfl, ?_⟩
    by_cases hg : g.char = '\n'
    · have hlaid : Laid (here.next g).pos gs ts := by
        simpa only [move, hg, beq_self_eq_true, if_true, Mode.GoesOn] using hgs
      exact .newline hg hlaid
    · simp only [move, beq_eq_false_iff_ne.mpr hg] at hgs
      exact .cons hg hgs
  | run start seen =>
    simp only [step] at h
    split at h
    case isTrue hg =>
      obtain rfl := Except.ok.inj h
      exact ⟨ts, rfl, RunGoesOn.cons hg hgs⟩
    case isFalse hg =>
      unfold endRun at h
      cases hl : Lexeme.ofRun seen.reverse with
      | error f => simp [hl, Except.bind] at h
      | ok l =>
        simp only [hl, Except.bind] at h
        obtain ⟨us, hus, laid⟩ := (blankStep_of_ok h).laid hgs
        exact ⟨⟨l, start.pos⟩ :: us, by simpa [emit] using hus,
          RunGoesOn.ends hl (by simpa using hg) laid⟩
  | string start seen =>
    simp only [step] at h
    split at h
    case isTrue hq =>
      obtain rfl := Except.ok.inj h
      exact ⟨⟨.string seen.reverse, start.pos⟩ :: ts, by simp [move, emit],
        StringGoesOn.ends (eq_of_beq hq) hgs⟩
    split at h
    case isTrue hq hb =>
      obtain rfl := Except.ok.inj h
      exact ⟨ts, rfl, StringGoesOn.escape (hgs g (eq_of_beq hb))⟩
    case isFalse hq hb =>
      obtain rfl := Except.ok.inj h
      exact ⟨ts, rfl, StringGoesOn.stands _ (.plain (by simpa using hq) (by simpa using hb)) hgs⟩
  | escape start seen esc => exact stepEscape_goesOn h hgs
  | hexHigh start seen esc =>
    simp only [step] at h
    cases hx : hexValue? g.char with
    | none => simp [hx] at h
    | some n =>
      simp only [hx] at h
      obtain rfl := Except.ok.inj h
      exact ⟨ts, rfl, fun b e hb he => StringGoesOn.escape (hgs b e g hb he hx)⟩
  | hexLow start seen esc high =>
    simp only [step] at h
    cases hx : hexValue? g.char with
    | none => simp [hx] at h
    | some n =>
      simp only [hx] at h
      obtain rfl := Except.ok.inj h
      exact ⟨ts, rfl, fun b e x hb he hhigh =>
        StringGoesOn.stands [_] (.hex hb he hhigh hx) hgs⟩

theorem finish_goesOn {s : Scanner} {ts : List Token} (h : s.finish = .ok ts) :
    ∃ us, ts = s.tokens.reverse ++ us ∧ s.mode.GoesOn s.here.pos [] us := by
  obtain ⟨mode, here, tokens⟩ := s
  cases mode with
  | blank =>
    obtain rfl := Except.ok.inj h
    exact ⟨[], (List.append_nil _).symm, .last (.blank .nil)⟩
  | comment =>
    obtain rfl := Except.ok.inj h
    exact ⟨[], (List.append_nil _).symm, .open rfl⟩
  | run start seen =>
    simp only [finish, endRun] at h
    cases hl : Lexeme.ofRun seen.reverse with
    | error f => simp [hl, Except.map] at h
    | ok l =>
      simp only [hl, Except.map] at h
      obtain rfl := Except.ok.inj h
      exact ⟨[⟨l, start.pos⟩], by simp [emit], RunGoesOn.ends hl (by simp) (.last (.blank .nil))⟩
  | string | escape | hexHigh | hexLow => cases h

theorem steps_goesOn {s s' : Scanner} {gs : List Glyph} {ts : List Token}
    (h : gs.foldlM step s = .ok s') (hf : s'.finish = .ok ts) :
    ∃ us, ts = s.tokens.reverse ++ us ∧ s.mode.GoesOn s.here.pos gs us := by
  induction gs generalizing s with
  | nil =>
    obtain rfl := Except.ok.inj h
    exact finish_goesOn hf
  | cons g gs ih =>
    obtain ⟨s₁, hg, hgs⟩ := foldlM_cons_ok h
    obtain ⟨us, hus, hrest⟩ := ih hgs
    obtain ⟨vs, hvs, hall⟩ := step_goesOn hg hrest
    exact ⟨vs, hus.trans hvs, hall⟩

end Scanner

/-- The characters of a text are laid out as its tokens. -/
theorem tokenize_laid {src : Bytes} {ts : List Token} (h : tokenize src = .ok ts) :
    Laid ⟨1, 1⟩ (Glyph.ofBytes src) ts := by
  obtain ⟨s, hs, hf⟩ := scan_eq_ok (tokenize_eq_ok h)
  obtain ⟨us, rfl, hlaid⟩ := Scanner.steps_goesOn hs hf
  exact hlaid

/-! ## From characters to bytes -/

theorem Glyph.Exact.raw {gs : List Glyph} (h : Glyph.Exact gs) {g : Glyph} (hg : g ∈ gs)
    (hlow : g.char.toNat < 0x80) : g.raw = Bytes.ofChar g.char :=
  Glyph.raw_of_ascii g (h.symm ▸ hg) hlow

/-- A run of symbol characters is a number if it starts like one and a symbol otherwise, and it is
kept as it is. -/
theorem spells_of_ofRun {w : Bytes} {l : Lexeme} (hw : IsWord w)
    (h : Lexeme.ofRun (Glyph.ofBytes w) = .ok l) : Spells w l := by
  unfold Lexeme.ofRun at h
  rw [Glyph.toBytes_ofBytes] at h
  dsimp only at h
  split at h
  · next hn =>
    split at h
    · next v hv => exact Except.ok.inj h ▸ .number hw ((looksNumeric_iff _).mp hn) hv
    · cases h
  · next hn => exact Except.ok.inj h ▸ .symbol hw (mt (looksNumeric_iff _).mpr hn)

theorem Written.spells {gs : List Glyph} {l : Lexeme} (h : Written gs l) (hgs : Glyph.Exact gs) :
    Spells (Glyph.toBytes gs) l := by
  cases h with
  | @opening g b h =>
    have hraw : g.raw = b.openText := by
      rw [hgs.raw (List.mem_singleton_self g) (by rw [h]; cases b <;> decide), h]
      cases b <;> rfl
    rw [Glyph.toBytes, List.flatMap_singleton, hraw]
    exact .opening b
  | @closing g b h =>
    have hraw : g.raw = b.closeText := by
      rw [hgs.raw (List.mem_singleton_self g) (by rw [h]; cases b <;> decide), h]
      cases b <;> rfl
    rw [Glyph.toBytes, List.flatMap_singleton, hraw]
    exact .closing b
  | run ne chars h =>
    have hne : Glyph.toBytes gs ≠ [] := by
      intro hnil
      rw [Glyph.Exact, hnil] at hgs
      exact ne hgs.symm
    exact spells_of_ofRun ⟨hne, hgs.symm ▸ chars⟩ (hgs.symm ▸ h)
  | @string o c body s opens closes contents =>
    have ho : o.raw = [34] := by
      rw [hgs.raw (by simp) (by rw [opens]; decide), opens]
      rfl
    have hc : c.raw = [34] := by
      rw [hgs.raw (by simp) (by rw [closes]; decide), closes]
      rfl
    have hopen : Glyph.Exact ([o] ++ body) := hgs.append.1
    have hbody : Glyph.Exact body := hopen.append.2
    have htext : Glyph.toBytes (o :: body ++ [c]) = 34 :: Glyph.toBytes body ++ [34] := by
      simp [Glyph.toBytes, ho, hc]
    rw [htext]
    exact .string (hbody.symm ▸ contents)

/-- A layout of the characters behind `before` is one of the bytes behind them. -/
theorem Laid.layout {src : Bytes} {before gs : List Glyph} {ts : List Token}
    (h : Laid ((⟨1, 1⟩ : Position).after before) gs ts) (hsrc : Glyph.ofBytes src = before ++ gs) :
    ∃ offsets, Layout src (Glyph.toBytes before).length ts offsets := by
  generalize hp : (⟨1, 1⟩ : Position).after before = p at h
  induction h generalizing before with
  | @last p gs trailing =>
    have hrest : Glyph.ofBytes (src.drop (Glyph.toBytes before).length) = gs := by
      rw [Glyph.bytes_of_ofBytes_eq hsrc, List.drop_left]
      exact (Glyph.exact_of_ofBytes_eq hsrc).2
    exact ⟨[], .nil (hrest ▸ trailing)⟩
  | @cons p gap body rest l ts blank written apart laid ih =>
    subst hp
    -- The text is cut behind the gap and behind the lexeme.
    have hgap : Glyph.ofBytes src = (before ++ gap) ++ (body ++ rest) := by
      rw [hsrc, List.append_assoc]
    have hbody : Glyph.ofBytes src = (before ++ gap ++ body) ++ rest := by
      rw [hgap, ← List.append_assoc]
    have hbytes := Glyph.bytes_of_ofBytes_eq hgap
    have hexact := (Glyph.exact_of_ofBytes_eq hgap).1
    obtain ⟨hexactBody, hexactRest⟩ := (Glyph.exact_of_ofBytes_eq hgap).2.append
    have htake : src.take (Glyph.toBytes (before ++ gap)).length =
        Glyph.toBytes (before ++ gap) := by
      rw [hbytes, List.take_left]
    have hdrop : src.drop (Glyph.toBytes (before ++ gap)).length =
        Glyph.toBytes body ++ Glyph.toBytes rest := by
      rw [hbytes, List.drop_left, Glyph.toBytes_append]
    obtain ⟨offsets, hlayout⟩ := ih hbody (by rw [Position.after_append, Position.after_append])
    rw [Glyph.toBytes_append _ body, List.length_append] at hlayout
    refine ⟨_ :: offsets, .cons ?_ ?_ (written.spells hexactBody) ?_ ?_ ?_ hlayout⟩
    · rw [Glyph.toBytes_append, List.length_append]
      exact Nat.le_add_right ..
    · rw [htake, Glyph.toBytes_append, List.drop_left]
      exact hexact.append.2.symm ▸ blank
    · rw [hdrop]
      exact List.prefix_append ..
    · rw [← List.drop_drop, hdrop, List.drop_left]
      exact hexactRest.symm ▸ apart
    · rw [htake, ← Position.after_ofBytes, hexact, Position.after_append]

/-! ## The layout of a text -/

theorem Spells.ne_nil {w : Bytes} {l : Lexeme} (h : Spells w l) : w ≠ [] := by
  cases h with
  | opening b | closing b => cases b <;> decide
  | symbol word _ | number word _ _ => exact word.1
  | string => simp

/-- Lexemes do not overlap: the next one starts behind the one before. -/
theorem Layout.increasing {src : Bytes} {start : Nat} {ts : List Token} {offsets : List Nat}
    (h : Layout src start ts offsets) :
    (∀ o ∈ offsets, start ≤ o) ∧ offsets.Pairwise (· < ·) := by
  induction h with
  | nil => exact ⟨List.forall_mem_nil _, .nil⟩
  | cons le gap spelled here apart pos rest ih =>
    have hlen := List.length_pos_iff.mpr spelled.ne_nil
    have hlater := ih.1
    refine ⟨List.forall_mem_cons.mpr ⟨le, fun o ho => ?_⟩, .cons (fun o ho => ?_) ih.2⟩
    · have := hlater o ho
      omega
    · have := hlater o ho
      omega

/-- A text is laid out as its tokens: their lexemes stand at increasing offsets without overlap,
each at the position of its token and as long as it can be, and everything else is blank or
comment. -/
theorem tokenize_layout {src : Bytes} {ts : List Token} (h : tokenize src = .ok ts) :
    ∃ offsets, offsets.Pairwise (· < ·) ∧ Layout src 0 ts offsets := by
  have hlaid : Laid ((⟨1, 1⟩ : Position).after []) (Glyph.ofBytes src) ts := tokenize_laid h
  obtain ⟨offsets, hlayout⟩ := hlaid.layout rfl
  exact ⟨offsets, hlayout.increasing.2, hlayout⟩

/-- A symbol beyond ASCII, a string over two lines with an escape and an invalid byte, a comment. -/
def threeLines : Bytes :=
  Bytes.ofString "λ\r\n\"a\\x41\n" ++ 255 :: Bytes.ofString "\" ; c\n\x7b-7"

def threeLinesTokens : List Token :=
  [⟨.symbol (Bytes.ofString "λ"), ⟨1, 1⟩⟩, ⟨.string [97, 65, 10, 0xEF, 0xBF, 0xBD], ⟨2, 1⟩⟩,
    ⟨.opening .curly, ⟨4, 1⟩⟩, ⟨.number (Bytes.ofString "-7") (.int (-7)), ⟨4, 2⟩⟩]

theorem threeLines_eq_ok : tokenize threeLines = .ok threeLinesTokens := rfl

theorem threeLines_layout : tokenize threeLines = .ok threeLinesTokens ∧
    ∃ offsets, offsets.Pairwise (· < ·) ∧ Layout threeLines 0 threeLinesTokens offsets :=
  ⟨threeLines_eq_ok, tokenize_layout threeLines_eq_ok⟩

end SmallLisp
