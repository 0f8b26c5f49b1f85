import SmallLisp.Proofs.Scanning
import SmallLisp.Reader

/-! The grammar of terms. A phrase is a term with the tokens it is written with; the reader accepts
exactly the tokens of phrases and returns their terms, and no two lists of phrases are written with
the same tokens. -/
namespace SmallLisp

/-! ## The text of a symbol -/

def Mark.Starts : Bytes → Prop
  | b :: _ => b = 39 ∨ b = 96 ∨ b = 126
  | [] => False

/-- The text is some marks and a rest that starts with none. A tilde before an at sign is not a
mark of its own. -/
inductive Prefixed : Bytes → List Mark → Bytes → Prop
  | rest {s : Bytes} (h : ¬ Mark.Starts s) : Prefixed s [] s
  | quote {s r : Bytes} {ms : List Mark} (h : Prefixed s ms r) : Prefixed (39 :: s) (.quote :: ms) r
  | quasiquote {s r : Bytes} {ms : List Mark} (h : Prefixed s ms r) :
      Prefixed (96 :: s) (.quasiquote :: ms) r
  | unquote {s r : Bytes} {ms : List Mark} (hs : s.head? ≠ some 64) (h : Prefixed s ms r) :
      Prefixed (126 :: s) (.unquote :: ms) r
  | splice {s r : Bytes} {ms : List Mark} (h : Prefixed s ms r) :
      Prefixed (126 :: 64 :: s) (.splice :: ms) r

theorem prefixed_strip (text : Bytes) :
    Prefixed text (Mark.strip text).1 (Mark.strip text).2 := by
  fun_induction Mark.strip text with
  | case1 s ms r hs ih => exact .splice (by rwa [hs] at ih)
  | case2 s ms r hs ih => exact .quote (by rwa [hs] at ih)
  | case3 s ms r hs ih => exact .quasiquote (by rwa [hs] at ih)
  | case4 s hne ms r hs ih =>
    refine .unquote (fun h => ?_) (by rwa [hs] at ih)
    obtain ⟨t, rfl⟩ := List.head?_eq_some_iff.mp h
    exact hne t rfl
  | case5 s h1 h2 h3 h4 =>
    refine .rest fun h => ?_
    match s, h with
    | _ :: s, .inl rfl => exact h2 s rfl
    | _ :: s, .inr (.inl rfl) => exact h3 s rfl
    | _ :: s, .inr (.inr rfl) => exact h4 s rfl

theorem Prefixed.strip_eq {text r : Bytes} {ms : List Mark} (h : Prefixed text ms r) :
    Mark.strip text = (ms, r) := by
  induction h with
  | @rest s h =>
    refine Mark.strip.eq_5 s ?_ ?_ ?_ ?_
    · rintro t rfl
      exact h (.inr (.inr rfl))
    · rintro t rfl
      exact h (.inl rfl)
    · rintro t rfl
      exact h (.inr (.inl rfl))
    · rintro t rfl
      exact h (.inr (.inr rfl))
  | quote h ih => simp only [Mark.strip, ih]
  | quasiquote h ih => simp only [Mark.strip, ih]
  | unquote hs h ih =>
    rw [Mark.strip.eq_4 _ (by rintro t rfl; exact hs rfl), ih]
  | splice h ih => simp only [Mark.strip, ih]

structure Marked where
  text : Bytes
  marks : List Mark
  rest : Bytes
  split : Prefixed text marks rest

theorem Marked.eq_of_text {w w' : Marked} (h : w.text = w'.text) : w = w' := by
  obtain ⟨text, marks, rest, hw⟩ := w
  obtain ⟨text', marks', rest', hw'⟩ := w'
  obtain rfl : text = text' := h
  obtain ⟨rfl, rfl⟩ := Prod.mk.inj (hw.strip_eq.symm.trans hw'.strip_eq)
  rfl

/-- What a text without marks denotes: after a mark it may be a number. -/
inductive Denotes (marked : Bool) : Bytes → Term → Prop
  | number {s : Bytes} {v : Literal.Numeral} (hm : marked = true)
      (hn : Reader.looksNumeric s = true) (hv : Literal.number? s = some v) :
      Denotes marked s (Reader.numeral v)
  | keyword (b : UInt8) (s : Bytes) : Denotes marked (58 :: b :: s) (.keyword (b :: s))
  | symbol {s : Bytes} (hn : (marked && Reader.looksNumeric s) = false)
      (hk : ∀ b t, s ≠ 58 :: b :: t) : Denotes marked s (.symbol s)

/-! ## Phrases -/

mutual

/-- A term as it is written. -/
inductive Phrase
  | number (text : Bytes) (value : Literal.Numeral) (pos : Position)
  | string (contents : Bytes) (pos : Position)
  | group (b : Bracket) (start : Position) (body : Phrases) (stop : Position)
  | marked (w : Marked) (pos : Position) (hm : w.marks ≠ []) (hr : w.rest = []) (x : Phrase)
  | atom (w : Marked) (pos : Position) (hr : w.rest ≠ []) (hh : w.rest ≠ [35]) (t : Term)
      (ht : Denotes (!w.marks.isEmpty) w.rest t)
  | function (w : Marked) (pos : Position) (hr : w.rest = [35]) (start : Position)
      (body : Phrases) (stop : Position)

inductive Phrases
  | nil
  | cons (x : Phrase) (xs : Phrases)

end

def Marked.token (w : Marked) (pos : Position) : Token := ⟨.symbol w.text, pos⟩

def Marked.wrap (w : Marked) (t : Term) : Term := w.marks.foldr Mark.apply t

def Bracket.group : Bracket → Group
  | .round => .list
  | .curly => .dict

mutual

def Phrase.tokens : Phrase → List Token
  | .number text v pos => [⟨.number text v, pos⟩]
  | .string s pos => [⟨.string s, pos⟩]
  | .group b start body stop => ⟨.opening b, start⟩ :: body.tokens ++ [⟨.closing b, stop⟩]
  | .marked w pos _ _ x => w.token pos :: x.tokens
  | .atom w pos _ _ _ _ => [w.token pos]
  | .function w pos _ start body stop =>
    w.token pos :: ⟨.opening .round, start⟩ :: body.tokens ++ [⟨.closing .round, stop⟩]

def Phrases.tokens : Phrases → List Token
  | .nil => []
  | .cons x xs => x.tokens ++ xs.tokens

end

mutual

def Phrase.term : Phrase → Term
  | .number _ v _ => Reader.numeral v
  | .string s _ => .string s
  | .group b _ body _ => b.group.build body.terms
  | .marked w _ _ _ x => w.wrap x.term
  | .atom w _ _ _ t _ => w.wrap t
  | .function w _ _ _ body _ => w.wrap (Group.function.build body.terms)

def Phrases.terms : Phrases → List Term
  | .nil => []
  | .cons x xs => x.term :: xs.terms

end

/-! ## Every phrase is read as its term -/

/-- The reader is not waiting for the bracket of a function. -/
def Settled (stack : List Pending) : Prop := ∀ below, stack ≠ .hash :: below

/-- The stack when the marks have been read on top of it. -/
def Marked.push (w : Marked) (stack : List Pending) : List Pending :=
  (w.marks.map Pending.mark).reverse ++ stack

theorem put_marks (ms : List Mark) (stack : List Pending) (terms : List Term) (t : Term) :
    Reader.put ((ms.map Pending.mark).reverse ++ stack) terms t =
      Reader.put stack terms (ms.foldr Mark.apply t) := by
  induction ms generalizing stack with
  | nil => rfl
  | cons m ms ih =>
    rw [List.map_cons, List.reverse_cons, List.append_assoc, ih]
    rfl

theorem put_push (w : Marked) (stack : List Pending) (terms : List Term) (t : Term) :
    Reader.put (w.push stack) terms t = Reader.put stack terms (w.wrap t) :=
  put_marks w.marks stack terms t

theorem push_eq_cons {w : Marked} (hm : w.marks ≠ []) (stack : List Pending) :
    ∃ m below, w.push stack = .mark m :: below := by
  unfold Marked.push
  cases hl : (w.marks.map Pending.mark).reverse with
  | nil => exact absurd (by simpa using hl) hm
  | cons p ps =>
    have hp : p ∈ w.marks.map Pending.mark := List.mem_reverse.mp (hl ▸ List.mem_cons_self)
    obtain ⟨m, -, rfl⟩ := List.mem_map.mp hp
    exact ⟨m, ps ++ stack, rfl⟩

theorem push_settled {w : Marked} (hm : w.marks ≠ []) (stack : List Pending) :
    Settled (w.push stack) := by
  intro below h
  obtain ⟨m, below', h'⟩ := push_eq_cons hm stack
  rw [h'] at h
  cases h

/-- What the reader does with a token when no bracket has to follow. -/
theorem feed_settled {stack : List Pending} (hs : Settled stack) (terms : List Term)
    (lexeme : Lexeme) (pos : Position) :
    Reader.feed ⟨stack, terms⟩ ⟨lexeme, pos⟩ =
      match lexeme with
      | .opening b => .ok ⟨.group b.group [] :: stack, terms⟩
      | .closing b => Reader.feedClosing ⟨stack, terms⟩ b pos
      | .number _ v => .ok (Reader.put stack terms (Reader.numeral v))
      | .string s => .ok (Reader.put stack terms (.string s))
      | .symbol text => Reader.feedSymbol ⟨stack, terms⟩ text pos := by
  match stack with
  | .hash :: below => exact absurd rfl (hs below)
  | [] | .mark _ :: _ | .group _ _ :: _ => cases lexeme with
    | opening b => cases b <;> rfl
    | closing | number | string | symbol => rfl

theorem feedSymbol_marked (w : Marked) (stack : List Pending) (terms : List Term)
    (pos : Position) :
    Reader.feedSymbol ⟨stack, terms⟩ w.text pos =
      if w.rest.isEmpty then .ok ⟨w.push stack, terms⟩
      else if w.rest == [35] then .ok ⟨.hash :: w.push stack, terms⟩
      else if !w.marks.isEmpty && Reader.looksNumeric w.rest then
        match Literal.number? w.rest with
        | some v => .ok (Reader.put (w.push stack) terms (Reader.numeral v))
        | none => .error ⟨.malformedNumber w.rest, ⟨pos.line, pos.col + Mark.widths w.marks⟩⟩
      else .ok (Reader.put (w.push stack) terms (Reader.name w.rest)) := by
  unfold Reader.feedSymbol
  rw [w.split.strip_eq]
  rfl

theorem Denotes.eq_numeral {marked : Bool} {s : Bytes} {t : Term} (h : Denotes marked s t)
    (hn : (marked && Reader.looksNumeric s) = true) :
    ∃ v, Literal.number? s = some v ∧ t = Reader.numeral v := by
  cases h with
  | number _ _ hv => exact ⟨_, hv, rfl⟩
  | keyword b s => simp [Reader.looksNumeric, Literal.digit?] at hn
  | symbol hn' _ => rw [hn] at hn'; cases hn'

theorem Denotes.eq_name {marked : Bool} {s : Bytes} {t : Term} (h : Denotes marked s t)
    (hn : (marked && Reader.looksNumeric s) = false) : t = Reader.name s := by
  cases h with
  | number hm hn' hv => simp [hm, hn'] at hn
  | keyword b s => rfl
  | symbol _ hk => exact (Reader.name.eq_2 s hk).symm

theorem feedSymbol_atom {w : Marked} (hr : w.rest ≠ []) (hh : w.rest ≠ [35]) {t : Term}
    (ht : Denotes (!w.marks.isEmpty) w.rest t) (stack : List Pending) (terms : List Term)
    (pos : Position) :
    Reader.feedSymbol ⟨stack, terms⟩ w.text pos = .ok (Reader.put stack terms (w.wrap t)) := by
  rw [feedSymbol_marked, ← put_push, if_neg (by simpa using hr), if_neg (by simpa using hh)]
  cases hn : !w.marks.isEmpty && Reader.looksNumeric w.rest with
  | false => rw [ht.eq_name hn]; rfl
  | true =>
    obtain ⟨v, hv, rfl⟩ := ht.eq_numeral hn
    simp only [hv]
    rfl

theorem feed_closing {b : Bracket} {g : Group} (hb : g.bracket = b) (seen : List Term)
    (stack : List Pending) (terms : List Term) (pos : Position) :
    Reader.feed ⟨.group g seen :: stack, terms⟩ ⟨.closing b, pos⟩ =
      .ok (Reader.put stack terms (g.build seen.reverse)) := by
  simp [Reader.feed, Reader.feedClosing, hb]

theorem bracket_group (b : Bracket) : b.group.bracket = b := by
  cases b <;> rfl

theorem group_settled (g : Group) (seen : List Term) (stack : List Pending) :
    Settled (.group g seen :: stack) := by
  intro below h
  cases h

mutual

/-- The tokens of a phrase leave its term behind, whatever is open around it. -/
theorem Phrase.feed (x : Phrase) {stack : List Pending} (hs : Settled stack) (terms : List Term) :
    x.tokens.foldlM Reader.feed ⟨stack, terms⟩ = .ok (Reader.put stack terms x.term) := by
  cases x with
  | number text v pos =>
    rw [Phrase.tokens, Phrase.term, foldlM_cons_of_ok (feed_settled hs terms _ pos)]
    rfl
  | string s pos =>
    rw [Phrase.tokens, Phrase.term, foldlM_cons_of_ok (feed_settled hs terms _ pos)]
    rfl
  | group b start body stop =>
    rw [Phrase.tokens, Phrase.term, List.cons_append, foldlM_cons_of_ok (feed_settled hs terms _ start),
      foldlM_append_of_ok (body.feed _ [] stack terms),
      foldlM_cons_of_ok (feed_closing (bracket_group b) _ stack terms stop), List.append_nil,
      List.reverse_reverse]
    rfl
  | marked w pos hm hr x =>
    have hw : Reader.feed ⟨stack, terms⟩ (w.token pos) = .ok ⟨w.push stack, terms⟩ := by
      rw [Marked.token, feed_settled hs]
      simp only [feedSymbol_marked, hr]
      rfl
    rw [Phrase.tokens, Phrase.term, foldlM_cons_of_ok hw, x.feed (push_settled hm stack), put_push]
  | atom w pos hr hh t ht =>
    have hw : Reader.feed ⟨stack, terms⟩ (w.token pos) =
        .ok (Reader.put stack terms (w.wrap t)) := by
      rw [Marked.token, feed_settled hs]
      exact feedSymbol_atom hr hh ht stack terms pos
    rw [Phrase.tokens, Phrase.term, foldlM_cons_of_ok hw]
    rfl
  | function w pos hr start body stop =>
    have hw : Reader.feed ⟨stack, terms⟩ (w.token pos) = .ok ⟨.hash :: w.push stack, terms⟩ := by
      rw [Marked.token, feed_settled hs]
      simp only [feedSymbol_marked, hr]
      rfl
    have ho : Reader.feed ⟨.hash :: w.push stack, terms⟩ ⟨.opening .round, start⟩ =
        .ok ⟨.group .function [] :: w.push stack, terms⟩ := rfl
    rw [Phrase.tokens, Phrase.term, List.cons_append, foldlM_cons_of_ok hw, List.cons_append,
      foldlM_cons_of_ok ho, foldlM_append_of_ok (body.feed _ [] _ terms),
      foldlM_cons_of_ok (feed_closing (b := .round) rfl _ _ terms stop), put_push, List.append_nil,
      List.reverse_reverse]
    rfl

theorem Phrases.feed (xs : Phrases) (g : Group) (seen : List Term) (stack : List Pending)
    (terms : List Term) :
    xs.tokens.foldlM Reader.feed ⟨.group g seen :: stack, terms⟩ =
      .ok ⟨.group g (xs.terms.reverse ++ seen) :: stack, terms⟩ := by
  cases xs with
  | nil => rfl
  | cons x xs =>
    rw [Phrases.tokens, Phrases.terms, foldlM_append_of_ok (x.feed (group_settled g seen stack) terms)]
    exact (xs.feed g (x.term :: seen) stack terms).trans (by simp)

end

theorem Phrases.feed_top (xs : Phrases) (terms : List Term) :
    xs.tokens.foldlM Reader.feed ⟨[], terms⟩ = .ok ⟨[], xs.terms.reverse ++ terms⟩ := by
  match xs with
  | .nil => rfl
  | .cons x xs =>
    rw [Phrases.tokens, Phrases.terms, foldlM_append_of_ok (x.feed (by intro _ h; cases h) terms)]
    exact (xs.feed_top (x.term :: terms)).trans (by simp)

/-! ## What is read is a list of phrases -/

def Phrases.snoc : Phrases → Phrase → Phrases
  | .nil, y => .cons y .nil
  | .cons x xs, y => .cons x (xs.snoc y)

theorem Phrases.tokens_snoc (xs : Phrases) (y : Phrase) :
    (xs.snoc y).tokens = xs.tokens ++ y.tokens := by
  match xs with
  | .nil => simp [Phrases.snoc, Phrases.tokens]
  | .cons x xs => simp [Phrases.snoc, Phrases.tokens, xs.tokens_snoc y]

theorem Phrases.terms_snoc (xs : Phrases) (y : Phrase) :
    (xs.snoc y).terms = xs.terms ++ [y.term] := by
  match xs with
  | .nil => rfl
  | .cons x xs => simp [Phrases.snoc, Phrases.terms, xs.terms_snoc y]

/-- The tokens were read into this stack and these terms, and no bracket has to follow: complete
phrases at each level, and what began a phrase between them. -/
inductive Open : List Token → List Pending → List Term → Prop
  | top (xs : Phrases) : Open xs.tokens [] xs.terms.reverse
  | group {ts : List Token} {stack : List Pending} {terms : List Term} (h : Open ts stack terms)
      (b : Bracket) (start : Position) (xs : Phrases) :
      Open (ts ++ ⟨.opening b, start⟩ :: xs.tokens) (.group b.group xs.terms.reverse :: stack) terms
  | marks {ts : List Token} {stack : List Pending} {terms : List Term} (h : Open ts stack terms)
      (w : Marked) (pos : Position) (hm : w.marks ≠ []) (hr : w.rest = []) :
      Open (ts ++ [w.token pos]) (w.push stack) terms
  | function {ts : List Token} {stack : List Pending} {terms : List Term} (h : Open ts stack terms)
      (w : Marked) (pos : Position) (hr : w.rest = [35]) (start : Position) (xs : Phrases) :
      Open (ts ++ w.token pos :: ⟨.opening .round, start⟩ :: xs.tokens)
        (.group .function xs.terms.reverse :: w.push stack) terms

theorem Open.settled {ts : List Token} {stack : List Pending} {terms : List Term}
    (h : Open ts stack terms) : Settled stack := by
  cases h with
  | top => intro _ h; cases h
  | group _ b _ xs => exact group_settled b.group _ _
  | marks _ _ _ hm _ => exact push_settled hm _
  | function _ w _ _ _ xs => exact group_settled .function _ _

/-- The reader has this stack and these terms after the tokens; it may wait for a bracket. -/
def Reader.After (ts : List Token) (r : Reader) : Prop :=
  Open ts r.stack r.terms ∨
    ∃ (ts' : List Token) (stack : List Pending) (w : Marked) (pos : Position),
      Open ts' stack r.terms ∧ w.rest = [35] ∧ ts = ts' ++ [w.token pos] ∧
        r.stack = .hash :: w.push stack

/-- A complete phrase joins what is open around it. -/
theorem Open.put {ts : List Token} {stack : List Pending} {terms : List Term}
    (h : Open ts stack terms) (x : Phrase) :
    Open (ts ++ x.tokens) (Reader.put stack terms x.term).stack
      (Reader.put stack terms x.term).terms := by
  induction h generalizing x with
  | top xs =>
    have hx := Open.top (xs.snoc x)
    rw [xs.tokens_snoc, xs.terms_snoc, List.reverse_append] at hx
    exact hx
  | group h b start xs ih =>
    have hx := h.group b start (xs.snoc x)
    rw [xs.tokens_snoc, xs.terms_snoc, List.reverse_append, ← List.cons_append,
      ← List.append_assoc] at hx
    exact hx
  | marks h w pos hm hr ih =>
    have hx := ih (.marked w pos hm hr x)
    rw [put_push, List.append_assoc]
    exact hx
  | function h w pos hr start xs ih =>
    have hx := h.function w pos hr start (xs.snoc x)
    rw [xs.tokens_snoc, xs.terms_snoc, List.reverse_append, ← List.cons_append, ← List.cons_append,
      ← List.append_assoc] at hx
    exact hx

theorem Open.close {ts : List Token} {g : Group} {seen : List Term} {stack : List Pending}
    {terms : List Term} (h : Open ts (.group g seen :: stack) terms) (pos : Position) :
    Open (ts ++ [⟨.closing g.bracket, pos⟩])
      (Reader.put stack terms (g.build seen.reverse)).stack
      (Reader.put stack terms (g.build seen.reverse)).terms := by
  generalize hst : Pending.group g seen :: stack = st at h
  cases h with
  | top => cases hst
  | group h b start xs =>
    cases hst
    have hx := h.put (.group b start xs pos)
    rw [bracket_group, List.reverse_reverse, List.append_assoc]
    exact hx
  | marks _ w _ hm _ =>
    obtain ⟨m, below, hw⟩ := push_eq_cons hm _
    rw [hw] at hst
    cases hst
  | function h w pos' hr start xs =>
    cases hst
    have hx := h.put (.function w pos' hr start xs pos)
    rw [put_push, List.reverse_reverse, List.append_assoc]
    exact hx

theorem after_feedClosing {ts : List Token} {stack : List Pending} {terms : List Term}
    {b : Bracket} {pos : Position} {r : Reader} (h : Open ts stack terms)
    (hf : Reader.feedClosing ⟨stack, terms⟩ b pos = .ok r) :
    Open (ts ++ [⟨.closing b, pos⟩]) r.stack r.terms := by
  unfold Reader.feedClosing at hf
  split at hf
  case h_1 g seen stack' hst =>
    obtain rfl : stack = .group g seen :: stack' := hst
    split at hf
    case isTrue hb =>
      obtain rfl := Except.ok.inj hf
      obtain rfl : g.bracket = b := eq_of_beq hb
      exact h.close pos
    case isFalse => cases hf
  case h_2 => cases hf

theorem denotes_name {marked : Bool} {s : Bytes}
    (hn : (marked && Reader.looksNumeric s) = false) : Denotes marked s (Reader.name s) := by
  unfold Reader.name
  split
  · exact .keyword _ _
  · next hk => exact .symbol hn (fun b t h => hk b t h)

/-- The text of a symbol is an atom, or it leaves marks behind that wait for a term or a
bracket. -/
theorem after_feedSymbol {ts : List Token} {stack : List Pending} {terms : List Term} {w : Marked}
    {pos : Position} {r : Reader} (h : Open ts stack terms) (hne : w.text ≠ [])
    (hf : Reader.feedSymbol ⟨stack, terms⟩ w.text pos = .ok r) : r.After (ts ++ [w.token pos]) := by
  rw [feedSymbol_marked] at hf
  by_cases hr : w.rest = []
  · have hm : w.marks ≠ [] := by
      intro hm
      obtain ⟨text, marks, rest, hw⟩ := w
      obtain rfl : marks = [] := hm
      cases hw
      exact hne hr
    rw [hr] at hf
    obtain rfl := Except.ok.inj hf
    exact .inl (h.marks w pos hm hr)
  rw [if_neg (by simpa using hr)] at hf
  by_cases hh : w.rest = [35]
  · rw [hh] at hf
    obtain rfl := Except.ok.inj hf
    exact .inr ⟨ts, stack, w, pos, h, hh, rfl, rfl⟩
  rw [if_neg (by simpa using hh)] at hf
  refine .inl ?_
  cases hn : !w.marks.isEmpty && Reader.looksNumeric w.rest with
  | false =>
    rw [hn, put_push] at hf
    obtain rfl := Except.ok.inj hf
    exact h.put (.atom w pos hr hh _ (denotes_name hn))
  | true =>
    rw [hn] at hf
    cases hv : Literal.number? w.rest with
    | none => simp [hv] at hf
    | some v =>
      simp only [hv, put_push] at hf
      obtain rfl := Except.ok.inj hf
      obtain ⟨hm, hn⟩ := Bool.and_eq_true_iff.mp hn
      exact h.put (.atom w pos hr hh _ (.number hm hn hv))

/-- What one token does to the reader. -/
theorem after_feed {ts : List Token} {r r' : Reader} {t : Token} (h : r.After ts)
    (ht : t.lexeme ≠ .symbol []) (hf : r.feed t = .ok r') : r'.After (ts ++ [t]) := by
  obtain ⟨stack, terms⟩ := r
  obtain ⟨lexeme, pos⟩ := t
  rcases h with h | ⟨ts', stack', w, pos', h, hw, rfl, hst⟩
  · rw [feed_settled h.settled] at hf
    cases lexeme with
    | opening b =>
      obtain rfl := Except.ok.inj hf
      exact .inl (h.group b pos .nil)
    | closing b => exact .inl (after_feedClosing h hf)
    | number text v =>
      obtain rfl := Except.ok.inj hf
      exact .inl (h.put (.number text v pos))
    | string s =>
      obtain rfl := Except.ok.inj hf
      exact .inl (h.put (.string s pos))
    | symbol text =>
      have hne : text ≠ [] := fun h => ht (congrArg Lexeme.symbol h)
      exact after_feedSymbol (w := ⟨text, _, _, prefixed_strip text⟩) h hne hf
  · obtain rfl : stack = .hash :: w.push stack' := hst
    -- Only a round bracket can follow.
    match lexeme, hf with
    | .opening .round, hf =>
      obtain rfl := Except.ok.inj hf
      have hx := h.function w pos' hw pos .nil
      rw [List.append_assoc]
      exact .inl hx

/-- What the whole list of tokens does to it. -/
theorem after_feeds {ts us : List Token} {r r' : Reader} (h : r.After ts)
    (hus : ∀ t ∈ us, t.lexeme ≠ .symbol []) (hf : us.foldlM Reader.feed r = .ok r') :
    r'.After (ts ++ us) := by
  induction us generalizing ts r with
  | nil =>
    obtain rfl := Except.ok.inj hf
    rwa [List.append_nil]
  | cons t us ih =>
    obtain ⟨r₁, ht, hf⟩ := foldlM_cons_ok hf
    have h₁ := after_feed h (hus t List.mem_cons_self) ht
    have h₂ := ih h₁ (fun t ht => hus t (List.mem_cons_of_mem _ ht)) hf
    rwa [List.append_assoc] at h₂

theorem exists_phrases {ts : List Token} {terms : List Term}
    (hts : ∀ t ∈ ts, t.lexeme ≠ .symbol [])
    (hf : ts.foldlM Reader.feed Reader.start = .ok ⟨[], terms⟩) :
    ∃ xs : Phrases, xs.tokens = ts ∧ xs.terms.reverse = terms := by
  have hstart : Reader.start.After [] := .inl (.top .nil)
  rcases after_feeds hstart hts hf with h | ⟨_, _, _, _, _, _, _, hst⟩
  · generalize hst : (Reader.mk [] terms).stack = st at h
    cases h with
    | top xs => exact ⟨xs, rfl, rfl⟩
    | group => cases hst
    | marks _ w _ hm _ =>
      obtain ⟨m, below, hw⟩ := push_eq_cons hm _
      rw [hw] at hst
      cases hst
    | function => cases hst
  · cases hst

/-! ## No tokens are those of two phrases -/

/-- Nothing follows, or a closing bracket: no phrase starts here. -/
def Ends (ts : List Token) : Prop := ∀ t ∈ ts.head?, ∃ b, t.lexeme = .closing b

theorem ends_closing {b : Bracket} {pos : Position} {ts : List Token} :
    Ends (⟨.closing b, pos⟩ :: ts) := by
  rintro t ⟨⟩
  exact ⟨b, rfl⟩

theorem Phrase.not_ends (x : Phrase) (ts : List Token) : ¬ Ends (x.tokens ++ ts) := by
  intro h
  cases x <;> simp [Ends, Phrase.tokens, Marked.token] at h

theorem token_inj {w w' : Marked} {pos pos' : Position} (h : w.token pos = w'.token pos') :
    w = w' ∧ pos = pos' := by
  have htext : w.text = w'.text := by injection congrArg Token.lexeme h
  exact ⟨Marked.eq_of_text htext, congrArg Token.pos h⟩

theorem cons_token_inj {w w' : Marked} {pos pos' : Position} {ts ts' : List Token}
    (h : w.token pos :: ts = w'.token pos' :: ts') : w = w' ∧ pos = pos' ∧ ts = ts' := by
  obtain ⟨htoken, hts⟩ := List.cons.inj h
  obtain ⟨hw, hpos⟩ := token_inj htoken
  exact ⟨hw, hpos, hts⟩

theorem Denotes.unique {marked : Bool} {s : Bytes} {t t' : Term} (h : Denotes marked s t)
    (h' : Denotes marked s t') : t = t' := by
  cases hn : marked && Reader.looksNumeric s with
  | false => rw [h.eq_name hn, h'.eq_name hn]
  | true =>
    obtain ⟨v, hv, rfl⟩ := h.eq_numeral hn
    obtain ⟨v', hv', rfl⟩ := h'.eq_numeral hn
    rw [Option.some.inj (hv.symm.trans hv')]

mutual

/-- A phrase is determined by any tokens that start with it. -/
theorem Phrase.unique (x y : Phrase) {r s : List Token} (h : x.tokens ++ r = y.tokens ++ s) :
    x = y ∧ r = s := by
  cases x with
  | number text v pos => cases y with
    | number => simpa [Phrase.tokens, and_assoc] using h
    | _ => simp [Phrase.tokens, Marked.token] at h
  | string contents pos => cases y with
    | string => simpa [Phrase.tokens, and_assoc] using h
    | _ => simp [Phrase.tokens, Marked.token] at h
  | group b start body stop => cases y with
    | group b' start' body' stop' =>
      simp only [Phrase.tokens, List.cons_append, List.append_assoc, List.cons.injEq,
        Token.mk.injEq, Lexeme.opening.injEq] at h
      obtain ⟨⟨rfl, rfl⟩, h⟩ := h
      obtain ⟨rfl, h'⟩ := body.unique body' h ends_closing ends_closing
      simpa using h'
    | _ => simp [Phrase.tokens, Marked.token] at h
  | marked w pos hm hr x => cases y with
    | marked w' pos' hm' hr' x' =>
      obtain ⟨rfl, rfl, hx⟩ := cons_token_inj h
      obtain ⟨rfl, h'⟩ := x.unique x' hx
      exact ⟨rfl, h'⟩
    | atom w' pos' hr' =>
      obtain ⟨rfl, -⟩ := cons_token_inj h
      exact absurd hr hr'
    | function w' pos' hr' =>
      obtain ⟨rfl, -⟩ := cons_token_inj h
      exact absurd (hr.symm.trans hr') (by simp)
    | _ => simp [Phrase.tokens, Marked.token] at h
  | atom w pos hr hh t ht => cases y with
    | marked w' pos' hm' hr' =>
      obtain ⟨rfl, -⟩ := cons_token_inj h
      exact absurd hr' hr
    | atom w' pos' hr' hh' t' ht' =>
      obtain ⟨rfl, rfl, h'⟩ := cons_token_inj h
      obtain rfl := ht.unique ht'
      exact ⟨rfl, h'⟩
    | function w' pos' hr' =>
      obtain ⟨rfl, -⟩ := cons_token_inj h
      exact absurd hr' hh
    | _ => simp [Phrase.tokens, Marked.token] at h
  | function w pos hr start body stop => cases y with
    | marked w' pos' hm' hr' =>
      obtain ⟨rfl, -⟩ := cons_token_inj h
      exact absurd (hr.symm.trans hr') (by simp)
    | atom w' pos' hr' hh' =>
      obtain ⟨rfl, -⟩ := cons_token_inj h
      exact absurd hr hh'
    | function w' pos' hr' start' body' stop' =>
      simp only [Phrase.tokens, List.cons_append, List.append_assoc] at h
      obtain ⟨rfl, rfl, hargs⟩ := cons_token_inj h
      simp only [List.cons.injEq, Token.mk.injEq, true_and] at hargs
      obtain ⟨rfl, hbody⟩ := hargs
      obtain ⟨rfl, h'⟩ := body.unique body' hbody ends_closing ends_closing
      simpa using h'
    | _ => simp [Phrase.tokens, Marked.token] at h

theorem Phrases.unique (xs ys : Phrases) {r s : List Token} (h : xs.tokens ++ r = ys.tokens ++ s)
    (hr : Ends r) (hs : Ends s) : xs = ys ∧ r = s := by
  match xs, ys with
  | .nil, .nil => exact ⟨rfl, h⟩
  | .nil, .cons y ys =>
    rw [Phrases.tokens, Phrases.tokens, List.nil_append, List.append_assoc] at h
    exact absurd (h ▸ hr) (y.not_ends _)
  | .cons x xs, .nil =>
    rw [Phrases.tokens, Phrases.tokens, List.nil_append, List.append_assoc] at h
    exact absurd (h ▸ hs) (x.not_ends _)
  | .cons x xs, .cons y ys =>
    rw [Phrases.tokens, Phrases.tokens, List.append_assoc, List.append_assoc] at h
    obtain ⟨rfl, h'⟩ := x.unique y h
    obtain ⟨rfl, h''⟩ := xs.unique ys h' hr hs
    exact ⟨rfl, h''⟩

end

/-! ## The main result -/

theorem readAll_iff_phrases {tokens : List Token} (hts : ∀ t ∈ tokens, t.lexeme ≠ .symbol [])
    {ts : List Term} :
    readAll tokens = .ok (some ts) ↔ ∃ xs : Phrases, xs.tokens = tokens ∧ xs.terms = ts := by
  rw [readAll_eq_some_iff]
  constructor
  · intro h
    obtain ⟨xs, hxs, hterms⟩ := exists_phrases hts h
    exact ⟨xs, hxs, List.reverse_inj.mp hterms⟩
  · rintro ⟨xs, rfl, rfl⟩
    rw [Reader.start, xs.feed_top, List.append_nil]

/-- The reader accepts exactly the tokens of phrases: a text reads as some terms if and only if all
its tokens are those of phrases for these terms. The phrases are determined by their tokens. -/
theorem reader_accepts_phrases {src : Bytes} {tokens : List Token}
    (h : tokenize src = .ok tokens) :
    (∀ ts, parse src = .ok ts ↔ ∃ xs : Phrases, xs.tokens = tokens ∧ xs.terms = ts) ∧
      ∀ xs ys : Phrases, xs.tokens = tokens → ys.tokens = tokens → xs = ys := by
  refine ⟨fun ts => ?_, fun xs ys hxs hys => ?_⟩
  · rw [← readAll_iff_phrases (tokenize_symbol_ne_nil h), parse, parseWith_eq_ok_iff, h]
    simp
  · have hends : Ends [] := by rintro t ⟨⟩
    exact (xs.unique ys (by rw [hxs, hys]) hends hends).1

def everyPhrase : Bytes := Bytes.ofString "'(f \x7b:k -2\x7d) ~#(\"s\") `~@ '5"

def everyPhraseTokens : List Token :=
  [⟨.symbol (Bytes.ofString "'"), ⟨1, 1⟩⟩,
    ⟨.opening .round, ⟨1, 2⟩⟩, ⟨.symbol (Bytes.ofString "f"), ⟨1, 3⟩⟩,
    ⟨.opening .curly, ⟨1, 5⟩⟩, ⟨.symbol (Bytes.ofString ":k"), ⟨1, 6⟩⟩,
    ⟨.number (Bytes.ofString "-2") (.int (-2)), ⟨1, 9⟩⟩,
    ⟨.closing .curly, ⟨1, 11⟩⟩, ⟨.closing .round, ⟨1, 12⟩⟩,
    ⟨.symbol (Bytes.ofString "~#"), ⟨1, 14⟩⟩,
    ⟨.opening .round, ⟨1, 16⟩⟩, ⟨.string (Bytes.ofString "s"), ⟨1, 17⟩⟩,
    ⟨.closing .round, ⟨1, 20⟩⟩,
    ⟨.symbol (Bytes.ofString "`~@"), ⟨1, 22⟩⟩, ⟨.symbol (Bytes.ofString "'5"), ⟨1, 26⟩⟩]

def everyPhraseTerms : List Term :=
  [.list [.sym "quote", .list [.sym "f",
      .list [.sym "hash-map", .keyword (Bytes.ofString "k"), .int (-2)]]],
    .list [.sym "unquote", .list [.sym "function", .string (Bytes.ofString "s")]],
    .list [.sym "quasiquote", .list [.sym "splice-unquote", .list [.sym "quote", .int 5]]]]

theorem everyPhrase_tokens : tokenize everyPhrase = .ok everyPhraseTokens := rfl

theorem everyPhrase_terms : parse everyPhrase = .ok everyPhraseTerms := rfl

theorem everyPhrase_read_once :
    ∃ xs : Phrases, xs.tokens = everyPhraseTokens ∧ xs.terms = everyPhraseTerms ∧
      ∀ ys : Phrases, ys.tokens = everyPhraseTokens → ys = xs := by
  obtain ⟨hread, hunique⟩ := reader_accepts_phrases everyPhrase_tokens
  obtain ⟨xs, htokens, hterms⟩ := (hread everyPhraseTerms).mp everyPhrase_terms
  exact ⟨xs, htokens, hterms, fun ys hys => hunique ys xs hys htokens⟩

end SmallLisp
