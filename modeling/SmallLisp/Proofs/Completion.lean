import SmallLisp.Proofs.Grammar
import SmallLisp.Proofs.Newline

/-! Incomplete texts. Reading a text either meets a flaw or leaves something open, possibly nothing.
What is open can be closed by further lines, one for each thing at most (`Leaves.completion`); a
flaw stays one whatever lines follow (`malformed_newline`). So a text is called incomplete exactly
when more lines can complete it. -/
namespace SmallLisp

/-! ## How reading a text ends -/

/-- All tokens of the text have been read, and the reader is left as `r`. -/
def Leaves (src : Bytes) (r : Reader) : Prop :=
  ∃ tokens, tokenize src = .ok tokens ∧ tokens.foldlM Reader.feed Reader.start = .ok r

theorem Leaves.parse_eq {src : Bytes} {r : Reader} (h : Leaves src r) :
    parse src = if r.stack.isEmpty then .ok r.terms.reverse else .error .incomplete := by
  obtain ⟨tokens, htokens, hr⟩ := h
  have hread : readAll tokens =
      .ok (if r.stack.isEmpty then some r.terms.reverse else none) := by
    rw [readAll, hr]
    rfl
  simp only [parse, parseWith, htokens, hread]
  cases r.stack with
  | nil => rfl
  | cons p stack => rfl

theorem leaves_of_parse {src : Bytes} {terms : List Term} (h : parse src = .ok terms) :
    Leaves src ⟨[], terms.reverse⟩ := by
  obtain ⟨tokens, htokens, hread⟩ := parseWith_eq_ok_iff.mp h
  exact ⟨tokens, htokens, readAll_eq_some_iff.mp hread⟩

theorem parse_of_tokenize_error {src : Bytes} {e : SyntaxError} (h : tokenize src = .error e) :
    parse src = .error (.malformed e) := by
  simp only [parse, parseWith, h]

theorem parse_of_flaw {src : Bytes} {tokens : List Token} {f : Flaw}
    (h : tokenize src = .ok tokens) (hf : tokens.foldlM Reader.feed Reader.start = .error f) :
    parse src = .error (.malformed (f.locate src)) := by
  have hread : readAll tokens = .error f := by
    rw [readAll, hf]
    rfl
  simp only [parse, parseWith, h, hread]

/-- A text that cannot be read to its end has a flaw, in its tokens or in their order. -/
theorem leaves_or_flaw (src : Bytes) :
    (∃ r, Leaves src r) ∨ (∃ e, tokenize src = .error e) ∨
      ∃ tokens f, tokenize src = .ok tokens ∧
        tokens.foldlM Reader.feed Reader.start = .error f := by
  cases htokens : tokenize src with
  | error e => exact .inr (.inl ⟨e, rfl⟩)
  | ok tokens =>
    cases hr : tokens.foldlM Reader.feed Reader.start with
    | ok r => exact .inl ⟨r, tokens, htokens, hr⟩
    | error f => exact .inr (.inr ⟨tokens, f, rfl, hr⟩)

theorem Leaves.not_malformed {src : Bytes} {r : Reader} (h : Leaves src r) (e : SyntaxError) :
    parse src ≠ .error (.malformed e) := by
  rw [h.parse_eq]
  split <;> simp

/-- The text is read up to its end if it is read at all. -/
theorem leaves_of_not_malformed {src : Bytes}
    (h : ∀ e, parse src ≠ .error (.malformed e)) : ∃ r, Leaves src r := by
  rcases leaves_or_flaw src with hr | ⟨e, he⟩ | ⟨tokens, f, htokens, hf⟩
  · exact hr
  · exact absurd (parse_of_tokenize_error he) (h _)
  · exact absurd (parse_of_flaw htokens hf) (h _)

theorem Leaves.newline {a b : Bytes} {us : List Token} {r r' : Reader} (h : Leaves a r)
    (hb : tokenize b = .ok us)
    (hr : (us.map (Token.down (a.count 10 + 1))).foldlM Reader.feed r = .ok r') :
    Leaves (a ++ 10 :: b) r' := by
  obtain ⟨tokens, htokens, hfeed⟩ := h
  refine ⟨tokens ++ us.map (Token.down (a.count 10 + 1)), ?_, ?_⟩
  · rw [tokenize_newline_of_ok htokens, hb]
  · rw [foldlM_append_of_ok hfeed, hr]

/-! ## Closing what is open -/

/-- A line that ends what is open: the bracket, some term after a mark, or an empty function. -/
def Pending.closer : Pending → Bytes
  | .group g _ => g.bracket.closeText
  | .mark _ => Bytes.ofString "nil"
  | .hash => Bytes.ofString "()"

def Pending.closerTokens : Pending → List Token
  | .group g _ => [⟨.closing g.bracket, ⟨1, 1⟩⟩]
  | .mark _ => [⟨.symbol (Bytes.ofString "nil"), ⟨1, 1⟩⟩]
  | .hash => [⟨.opening .round, ⟨1, 1⟩⟩, ⟨.closing .round, ⟨1, 2⟩⟩]

theorem Pending.tokenize_closer (p : Pending) : tokenize p.closer = .ok p.closerTokens := by
  cases p with
  | group g seen => cases g <;> rfl
  | mark m => rfl
  | hash => rfl

/-- The line completes a term, which joins what is open further out. -/
theorem feed_closer (p : Pending) (stack : List Pending) (terms : List Term) (n : Nat) :
    ∃ t, (p.closerTokens.map (Token.down n)).foldlM Reader.feed ⟨p :: stack, terms⟩ =
      .ok (Reader.put stack terms t) := by
  cases p with
  | group g seen =>
    have hclose := feed_closing (g := g) rfl seen stack terms (Position.down n ⟨1, 1⟩)
    exact ⟨g.build seen.reverse, foldlM_cons_of_ok hclose []⟩
  | mark m => exact ⟨m.apply (.sym "nil"), rfl⟩
  | hash => exact ⟨.list [.sym "function"], rfl⟩

theorem length_put_le (stack : List Pending) (terms : List Term) (t : Term) :
    (Reader.put stack terms t).stack.length ≤ stack.length := by
  induction stack generalizing t with
  | nil => exact Nat.le_refl 0
  | cons p stack ih =>
    cases p with
    | group g seen => exact Nat.le_refl _
    | hash => exact Nat.le_refl _
    | mark m =>
      have hle := ih (m.apply t)
      simp only [Reader.put, List.length_cons]
      omega

/-- Whatever the text leaves open, further lines close it. -/
theorem Leaves.completion {src : Bytes} {r : Reader} (h : Leaves src r) :
    ∃ t ts, parse (src ++ 10 :: t) = .ok ts := by
  generalize hn : r.stack.length = n
  -- each line takes at least one thing off the stack
  induction n using Nat.strongRecOn generalizing src r with
  | ind n ih =>
    obtain ⟨stack, terms⟩ := r
    cases stack with
    | nil =>
      have hsrc : parse src = .ok terms.reverse := h.parse_eq
      have hempty : parse [] = .ok [] := rfl
      exact ⟨[], _, parse_newline hsrc hempty⟩
    | cons p stack =>
      obtain ⟨t, ht⟩ := feed_closer p stack terms (src.count 10 + 1)
      have hline := h.newline p.tokenize_closer ht
      have hlt : (Reader.put stack terms t).stack.length < n := by
        have hle := length_put_le stack terms t
        simp only [List.length_cons] at hn
        omega
      obtain ⟨more, ts, hts⟩ := ih _ hlt hline rfl
      refine ⟨p.closer ++ 10 :: more, ts, ?_⟩
      rw [← hts, List.append_assoc]
      rfl

/-! ## Flaws stay -/

/-- A text that is malformed other than by an open string is so whatever lines follow. -/
theorem malformed_newline {a : Bytes} {e : SyntaxError} (h : parse a = .error (.malformed e))
    (ha : ∀ e, tokenize a = .error e → e.fault ≠ .unterminatedString) (b : Bytes) :
    ∃ e', parse (a ++ 10 :: b) = .error (.malformed e') := by
  rcases leaves_or_flaw a with ⟨r, hr⟩ | ⟨e', he'⟩ | ⟨ts, f, hts, hf⟩
  · exact absurd h (hr.not_malformed e)
  · exact ⟨e', parse_of_tokenize_error (tokenize_newline_of_error he' (ha e' he') b)⟩
  · have hboth := tokenize_newline_of_ok hts b
    cases hb : tokenize b with
    | error e' =>
      rw [hb] at hboth
      exact ⟨_, parse_of_tokenize_error hboth⟩
    | ok us =>
      -- the flaw is met before the tokens of the second text are
      have hfeed : (ts ++ us.map (Token.down (a.count 10 + 1))).foldlM Reader.feed Reader.start =
          .error f := by
        rw [List.foldlM_append, hf]
        rfl
      rw [hb] at hboth
      exact ⟨_, parse_of_flaw hboth hfeed⟩

/-- A text with no open string can be completed by further lines if and only if it is complete or
is called incomplete; a malformed one stays malformed whatever follows. -/
theorem incomplete_iff_completable {s : Bytes}
    (h : ∀ e, tokenize s = .error e → e.fault ≠ .unterminatedString) :
    ((∃ t ts, parse (s ++ 10 :: t) = .ok ts) ↔
      (∃ ts, parse s = .ok ts) ∨ parse s = .error .incomplete) ∧
    ∀ e, parse s = .error (.malformed e) →
      ∀ t, ∃ e', parse (s ++ 10 :: t) = .error (.malformed e') := by
  constructor
  · constructor
    · rintro ⟨t, ts, hts⟩
      cases hs : parse s with
      | ok xs => exact .inl ⟨xs, rfl⟩
      | error e =>
        cases e with
        | incomplete => exact .inr rfl
        | malformed e =>
          obtain ⟨e', he'⟩ := malformed_newline hs h t
          rw [hts] at he'
          cases he'
    · intro hs
      have hnot : ∀ e, parse s ≠ .error (.malformed e) := by
        intro e he
        rcases hs with ⟨ts, hts⟩ | hs
        · rw [hts] at he; cases he
        · rw [hs] at he; cases he
      obtain ⟨r, hr⟩ := leaves_of_not_malformed hnot
      exact hr.completion
  · intro e he t
    exact malformed_newline he h t

/-- Brackets of both shapes, marks and a hash are open at the end, after a comment. -/
def openForms : Bytes := Bytes.ofString "(f \x7b:k '~@ # ; (\n"

def crossedBrackets : Bytes := Bytes.ofString "(f \x7b)"

theorem openForms_completable :
    parse openForms = .error .incomplete ∧
      (∃ t ts, parse (openForms ++ 10 :: t) = .ok ts) ∧
      ∀ t, ∃ e, parse (crossedBrackets ++ 10 :: t) = .error (.malformed e) := by
  have hopen : parse openForms = .error .incomplete := rfl
  have hcrossed : parse crossedBrackets =
      .error (.malformed ⟨.mismatched .curly .round, ⟨1, 5⟩, crossedBrackets⟩) := rfl
  have hfirst := incomplete_iff_completable (s := openForms) (fun e he => by cases he)
  have hsecond := incomplete_iff_completable (s := crossedBrackets) (fun e he => by cases he)
  exact ⟨hopen, hfirst.1.mpr (.inr hopen), hsecond.2 _ hcrossed⟩

end SmallLisp
