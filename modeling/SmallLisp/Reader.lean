import SmallLisp.Term
import SmallLisp.Token.Scanner

/-! From tokens to terms. The reader takes one token at a time and keeps a stack of what is still
open: brackets with the terms seen in them, and quotation marks that wait for their term. Reading
a text is a fold over its tokens; the text is complete when nothing is open at its end. -/
namespace SmallLisp

/-- A mark in front of a term: ' ` ~ and ~@. -/
inductive Mark
  | quote
  | quasiquote
  | unquote
  | splice
deriving DecidableEq

namespace Mark

/-- The name of the form that a mark stands for. -/
def form : Mark → Bytes
  | .quote => Bytes.ofString "quote"
  | .quasiquote => Bytes.ofString "quasiquote"
  | .unquote => Bytes.ofString "unquote"
  | .splice => Bytes.ofString "splice-unquote"

def width : Mark → Nat
  | .splice => 2
  | _ => 1

def widths : List Mark → Nat
  | [] => 0
  | m :: ms => m.width + widths ms

def apply (m : Mark) (t : Term) : Term := .list [.symbol m.form, t]

/-- The marks at the front of a symbol's text, and what follows them. -/
def strip : Bytes → List Mark × Bytes
  | 126 :: 64 :: s => let (ms, r) := strip s; (.splice :: ms, r)
  | 39 :: s => let (ms, r) := strip s; (.quote :: ms, r)
  | 96 :: s => let (ms, r) := strip s; (.quasiquote :: ms, r)
  | 126 :: s => let (ms, r) := strip s; (.unquote :: ms, r)
  | s => ([], s)

end Mark

/-- What an open bracket collects: the elements of a list, the arguments of `hash-map`, or the
parts of a function. -/
inductive Group
  | list
  | dict
  | function
deriving DecidableEq

namespace Group

def bracket : Group → Bracket
  | .dict => .curly
  | _ => .round

def build : Group → List Term → Term
  | .list, ts => .list ts
  | .dict, ts => .list (.sym "hash-map" :: ts)
  | .function, ts => .list (.sym "function" :: ts)

end Group

/-- Something still open. The terms of a group are in reverse; a hash waits for its bracket. -/
inductive Pending
  | group (g : Group) (seen : List Term)
  | mark (m : Mark)
  | hash

/-- What is open, the innermost first, and the complete terms, the latest first. -/
structure Reader where
  stack : List Pending
  terms : List Term

namespace Reader

def start : Reader := ⟨[], []⟩

/-- A term is complete: the marks before it apply, and it joins the group around it. -/
def put : List Pending → List Term → Term → Reader
  | .mark m :: stack, terms, t => put stack terms (m.apply t)
  | .group g seen :: stack, terms, t => ⟨.group g (t :: seen) :: stack, terms⟩
  | stack, terms, t => ⟨stack, t :: terms⟩

/-- Text after a mark that is a number rather than a name: decided by its first bytes. -/
def looksNumeric : Bytes → Bool
  | b :: c :: _ => (Literal.digit? 10 b).isSome || (b == 45 && (Literal.digit? 10 c).isSome)
  | [b] => (Literal.digit? 10 b).isSome
  | [] => false

/-- A name: a keyword if a colon stands before it. -/
def name : Bytes → Term
  | 58 :: b :: s => .keyword (b :: s)
  | s => .symbol s

def numeral : Literal.Numeral → Term
  | .int n => .int n
  | .float x => .float x

/-- The text of a symbol: marks and then a name, a hash, a number, or nothing. -/
def feedSymbol (r : Reader) (text : Bytes) (pos : Position) : Except Flaw Reader :=
  let (marks, rest) := Mark.strip text
  let stack := (marks.map Pending.mark).reverse ++ r.stack
  if rest.isEmpty then .ok ⟨stack, r.terms⟩
  else if rest == [35] then .ok ⟨.hash :: stack, r.terms⟩
  else if !marks.isEmpty && looksNumeric rest then
    match Literal.number? rest with
    | some v => .ok (put stack r.terms (numeral v))
    | none =>
      .error ⟨.malformedNumber rest, ⟨pos.line, pos.col + Mark.widths marks⟩⟩
  else .ok (put stack r.terms (name rest))

/-- A closing bracket ends the innermost group, which must be of its shape. -/
def feedClosing (r : Reader) (b : Bracket) (pos : Position) : Except Flaw Reader :=
  match r.stack with
  | .group g seen :: stack =>
    if g.bracket == b then .ok (put stack r.terms (g.build seen.reverse))
    else .error ⟨.mismatched g.bracket b, pos⟩
  | _ => .error ⟨.unexpectedClosing b, pos⟩

def feed (r : Reader) (t : Token) : Except Flaw Reader :=
  match r.stack, t.lexeme with
  | .hash :: stack, .opening .round => .ok ⟨.group .function [] :: stack, r.terms⟩
  | .hash :: _, _ => .error ⟨.notAfterHash, t.pos⟩
  | stack, .opening .round => .ok ⟨.group .list [] :: stack, r.terms⟩
  | stack, .opening .curly => .ok ⟨.group .dict [] :: stack, r.terms⟩
  | _, .closing b => r.feedClosing b t.pos
  | stack, .number _ v => .ok (put stack r.terms (numeral v))
  | stack, .string s => .ok (put stack r.terms (.string s))
  | _, .symbol text => r.feedSymbol text t.pos

end Reader

/-- Why a text could not be read. An incomplete one may become readable when more follows. -/
inductive ParseError
  | malformed (e : SyntaxError)
  | incomplete
deriving DecidableEq

/-- The terms of a list of tokens; a text that ends inside a term is incomplete. -/
def readAll (tokens : List Token) : Except Flaw (Option (List Term)) :=
  (tokens.foldlM Reader.feed Reader.start).map fun r =>
    if r.stack.isEmpty then some r.terms.reverse else none

theorem readAll_eq_some_iff {tokens : List Token} {ts : List Term} :
    readAll tokens = .ok (some ts) ↔
      tokens.foldlM Reader.feed Reader.start = .ok ⟨[], ts.reverse⟩ := by
  unfold readAll
  cases tokens.foldlM Reader.feed Reader.start with
  | error f => simp [Except.map]
  | ok r =>
    obtain ⟨stack, terms⟩ := r
    cases stack with
    | nil => simp [Except.map, List.reverse_eq_iff]
    | cons p stack => simp [Except.map]

/-- Feeds tokens until the first term is complete. -/
def readFirst : Reader → List Token → Except Flaw (Option Term)
  | _, [] => .ok none
  | r, t :: ts =>
    (r.feed t).bind fun r =>
      match r.terms with
      | first :: _ => .ok (some first)
      | [] => readFirst r ts

theorem readFirst_goesOn {r r' : Reader} {t : Token} (h : r.feed t = .ok r') (hr : r'.terms = [])
    (ts : List Token) : readFirst r (t :: ts) = readFirst r' ts := by
  simp [readFirst, h, hr, Except.bind]

theorem readFirst_ends {r r' : Reader} {t : Token} (h : r.feed t = .ok r') {x : Term}
    {xs : List Term} (hr : r'.terms = x :: xs) (ts : List Token) :
    readFirst r (t :: ts) = .ok (some x) := by
  simp [readFirst, h, hr, Except.bind]

/-- Reads the tokens of a text with `f`. -/
def parseWith {α : Type} (f : List Token → Except Flaw (Option α)) (src : Bytes) :
    Except ParseError α :=
  match tokenize src with
  | .error e => .error (.malformed e)
  | .ok tokens =>
    match f tokens with
    | .error flaw => .error (.malformed (flaw.locate src))
    | .ok none => .error .incomplete
    | .ok (some a) => .ok a

theorem parseWith_eq_ok_iff {α : Type} {f : List Token → Except Flaw (Option α)} {src : Bytes}
    {a : α} :
    parseWith f src = .ok a ↔ ∃ tokens, tokenize src = .ok tokens ∧ f tokens = .ok (some a) := by
  unfold parseWith
  cases tokenize src with
  | error e => simp
  | ok tokens => cases hf : f tokens with
    | error flaw => simp [hf]
    | ok o => cases o <;> simp [hf]

/-- Every term of a text. -/
def parse (src : Bytes) : Except ParseError (List Term) := parseWith readAll src

/-- The first term of a text, all of which must consist of tokens. -/
def parseFirst (src : Bytes) : Except ParseError Term := parseWith (readFirst Reader.start) src

end SmallLisp
