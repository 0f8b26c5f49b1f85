import SmallLisp.Library
import SmallLisp.Reader

/-! The core library as data: a switch of the namespace and then one definition after the other, six
of macros and eight of functions (`parse_core`). -/
namespace SmallLisp

/-- A form with the symbol `f` at its head. -/
def formOf (f : String) (args : List Term) : Term := .list (.sym f :: args)

/-- The definition of a function or a macro with one form for a body; `rest` names the list of
arguments beyond the parameters. -/
structure Definition where
  isMacro : Bool
  name : String
  doc : Option String
  params : List String
  rest : Option String
  body : Term

namespace Definition

def names (d : Definition) : List Bytes :=
  d.params.map Bytes.ofString ++
    match d.rest with
    | some rest => [[38], Bytes.ofString rest]
    | none => []

def parts (d : Definition) : List Term :=
  let function : List Term := [.list (d.names.map .symbol), d.body]
  match d.doc with
  | some doc => .string (Bytes.ofString doc) :: function
  | none => function

/-- `(defmacro name (function ...))` or `(defn name ...)` -/
def form (d : Definition) : Term :=
  if d.isMacro then formOf "defmacro" [.sym d.name, formOf "function" d.parts]
  else formOf "defn" (.sym d.name :: d.parts)

end Definition

/-! ## Macros -/

private def template (f : String) (args : List Term) : Term :=
  Mark.quasiquote.apply (formOf f args)

private def hole (f : String) (args : List Term) : Term := Mark.unquote.apply (formOf f args)

private def filled (name : String) : Term := Mark.unquote.apply (.sym name)

private def spliced (name : String) : Term := Mark.splice.apply (.sym name)

def defnMacro : Definition :=
  ⟨true, "defn", none, ["name"], some "decl",
    template "def" [filled "name", formOf "function" [spliced "decl"]]⟩

def whenMacro : Definition :=
  ⟨true, "when", none, ["c"], some "body",
    template "if" [filled "c", formOf "do" [spliced "body"]]⟩

def unlessMacro : Definition :=
  ⟨true, "unless", none, ["c"], some "body",
    template "if" [filled "c", .sym "nil", formOf "do" [spliced "body"]]⟩

/-- `(if ~(first clauses) ~(nth clauses 1) (cond ~@(rest (rest clauses))))` -/
def condTemplate : Term :=
  let clauses : Term := .sym "clauses"
  formOf "if" [hole "first" [clauses], hole "nth" [clauses, .int 1],
    formOf "cond" [Mark.splice.apply (formOf "rest" [formOf "rest" [clauses]])]]

def condMacro : Definition :=
  ⟨true, "cond", none, [], some "clauses",
    formOf "if" [formOf "empty?" [.sym "clauses"], .sym "nil",
      Mark.quasiquote.apply condTemplate]⟩

/-- `(if ~(first xs) (and ~@(rest xs)) false)` -/
def andTemplate : Term :=
  formOf "if" [hole "first" [.sym "xs"],
    formOf "and" [Mark.splice.apply (formOf "rest" [.sym "xs"])], .sym "false"]

def andMacro : Definition :=
  let xs : Term := .sym "xs"
  ⟨true, "and", none, [], some "xs",
    formOf "if" [formOf "empty?" [xs], .sym "true",
      formOf "if" [formOf "empty?" [formOf "rest" [xs]], formOf "first" [xs],
        Mark.quasiquote.apply andTemplate]]⟩

def orMacro : Definition :=
  let xs : Term := .sym "xs"
  let rest := formOf "rest" [xs]
  ⟨true, "or", none, [], some "xs",
    formOf "if" [formOf "empty?" [xs], .sym "false",
      formOf "if" [formOf "empty?" [rest], formOf "first" [xs],
        formOf "let" [formOf "g" [formOf "gensym" [.string (Bytes.ofString "or__")]],
          template "let" [.list [filled "g", hole "first" [xs]],
            formOf "if" [filled "g", filled "g",
              formOf "or" [Mark.splice.apply rest]]]]]]⟩

/-! ## Functions -/

def reduceFunction : Definition :=
  let l : Term := .sym "l"
  ⟨false, "reduce", some "folds f over l starting from init", ["f", "init", "l"], none,
    formOf "if" [formOf "empty?" [l], .sym "init",
      formOf "reduce" [.sym "f", formOf "f" [.sym "init", formOf "first" [l]],
        formOf "rest" [l]]]⟩

/-- `(let (step (function params (if test yes (step next acc)))) (step start ()))` -/
def stepLoop (params : List Term) (test yes next acc start : Term) : Term :=
  formOf "let" [formOf "step" [formOf "function" [.list params,
      formOf "if" [test, yes, formOf "step" [next, acc]]]],
    formOf "step" [start, .list []]]

/-- `(f (first l))` -/
def onFirst (f : String) : Term := formOf f [formOf "first" [.sym "l"]]

/-- A loop down the list `l` that puts the results together in `acc`, in reverse. -/
def listLoop (acc : Term) : Term :=
  stepLoop [.sym "l", .sym "acc"] (formOf "empty?" [.sym "l"]) (formOf "reverse" [.sym "acc"])
    (formOf "rest" [.sym "l"]) acc (.sym "l")

def mapFunction : Definition :=
  ⟨false, "map", some "applies f to every element of l", ["f", "l"], none,
    listLoop (formOf "cons" [onFirst "f", .sym "acc"])⟩

def filterFunction : Definition :=
  ⟨false, "filter", some "the elements of l for which pred holds", ["pred", "l"], none,
    listLoop (formOf "if" [onFirst "pred",
      formOf "cons" [formOf "first" [.sym "l"], .sym "acc"], .sym "acc"])⟩

def rangeFunction : Definition :=
  ⟨false, "range", some "the ints from 0 below n", ["n"], none,
    stepLoop [.sym "i", .sym "acc"] (formOf "<" [.sym "i", .int 0]) (.sym "acc")
      (formOf "-" [.sym "i", .int 1]) (formOf "cons" [.sym "i", .sym "acc"])
      (formOf "-" [.sym "n", .int 1])⟩

/-! ## The text -/

def coreDefinitions : List Definition :=
  [defnMacro, whenMacro, unlessMacro, condMacro, andMacro, orMacro,
    ⟨false, "identity", none, ["x"], none, .sym "x"⟩,
    ⟨false, "inc", some "x plus one", ["x"], none, formOf "+" [.sym "x", .int 1]⟩,
    ⟨false, "dec", some "x minus one", ["x"], none, formOf "-" [.sym "x", .int 1]⟩,
    ⟨false, "second", none, ["l"], none, formOf "first" [formOf "rest" [.sym "l"]]⟩,
    reduceFunction, mapFunction, filterFunction, rangeFunction]

def coreForms : List Term := formOf "in-ns" [.sym "core"] :: coreDefinitions.map Definition.form

theorem ofString_ofList (cs : List Char) :
    Bytes.ofString (String.ofList cs) = Bytes.ofChars cs := by
  rw [Bytes.ofString, String.toList_ofList]

-- the text of the library is a list of more than a thousand characters
set_option maxRecDepth 100000 in
theorem parse_core : parse (Bytes.ofString Library.core) = .ok coreForms := by
  unfold Library.core
  rw [ofString_ofList]
  rfl

end SmallLisp
