import SmallLisp.Disk
import SmallLisp.Reader
import SmallLisp.Term.Printer

/-! What can go wrong when a program runs. Errors are kept as their causes, with the form that was
being evaluated and the action that failed around them; their wording is in `message`. -/
namespace SmallLisp

/-- How many arguments were expected. -/
inductive Arity
  | exactly (n : Nat)
  | one
  | twoOrThree
  | atLeast (n : Nat)
  | atMostOne
deriving DecidableEq

def Arity.phrase : Arity → Bytes
  | .exactly n => Bytes.ofNat n ++ Bytes.ofString " arguments"
  | .one => Bytes.ofString "1 argument"
  | .twoOrThree => Bytes.ofString "2 or 3 arguments"
  | .atLeast n => Bytes.ofString "at least " ++ Bytes.ofNat n ++ Bytes.ofString " arguments"
  | .atMostOne => Bytes.ofString "at most 1 argument"

/-- What kind of value was expected. -/
inductive Wanted
  | number
  | string
  | list
  | dict
  | name
  | bool
  | int
  | index
  | function
  | symbol
  | sized
deriving DecidableEq

def Wanted.phrase : Wanted → Bytes
  | .number => Bytes.ofString "a number"
  | .string => Bytes.ofString "a string"
  | .list => Bytes.ofString "a list"
  | .dict => Bytes.ofString "a dict"
  | .name => Bytes.ofString "a symbol or string"
  | .bool => Bytes.ofString "a bool"
  | .int => Bytes.ofString "an int"
  | .index => Bytes.ofString "an int index"
  | .function => Bytes.ofString "a function"
  | .symbol => Bytes.ofString "a symbol"
  | .sized => Bytes.ofString "a list, dict or string"

/-- A special form or native function was not used as it should be. `who` is its name. -/
inductive Complaint
  | arity (who : Bytes) (want : Arity) (got : Nat)
  | testArity (got : Nat)
  | noArguments (who : Bytes)
  | wrongKind (who : Bytes) (want : Wanted) (got : Kind)
  | condition (who : Bytes) (got : Kind)
  | noBindings
  | oddBindings
  | noLoopBody
  | notInterpreted (value : Term)
  | noParameters
  | restParameter
  | docKind (got : Kind)
  | parameters (given : Term)
  | straySplice
  | unpairedKey (got : Nat)
  | badKey (who : Bytes) (got : Kind)
  | noPairs
  | noDict
  | outOfRange (index : Int64) (length : Nat)
  | noImports
  | noNamespace (name : Bytes)
  | thrown (message : Bytes)

namespace Complaint

private def cat (parts : List Bytes) : Bytes := parts.flatten

def message : Complaint → Bytes
  | .arity who want got =>
    cat [who, Bytes.ofString ": expected ", want.phrase, Bytes.ofString ", got ", Bytes.ofNat got]
  | .testArity got => Bytes.ofString "expected 1 argument, got " ++ Bytes.ofNat got
  | .noArguments who => who ++ Bytes.ofString ": expected at least 1 argument"
  | .wrongKind who want got =>
    cat [who, Bytes.ofString ": expected ", want.phrase, Bytes.ofString ", got ", got.name]
  | .condition who got =>
    cat [who, Bytes.ofString ": condition must be a bool, got ", got.name]
  | .noBindings => Bytes.ofString "let: expected a bindings list"
  | .oddBindings => Bytes.ofString "let: bindings must be a list of even length"
  | .noLoopBody => Bytes.ofString "while: expected a condition and a body"
  | .notInterpreted v =>
    Bytes.ofString "defmacro: expected an interpreted function, got " ++ v.render
  | .noParameters => Bytes.ofString "function: expected a parameter list"
  | .restParameter => Bytes.ofString "function: & must be followed by exactly one parameter"
  | .docKind got => Bytes.ofString "function: docstring must be a string, got " ++ got.name
  | .parameters t =>
    Bytes.ofString "function: parameters must be a list of symbols, got " ++ t.render
  | .straySplice => Bytes.ofString "splice-unquote: not inside a list"
  | .unpairedKey got =>
    Bytes.ofString "hash-map: expected an even number of arguments, got " ++ Bytes.ofNat got
  | .badKey who got =>
    cat [who, Bytes.ofString ": ", got.name, Bytes.ofString " is not a valid key"]
  | .noPairs => Bytes.ofString "assoc: expected a dict and key value pairs"
  | .noDict => Bytes.ofString "dissoc: expected a dict"
  | .outOfRange i n =>
    cat [Bytes.ofString "nth: index ", Bytes.ofInt i.toInt,
      Bytes.ofString " out of range for list of length ", Bytes.ofNat n]
  | .noImports => Bytes.ofString "import: expected at least 1 namespace"
  | .noNamespace name => Bytes.ofString "ns-publics: no namespace " ++ name
  | .thrown m => m

end Complaint

/-- A failure of evaluation itself. -/
inductive RuntimeFault
  | unbound (name : Bytes)
  | unknownNamespace (name : Bytes)
  | notLocal (name : Bytes)
  | notFunction (head : Term)
  | tooFewArguments (least got : Nat)
  | argumentCount (want got : Nat)
  | divisionByZero
  | powerOverflow

namespace RuntimeFault

def message : RuntimeFault → Bytes
  | .unbound name => Bytes.ofString "unbound symbol " ++ name
  | .unknownNamespace name => Bytes.ofString "unknown namespace " ++ name
  | .notLocal name => Bytes.ofString "set!: " ++ name ++ Bytes.ofString " is not a local binding"
  | .notFunction t => Bytes.ofString "not a function: " ++ t.render
  | .tooFewArguments n got =>
    Bytes.ofString "expected at least " ++ Bytes.ofNat n ++ Bytes.ofString " arguments, got " ++
      Bytes.ofNat got
  | .argumentCount n got =>
    Bytes.ofString "expected " ++ Bytes.ofNat n ++ Bytes.ofString " arguments, got " ++
      Bytes.ofNat got
  | .divisionByZero => Bytes.ofString "division by zero"
  | .powerOverflow => Bytes.ofString "pow: integer overflow"

end RuntimeFault

/-- `unread` asks for a file whose contents are not known yet. -/
inductive Error
  | malformed (e : SyntaxError)
  | incomplete
  | exit (code : Int64)
  | runtime (fault : RuntimeFault)
  | general (complaint : Complaint)
  | fileMissing
  | unreadable (path : Bytes) (reason : FileError)
  | outputFailed
  | unknownLibrary (name : Bytes)
  | unread (path : Bytes)
  | inForm (form : Term) (cause : Error)
  | during (action : Bytes) (cause : Error)

namespace Error

def ofParse : ParseError → Error
  | .malformed e => .malformed e
  | .incomplete => .incomplete

/-- The innermost cause. -/
def root : Error → Error
  | .inForm _ e => e.root
  | .during _ e => e.root
  | e => e

/-- The form attached to the error, if one is. -/
def form? : Error → Option Term
  | .inForm t _ => some t
  | .during _ e => e.form?
  | _ => none

/-- All forms attached to the error, the outermost first. -/
def forms : Error → List Term
  | .inForm t e => t :: e.forms
  | .during _ e => e.forms
  | _ => []

theorem form?_eq_head (e : Error) : e.form? = e.forms.head? := by
  induction e with
  | during action e ih => exact ih
  | _ => rfl

/-- Errors of the program itself are reported with the form they arose in; others, such as an exit
or a missing file, are not. -/
def takesForm (e : Error) : Bool :=
  match e.root with
  | .runtime _ | .general _ => true
  | _ => false

/-- Attaches the form, unless one further inside is attached already. -/
def withForm (e : Error) (form : Term) : Error :=
  if e.form?.isNone && e.takesForm then .inForm form e else e

/-- An error with a form attached stays as it is. -/
theorem withForm_of_forms {e : Error} (h : e.forms ≠ []) (form : Term) : e.withForm form = e := by
  obtain ⟨t, ts, hts⟩ := List.exists_cons_of_ne_nil h
  simp [withForm, form?_eq_head, hts]

/-- The error without the forms attached to it. -/
def bare : Error → Error
  | .inForm _ e => e.bare
  | .during action e => .during action e.bare
  | e => e

@[simp] theorem bare_withForm (e : Error) (form : Term) : (e.withForm form).bare = e.bare := by
  unfold withForm
  split <;> rfl

def message : Error → Bytes
  | .malformed e => e.message
  | .incomplete => Bytes.ofString "incomplete form"
  | .exit code => Bytes.ofString "exit " ++ Bytes.ofInt code.toInt
  | .runtime f => f.message
  | .general c => c.message
  | .fileMissing => Bytes.ofString "file does not exist"
  | .unreadable path reason => reason.message path
  | .outputFailed => Bytes.ofString "broken stdout"
  | .unknownLibrary name =>
    Bytes.ofString "lib: unknown library " ++ Quoted.text name ++
      Bytes.ofString " (have core, math, string)"
  | .unread path => Bytes.ofString "unread file " ++ path
  | .inForm t e => e.message ++ 10 :: Bytes.ofString "  in form: " ++ t.render
  | .during action e => action ++ Bytes.ofString ": " ++ e.message

/-- The message after the class of the error, as it is shown to a user. -/
def report (e : Error) : Bytes :=
  let label := match e.root with
    | .malformed _ | .incomplete => "Syntax Error: "
    | .runtime _ => "Runtime Error: "
    | _ => "Error: "
  Bytes.ofString label ++ e.message

end Error
end SmallLisp
