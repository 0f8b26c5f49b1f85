import SmallLisp.Table

/-! The names that are not functions when they stand at the head of a form. -/
namespace SmallLisp

inductive SpecialForm
  | define
  | letIn
  | assign
  | apply
  | quote
  | quasiquote
  | sequence
  | function
  | choose
  | loop
  | defineMacro
  | macroExpand
  | inNs
deriving DecidableEq

namespace SpecialForm

def all : List SpecialForm :=
  [.define, .letIn, .assign, .apply, .quote, .quasiquote, .sequence, .function, .choose, .loop,
   .defineMacro, .macroExpand, .inNs]

def name : SpecialForm → Bytes
  | .define => Bytes.ofString "def"
  | .letIn => Bytes.ofString "let"
  | .assign => Bytes.ofString "set!"
  | .apply => Bytes.ofString "apply"
  | .quote => Bytes.ofString "quote"
  | .quasiquote => Bytes.ofString "quasiquote"
  | .sequence => Bytes.ofString "do"
  | .function => Bytes.ofString "function"
  | .choose => Bytes.ofString "if"
  | .loop => Bytes.ofString "while"
  | .defineMacro => Bytes.ofString "defmacro"
  | .macroExpand => Bytes.ofString "macroexpand"
  | .inNs => Bytes.ofString "in-ns"

def ofName? (name : Bytes) : Option SpecialForm := all.find? fun f => f.name == name

end SpecialForm
end SmallLisp
