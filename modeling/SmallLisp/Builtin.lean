import SmallLisp.Table

/-! The native functions: which there are, the namespace and name each is bound to, and its
documentation. Those of `Primitive` look at nothing but their arguments; those of `Effect` read or
change the state of the interpreter. -/
namespace SmallLisp

/-- The type of a value, as programs see it. -/
inductive Kind
  | list
  | dict
  | symbol
  | int
  | float
  | string
  | bool
  | nil
  | keyword
  | function
deriving DecidableEq

def Kind.name : Kind → Bytes
  | .list => Bytes.ofString "list"
  | .dict => Bytes.ofString "dict"
  | .symbol => Bytes.ofString "symbol"
  | .int => Bytes.ofString "int"
  | .float => Bytes.ofString "float"
  | .string => Bytes.ofString "string"
  | .bool => Bytes.ofString "bool"
  | .nil => Bytes.ofString "nil"
  | .keyword => Bytes.ofString "keyword"
  | .function => Bytes.ofString "function"

inductive Comparison
  | less
  | greater
  | lessEqual
  | greaterEqual
deriving DecidableEq

inductive Primitive
  | add
  | sub
  | mul
  | div
  | mod
  | equal
  | differ
  | compare (c : Comparison)
  | not
  | list
  | cons
  | concat
  | first
  | rest
  | nth
  | count
  | isEmpty
  | reverse
  | isA (k : Kind)
  | isNumber
  | isMacro
  | hashMap
  | get
  | assoc
  | dissoc
  | keys
  | vals
  | hasKey
  | str
  | symbol
  | keyword
  | typeOf
  | readString
  | doc
  | exit
  | throw
  | sqrt
  | pow
  | floor
  | ceil
  | abs
  | split
  | join
  | upper
  | lower
  | trim
  | contains
  | startsWith
  | length
deriving DecidableEq

inductive Effect
  | print
  | println
  | prn
  | gensym
  | eval
  | slurp
  | load
  | importNs
  | aliasTo
  | nsName
  | nsPublics
deriving DecidableEq

inductive Builtin
  | primitive (p : Primitive)
  | effect (e : Effect)
deriving DecidableEq

namespace Builtin

/-- A native function with the name it is bound to and its documentation. -/
structure Entry where
  name : Bytes
  function : Builtin
  doc : Bytes

private def pure (name : String) (p : Primitive) (doc : String) : Entry :=
  ⟨Bytes.ofString name, .primitive p, Bytes.ofString doc⟩

private def effectful (name : String) (e : Effect) (doc : String) : Entry :=
  ⟨Bytes.ofString name, .effect e, Bytes.ofString doc⟩

/-- Arithmetic and comparison, bound in the core namespace. -/
def numbers : List Entry :=
  [pure "+" .add "(+ & xs) sums numbers; ints stay ints unless a float is involved",
   pure "-" .sub "(- x & xs) subtracts, or negates a single argument",
   pure "*" .mul "(* & xs) multiplies numbers",
   pure "/" .div "(/ x & xs) divides; integer division for ints",
   pure "mod" .mod "(mod a b) remainder of a divided by b",
   pure "==" .equal "(== a b & more) structural equality",
   pure "!=" .differ "(!= a b) structural inequality",
   pure "<" (.compare .less) "(< a b & more)",
   pure ">" (.compare .greater) "(> a b & more)",
   pure "<=" (.compare .lessEqual) "(<= a b & more)",
   pure ">=" (.compare .greaterEqual) "(>= a b & more)",
   pure "not" .not "(not b) boolean negation"]

/-- Lists and dicts. -/
def collections : List Entry :=
  [pure "list" .list "(list & xs) a list of the arguments",
   pure "cons" .cons "(cons x l) l with x prepended",
   pure "concat" .concat "(concat & ls) the lists joined in order",
   pure "first" .first "(first l) the first element, or nil",
   pure "rest" .rest "(rest l) all but the first element",
   pure "nth" .nth "(nth l i) the element at index i",
   pure "count" .count "(count x) length of a list, dict or string",
   pure "empty?" .isEmpty "(empty? x) whether a list, dict or string has no elements",
   pure "list?" (.isA .list) "(list? x)",
   pure "reverse" .reverse "(reverse l) l in reverse order",
   pure "hash-map" .hashMap "(hash-map & kvs) a dict of alternating keys and values",
   pure "get" .get "(get d k [default]) the value for k, default or nil when missing",
   pure "assoc" .assoc "(assoc d k v & kvs) d with the pairs added",
   pure "dissoc" .dissoc "(dissoc d & ks) d without the keys",
   pure "keys" .keys "(keys d) the keys in sorted order",
   pure "vals" .vals "(vals d) the values in key order",
   pure "contains?" .hasKey "(contains? d k) whether d has key k",
   pure "dict?" (.isA .dict) "(dict? x)"]

/-- Printing, names and types. -/
def names : List Entry :=
  [pure "str" .str "(str & xs) concatenation of the displayed arguments",
   effectful "print" .print "(print & xs) writes the arguments separated by spaces",
   effectful "println" .println "(println & xs) print followed by a newline",
   effectful "prn" .prn "(prn & xs) writes readable representations and a newline",
   pure "symbol" .symbol "(symbol s) the symbol named s",
   pure "keyword" .keyword "(keyword s) the keyword named s",
   pure "type" .typeOf "(type x) a keyword naming the type of x",
   effectful "gensym" .gensym "(gensym [prefix]) a fresh symbol",
   pure "number?" .isNumber "(number? x)",
   pure "string?" (.isA .string) "(string? x)",
   pure "symbol?" (.isA .symbol) "(symbol? x)",
   pure "keyword?" (.isA .keyword) "(keyword? x)",
   pure "function?" (.isA .function) "(function? x)",
   pure "nil?" (.isA .nil) "(nil? x)",
   pure "bool?" (.isA .bool) "(bool? x)",
   pure "macro?" .isMacro "(macro? x) whether x is a macro"]

/-- Evaluation, files and namespaces. -/
def control : List Entry :=
  [effectful "eval" .eval "(eval form) evaluates form in the calling environment",
   pure "read-string" .readString "(read-string s) reads the first form in s",
   effectful "slurp" .slurp "(slurp path) the contents of a file, or nil with a warning",
   effectful "load" .load "(load path) evaluates every form in a file",
   pure "doc" .doc "(doc f) the docstring of f",
   pure "exit" .exit "(exit [code]) stops evaluation",
   pure "throw" .throw "(throw msg) raises an error",
   effectful "import" .importNs
     "(import ns) makes the root bindings of ns visible in the current namespace",
   effectful "alias" .aliasTo "(alias a ns) lets a/name refer to ns/name",
   effectful "ns-name" .nsName "(ns-name) the current namespace",
   effectful "ns-publics" .nsPublics "(ns-publics [ns]) the sorted root binding names of ns"]

def core : List Entry := numbers ++ collections ++ names ++ control

def math : List Entry :=
  [pure "sqrt" .sqrt "(sqrt x)",
   pure "pow" .pow "(pow x y) x to the power y; ints stay ints for non-negative exponents",
   pure "floor" .floor "(floor x)",
   pure "ceil" .ceil "(ceil x)",
   pure "abs" .abs "(abs x)"]

def string : List Entry :=
  [pure "split" .split "(split s sep) s cut around every sep",
   pure "join" .join "(join l sep) the displayed elements of l separated by sep",
   pure "upper" .upper "(upper s)",
   pure "lower" .lower "(lower s)",
   pure "trim" .trim "(trim s) s without surrounding whitespace",
   pure "contains?" .contains "(contains? s sub)",
   pure "starts-with?" .startsWith "(starts-with? s prefix)",
   pure "length" .length "(length s) the number of characters in s"]

/-- The documentation of a native function. -/
def doc (b : Builtin) : Bytes :=
  (((core ++ math ++ string).find? fun e => e.function == b).map Entry.doc).getD []

end Builtin
end SmallLisp
