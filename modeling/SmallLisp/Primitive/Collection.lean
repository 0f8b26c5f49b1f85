import SmallLisp.Primitive.Arguments
import SmallLisp.Term.Dict

/-! Lists, dicts, equality and tests on values. -/
namespace SmallLisp.Collection

private def sameNeighbours : List Term → Bool
  | t :: u :: ts => t.same u && sameNeighbours (u :: ts)
  | _ => true

/-- Whether neighbours are equal. -/
def equal (args : List Term) : Result Term :=
  if args.length < 2 then Arguments.arity "==" (.atLeast 2) args
  else .ok (.bool (sameNeighbours args))

def differ (args : List Term) : Result Term := do
  let (t, u) ← Arguments.two "!=" args
  return .bool (!t.same u)

def not (args : List Term) : Result Term := do
  let t ← Arguments.one "not" args
  let b ← Arguments.bool "not" t
  return .bool (!b)

def cons (args : List Term) : Result Term := do
  let (t, u) ← Arguments.two "cons" args
  let ts ← Arguments.list "cons" u
  return .list (t :: ts)

/-- The elements of lists, in order. -/
def append : List Term → Result (List Term)
  | [] => .ok []
  | t :: ts => do
    let xs ← Arguments.list "concat" t
    let rest ← append ts
    return xs ++ rest

def concat (args : List Term) : Result Term := (append args).map .list

def first (args : List Term) : Result Term := do
  let t ← Arguments.one "first" args
  let ts ← Arguments.list "first" t
  return ts.headD .nil

def rest (args : List Term) : Result Term := do
  let t ← Arguments.one "rest" args
  let ts ← Arguments.list "rest" t
  return .list ts.tail

def nth (args : List Term) : Result Term := do
  let (t, u) ← Arguments.two "nth" args
  let ts ← Arguments.list "nth" t
  let i ← Arguments.index "nth" u
  match (if i < 0 then none else ts[i.toInt.toNat]?) with
  | some v => .ok v
  | none => Arguments.complain (.outOfRange i ts.length)

def count (args : List Term) : Result Term := do
  let t ← Arguments.one "count" args
  let n ← Arguments.size "count" t
  return .int (Int64.ofNat n)

def isEmpty (args : List Term) : Result Term := do
  let t ← Arguments.one "empty?" args
  let b ← Arguments.empty "empty?" t
  return .bool b

def reverse (args : List Term) : Result Term := do
  let t ← Arguments.one "reverse" args
  let ts ← Arguments.list "reverse" t
  return .list ts.reverse

/-- A test for a kind of value names nobody when it complains. -/
def isA (k : Kind) : List Term → Result Term
  | [t] => .ok (.bool (t.kind == k))
  | args => Arguments.complain (.testArity args.length)

def isNumber (args : List Term) : Result Term := do
  let t ← Arguments.one "number?" args
  return .bool (Arguments.number? t).isSome

def isMacro (args : List Term) : Result Term := do
  match ← Arguments.one "macro?" args with
  | .closure f => return .bool f.isMacro
  | _ => return .bool false

/-- Enters keys and values that alternate. -/
def insertPairs (who : String) : Entries → List Term → Result Entries
  | es, k :: v :: kvs => do
    let key ← Arguments.key who k
    insertPairs who (es.insert key v) kvs
  | es, _ => .ok es

def hashMap (args : List Term) : Result Term :=
  if args.length % 2 == 1 then Arguments.complain (.unpairedKey args.length)
  else (insertPairs "hash-map" [] args).map .dict

/-- The value at a key; what cannot be a key is never found. -/
def valueAt (es : Entries) : Term → Option Term
  | .atom k => es.get? k
  | _ => none

def get (args : List Term) : Result Term :=
  let look (d k default : Term) : Result Term := do
    let es ← Arguments.dict "get" d
    return (valueAt es k).getD default
  match args with
  | [d, k] => look d k .nil
  | [d, k, default] => look d k default
  | args => Arguments.arity "get" .twoOrThree args

def assoc (args : List Term) : Result Term :=
  match args with
  | d :: k :: v :: kvs =>
    if kvs.length % 2 == 1 then Arguments.complain .noPairs
    else do
      let es ← Arguments.dict "assoc" d
      (insertPairs "assoc" es (k :: v :: kvs)).map .dict
  | _ => Arguments.complain .noPairs

private def eraseKey (es : Entries) : Term → Entries
  | .atom k => es.erase k
  | _ => es

def dissoc (args : List Term) : Result Term :=
  match args with
  | [] => Arguments.complain .noDict
  | d :: ks => do
    let es ← Arguments.dict "dissoc" d
    return .dict (ks.foldl eraseKey es)

def keys (args : List Term) : Result Term := do
  let d ← Arguments.one "keys" args
  let es ← Arguments.dict "keys" d
  return .list (es.keys.map .atom)

def vals (args : List Term) : Result Term := do
  let d ← Arguments.one "vals" args
  let es ← Arguments.dict "vals" d
  return .list es.vals

def hasKey (args : List Term) : Result Term := do
  let (d, k) ← Arguments.two "contains?" args
  let es ← Arguments.dict "contains?" d
  return .bool (valueAt es k).isSome

end SmallLisp.Collection
