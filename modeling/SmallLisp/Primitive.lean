import SmallLisp.Primitive.Arithmetic
import SmallLisp.Primitive.Collection
import SmallLisp.Primitive.Textual

/-! What each native function that only looks at its arguments computes. -/
namespace SmallLisp

def Primitive.call : Primitive → List Term → Result Term
  | .add => Arithmetic.add
  | .sub => Arithmetic.sub
  | .mul => Arithmetic.mul
  | .div => Arithmetic.div
  | .mod => Arithmetic.mod
  | .equal => Collection.equal
  | .differ => Collection.differ
  | .compare c => Arithmetic.compare c
  | .not => Collection.not
  | .list => fun args => .ok (.list args)
  | .cons => Collection.cons
  | .concat => Collection.concat
  | .first => Collection.first
  | .rest => Collection.rest
  | .nth => Collection.nth
  | .count => Collection.count
  | .isEmpty => Collection.isEmpty
  | .reverse => Collection.reverse
  | .isA k => Collection.isA k
  | .isNumber => Collection.isNumber
  | .isMacro => Collection.isMacro
  | .hashMap => Collection.hashMap
  | .get => Collection.get
  | .assoc => Collection.assoc
  | .dissoc => Collection.dissoc
  | .keys => Collection.keys
  | .vals => Collection.vals
  | .hasKey => Collection.hasKey
  | .str => Textual.str
  | .symbol => Textual.symbol
  | .keyword => Textual.keyword
  | .typeOf => Textual.typeOf
  | .readString => Textual.readString
  | .doc => Textual.doc
  | .exit => Textual.exit
  | .throw => Textual.throw
  | .sqrt => Arithmetic.sqrt
  | .pow => Arithmetic.pow
  | .floor => Arithmetic.rounding "floor" Scaled.floor
  | .ceil => Arithmetic.rounding "ceil" Scaled.ceil
  | .abs => Arithmetic.abs
  | .split => Textual.split
  | .join => Textual.join
  | .upper => Textual.map "upper" (Bytes.mapChars LetterCase.upper)
  | .lower => Textual.map "lower" (Bytes.mapChars LetterCase.lower)
  | .trim => Textual.map "trim" (Bytes.trim CharClass.isSpace)
  | .contains => Textual.test "contains?" fun s sub => Bytes.hasInfix sub s
  | .startsWith => Textual.test "starts-with?" fun s start => start.isPrefixOf s
  | .length => Textual.length

end SmallLisp
