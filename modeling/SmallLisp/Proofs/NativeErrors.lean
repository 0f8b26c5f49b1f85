import SmallLisp.Primitive

/-! Errors of native functions. A native function that only looks at its arguments knows nothing of
the form that calls it: its errors have no form attached. -/
namespace SmallLisp

/-- An error of the computation has no form attached. -/
def Plain {α : Type} (r : Except Error α) : Prop := ∀ e, r = .error e → e.forms = []

namespace Plain

theorem ok {α : Type} (a : α) : Plain (.ok a) := nofun

theorem error {α : Type} {e : Error} (h : e.forms = []) : Plain (.error e : Except Error α) := by
  rintro _ ⟨⟩
  exact h

theorem complain {α : Type} (c : Complaint) : Plain (Arguments.complain c : Result α) := error rfl

theorem fault {α : Type} (f : RuntimeFault) : Plain (Arguments.fault f : Result α) := error rfl

theorem bind {α β : Type} {r : Except Error α} {f : α → Except Error β} (hr : Plain r)
    (hf : ∀ a, Plain (f a)) : Plain (r >>= f) := by
  cases r with
  | ok a => exact hf a
  | error e => exact error (hr e rfl)

theorem map {α β : Type} {r : Except Error α} (f : α → β) (hr : Plain r) : Plain (r.map f) := by
  cases r with
  | ok a => exact ok (f a)
  | error e => exact error (hr e rfl)

end Plain

theorem ofParse_forms (e : ParseError) : (Error.ofParse e).forms = [] := by
  cases e <;> rfl

/-! ## Checks on arguments -/

namespace Arguments

variable (who : String)

theorem none_plain (args : List Term) : Plain (none who args) := by
  unfold none
  split
  · exact .ok ()
  · exact .complain _

theorem one_plain (args : List Term) : Plain (one who args) := by
  unfold one
  split
  · exact .ok _
  · exact .complain _

theorem two_plain (args : List Term) : Plain (two who args) := by
  unfold two
  split
  · exact .ok _
  · exact .complain _

theorem number_plain (t : Term) : Plain (number who t) := by
  unfold number
  split
  · exact .ok _
  · exact .complain _

theorem string_plain (t : Term) : Plain (string who t) := by
  unfold string
  split
  · exact .ok _
  · exact .complain _

theorem list_plain (t : Term) : Plain (list who t) := by
  unfold list
  split
  · exact .ok _
  · exact .ok _
  · exact .complain _

theorem dict_plain (t : Term) : Plain (dict who t) := by
  unfold dict
  split
  · exact .ok _
  · exact .complain _

theorem name_plain (t : Term) : Plain (name who t) := by
  unfold name
  split
  · exact .ok _
  · exact .ok _
  · exact .complain _

theorem bool_plain (t : Term) : Plain (bool who t) := by
  unfold bool
  split
  · exact .ok _
  · exact .complain _

theorem int_plain (t : Term) : Plain (int who t) := by
  unfold int
  split
  · exact .ok _
  · exact .complain _

theorem index_plain (t : Term) : Plain (index who t) := by
  unfold index
  split
  · exact .ok _
  · exact .complain _

theorem size_plain (t : Term) : Plain (size who t) := by
  unfold size
  split
  case h_5 => exact .complain _
  all_goals exact .ok _

theorem empty_plain (t : Term) : Plain (empty who t) := by
  unfold empty
  split
  case h_5 => exact .complain _
  all_goals exact .ok _

theorem key_plain (t : Term) : Plain (key who t) := by
  unfold key
  split
  · exact .ok _
  · exact .complain _

end Arguments

open Arguments

/-! ## Numbers -/

namespace Arithmetic

def Operation.PlainInt (op : Operation) : Prop := ∀ a b, Plain (op.int a b)

theorem div_plainInt : Operation.div.PlainInt := by
  intro a b
  simp only [Operation.div]
  split
  · exact .fault _
  · exact .ok _

theorem mod_plainInt : Operation.mod.PlainInt := by
  intro a b
  simp only [Operation.mod]
  split
  · exact .fault _
  · exact .ok _

theorem apply_plain {op : Operation} (h : op.PlainInt) (m n : Literal.Numeral) :
    Plain (op.apply m n) := by
  unfold Operation.apply
  split
  · exact .map _ (h _ _)
  · exact .ok _

theorem fold_plain {op : Operation} (h : op.PlainInt) (who : String) (acc : Literal.Numeral)
    (args : List Term) : Plain (op.fold who acc args) := by
  induction args generalizing acc with
  | nil => exact .ok acc
  | cons t ts ih =>
    exact .bind (number_plain who t) fun n => .bind (apply_plain h acc n) fun acc => ih acc

theorem reduce_plain {op : Operation} (h : op.PlainInt) (who : String) (unit : Int64)
    (args : List Term) : Plain (op.reduce who unit args) := by
  unfold Operation.reduce
  split
  · exact .complain _
  · exact fold_plain h who _ _
  · exact .bind (number_plain who _) fun n => fold_plain h who n _

theorem chain_plain (c : Comparison) (holds : Bool) (args : List Term) :
    Plain (chain c holds args) := by
  fun_induction chain c holds args with
  | case1 holds t u ts ih =>
    exact .bind (number_plain _ t) fun a => .bind (number_plain _ u) fun b => ih a b
  | case2 => exact .ok _

theorem compare_plain (c : Comparison) (args : List Term) : Plain (compare c args) := by
  unfold compare
  split
  · exact .complain _
  · exact .map _ (chain_plain c true args)

theorem pow_plain (args : List Term) : Plain (pow args) := by
  refine .bind (two_plain _ args) fun ⟨t, u⟩ => .bind (number_plain _ t) fun x =>
    .bind (number_plain _ u) fun y => ?_
  split
  · split
    · split
      · exact .ok _
      · exact .fault _
    · exact .ok _
  · exact .ok _

theorem rounding_plain (who : String) (f : Float → Float) (args : List Term) :
    Plain (rounding who f args) := by
  refine .bind (one_plain who args) fun t => .bind (number_plain who t) fun n => ?_
  cases n <;> exact .ok _

theorem abs_plain (args : List Term) : Plain (abs args) := by
  refine .bind (one_plain _ args) fun t => .bind (number_plain _ t) fun n => ?_
  cases n <;> exact .ok _

end Arithmetic

/-! ## Lists and dicts -/

namespace Collection

theorem append_plain (args : List Term) : Plain (append args) := by
  induction args with
  | nil => exact .ok []
  | cons t ts ih => exact .bind (list_plain _ t) fun _ => .bind ih fun _ => .ok _

theorem nth_plain (args : List Term) : Plain (nth args) := by
  refine .bind (two_plain _ args) fun ⟨t, u⟩ => .bind (list_plain _ t) fun ts =>
    .bind (index_plain _ u) fun i => ?_
  split
  · exact .ok _
  · exact .complain _

theorem isA_plain (k : Kind) (args : List Term) : Plain (isA k args) := by
  unfold isA
  split
  · exact .ok _
  · exact .complain _

theorem isMacro_plain (args : List Term) : Plain (isMacro args) := by
  refine .bind (one_plain _ args) fun t => ?_
  split <;> exact .ok _

theorem insertPairs_plain (who : String) (es : Entries) (args : List Term) :
    Plain (insertPairs who es args) := by
  fun_induction insertPairs who es args with
  | case1 es k v kvs ih => exact .bind (key_plain who k) fun key => ih key
  | case2 => exact .ok _

theorem hashMap_plain (args : List Term) : Plain (hashMap args) := by
  unfold hashMap
  split
  · exact .complain _
  · exact .map _ (insertPairs_plain _ _ args)

theorem get_plain (args : List Term) : Plain (get args) := by
  unfold get
  dsimp only
  split
  · exact .bind (dict_plain _ _) fun _ => .ok _
  · exact .bind (dict_plain _ _) fun _ => .ok _
  · exact .complain _

theorem assoc_plain (args : List Term) : Plain (assoc args) := by
  unfold assoc
  split
  · split
    · exact .complain _
    · exact .bind (dict_plain _ _) fun es => .map _ (insertPairs_plain _ es _)
  · exact .complain _

theorem dissoc_plain (args : List Term) : Plain (dissoc args) := by
  unfold dissoc
  split
  · exact .complain _
  · exact .bind (dict_plain _ _) fun _ => .ok _

theorem equal_plain (args : List Term) : Plain (equal args) := by
  unfold equal
  split
  · exact .complain _
  · exact .ok _

end Collection

/-! ## Text -/

namespace Textual

theorem readString_plain (args : List Term) : Plain (readString args) := by
  refine .bind (one_plain _ args) fun t => .bind (string_plain _ t) fun s => ?_
  cases parseFirst s with
  | ok t => exact .ok t
  | error e => exact .error (ofParse_forms e)

theorem doc_plain (args : List Term) : Plain (doc args) := by
  refine .bind (one_plain _ args) fun t => ?_
  split
  · exact .ok _
  · exact .ok _
  · exact .complain _

theorem exit_plain (args : List Term) : Plain (exit args) := by
  unfold exit
  split
  · exact .error rfl
  · exact .bind (int_plain _ _) fun _ => .error rfl
  · exact .complain _

theorem map_plain (who : String) (f : Bytes → Bytes) (args : List Term) :
    Plain (map who f args) :=
  .bind (one_plain who args) fun t => .bind (string_plain who t) fun _ => .ok _

theorem test_plain (who : String) (p : Bytes → Bytes → Bool) (args : List Term) :
    Plain (test who p args) :=
  .bind (two_plain who args) fun ⟨t, u⟩ => .bind (string_plain who t) fun _ =>
    .bind (string_plain who u) fun _ => .ok _

end Textual

open Arithmetic Collection Textual in
/-- No native function attaches a form to its errors. -/
theorem Primitive.call_plain (p : Primitive) (args : List Term) : Plain (p.call args) := by
  cases p with
  | add => exact .map _ (fold_plain (fun _ _ => .ok _) _ _ args)
  | sub => exact .map _ (reduce_plain (fun _ _ => .ok _) _ _ args)
  | mul => exact .map _ (fold_plain (fun _ _ => .ok _) _ _ args)
  | div => exact .map _ (reduce_plain div_plainInt _ _ args)
  | mod =>
    exact .bind (two_plain _ args) fun ⟨a, b⟩ => .bind (number_plain _ a) fun n =>
      .map _ (fold_plain mod_plainInt _ n [b])
  | equal => exact equal_plain args
  | differ => exact .bind (two_plain _ args) fun ⟨_, _⟩ => .ok _
  | compare c => exact compare_plain c args
  | not => exact .bind (one_plain _ args) fun t => .bind (bool_plain _ t) fun _ => .ok _
  | list => exact .ok _
  | cons => exact .bind (two_plain _ args) fun ⟨_, u⟩ => .bind (list_plain _ u) fun _ => .ok _
  | concat => exact .map _ (append_plain args)
  | first => exact .bind (one_plain _ args) fun t => .bind (list_plain _ t) fun _ => .ok _
  | rest => exact .bind (one_plain _ args) fun t => .bind (list_plain _ t) fun _ => .ok _
  | nth => exact nth_plain args
  | count => exact .bind (one_plain _ args) fun t => .bind (size_plain _ t) fun _ => .ok _
  | isEmpty => exact .bind (one_plain _ args) fun t => .bind (empty_plain _ t) fun _ => .ok _
  | reverse => exact .bind (one_plain _ args) fun t => .bind (list_plain _ t) fun _ => .ok _
  | isA k => exact isA_plain k args
  | isNumber => exact .bind (one_plain _ args) fun _ => .ok _
  | isMacro => exact isMacro_plain args
  | hashMap => exact hashMap_plain args
  | get => exact get_plain args
  | assoc => exact assoc_plain args
  | dissoc => exact dissoc_plain args
  | keys => exact .bind (one_plain _ args) fun d => .bind (dict_plain _ d) fun _ => .ok _
  | vals => exact .bind (one_plain _ args) fun d => .bind (dict_plain _ d) fun _ => .ok _
  | hasKey =>
    exact .bind (two_plain _ args) fun ⟨d, _⟩ => .bind (dict_plain _ d) fun _ => .ok _
  | str => exact .ok _
  | symbol => exact .bind (one_plain _ args) fun t => .bind (name_plain _ t) fun _ => .ok _
  | keyword => exact .bind (one_plain _ args) fun t => .bind (name_plain _ t) fun _ => .ok _
  | typeOf => exact .bind (one_plain _ args) fun _ => .ok _
  | readString => exact readString_plain args
  | doc => exact doc_plain args
  | exit => exact exit_plain args
  | throw => exact .bind (one_plain _ args) fun _ => .complain _
  | sqrt => exact .bind (one_plain _ args) fun t => .bind (number_plain _ t) fun _ => .ok _
  | pow => exact pow_plain args
  | floor => exact rounding_plain _ _ args
  | ceil => exact rounding_plain _ _ args
  | abs => exact abs_plain args
  | split =>
    exact .bind (two_plain _ args) fun ⟨t, u⟩ => .bind (string_plain _ t) fun _ =>
      .bind (string_plain _ u) fun _ => .ok _
  | join =>
    exact .bind (two_plain _ args) fun ⟨t, u⟩ => .bind (list_plain _ t) fun _ =>
      .bind (string_plain _ u) fun _ => .ok _
  | upper => exact map_plain _ _ args
  | lower => exact map_plain _ _ args
  | trim => exact map_plain _ _ args
  | contains => exact test_plain _ _ args
  | startsWith => exact test_plain _ _ args
  | length => exact .bind (one_plain _ args) fun t => .bind (string_plain _ t) fun _ => .ok _

end SmallLisp
