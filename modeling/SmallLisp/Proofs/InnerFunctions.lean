import SmallLisp.Proofs.NativeErrors
import SmallLisp.Eval.Quasiquote

/-! The functions in a term. What is read from a text has no functions in it. A native function that
only looks at its arguments returns none but those in its arguments, and the expression that builds
a template has none but those in the template. -/
namespace SmallLisp

/-- The function occurs in the term: it is the term, or occurs in a part of it. The parts of a
function are the forms of its body. -/
inductive Closure.Within (f : Closure Term) : Term → Prop
  | here : Within f (.closure f)
  | body {g : Closure Term} {t : Term} (ht : t ∈ g.body) (h : Within f t) : Within f (.closure g)
  | element {ts : List Term} {t : Term} (ht : t ∈ ts) (h : Within f t) : Within f (.list ts)
  | value {es : Entries} {e : Atom × Term} (he : e ∈ es) (h : Within f e.2) : Within f (.dict es)

def Term.Functions (p : Closure Term → Prop) (t : Term) : Prop :=
  ∀ f : Closure Term, f.Within t → p f

def Yields {ε α : Type} (Q : α → Prop) (r : Except ε α) : Prop := ∀ a, r = .ok a → Q a

namespace Term.Functions

variable {p : Closure Term → Prop}

theorem mono {q : Closure Term → Prop} (hpq : ∀ f, p f → q f) {t : Term} (h : t.Functions p) :
    t.Functions q := fun f hf => hpq f (h f hf)

theorem atom {a : Atom} : (Term.atom a).Functions p := nofun

theorem native {b : Builtin} : (Term.native b).Functions p := nofun

theorem list_iff {ts : List Term} : (Term.list ts).Functions p ↔ ∀ t ∈ ts, t.Functions p := by
  constructor
  · intro h t ht f hf
    exact h f (.element ht hf)
  · rintro h f (_ | _ | ⟨ht, hf⟩)
    exact h _ ht f hf

theorem dict_iff {es : Entries} : (Term.dict es).Functions p ↔ ∀ e ∈ es, e.2.Functions p := by
  constructor
  · intro h e he f hf
    exact h f (.value he hf)
  · rintro h f (_ | _ | _ | ⟨he, hf⟩)
    exact h _ he f hf

theorem closure_iff {g : Closure Term} :
    (Term.closure g).Functions p ↔ p g ∧ ∀ t ∈ g.body, t.Functions p := by
  constructor
  · intro h
    exact ⟨h g .here, fun t ht f hf => h f (.body ht hf)⟩
  · rintro ⟨hg, hbody⟩ f (_ | ⟨ht, hf⟩)
    · exact hg
    · exact hbody _ ht f hf

theorem list {ts : List Term} (h : ∀ t ∈ ts, t.Functions p) : (Term.list ts).Functions p :=
  list_iff.mpr h

theorem cons {t : Term} {ts : List Term} (ht : t.Functions p) (h : ∀ u ∈ ts, u.Functions p) :
    ∀ u ∈ t :: ts, u.Functions p := List.forall_mem_cons.mpr ⟨ht, h⟩

theorem tail {t : Term} {ts : List Term} (h : (Term.list (t :: ts)).Functions p) :
    t.Functions p ∧ ∀ u ∈ ts, u.Functions p := List.forall_mem_cons.mp (list_iff.mp h)

end Term.Functions

namespace Yields

variable {ε α β : Type} {Q : β → Prop} {R : α → Prop}

theorem any (r : Except ε α) : Yields (fun _ => True) r := fun _ _ => trivial

theorem ok {b : β} (h : Q b) : Yields Q (.ok b : Except ε β) := by
  rintro _ ⟨⟩
  exact h

theorem error (e : ε) : Yields Q (.error e : Except ε β) := nofun

theorem bind {r : Except ε α} {f : α → Except ε β} (hr : Yields R r)
    (hf : ∀ a, R a → Yields Q (f a)) : Yields Q (r >>= f) := by
  cases r with
  | ok a => exact hf a (hr a rfl)
  | error e => exact .error e

theorem map {r : Except ε α} {f : α → β} (hr : Yields R r) (hf : ∀ a, R a → Q (f a)) :
    Yields Q (r.map f) := by
  cases r with
  | ok a => exact .ok (hf a (hr a rfl))
  | error e => exact .error e

end Yields

/-! ## Dicts -/

namespace Entries

variable {p : Closure Term → Prop} {es : Entries}

theorem find?_functions (h : ∀ e ∈ es, e.2.Functions p) {key : Atom} {v : Term}
    (hv : es.find? key = some v) : v.Functions p := by
  induction es with
  | nil => cases hv
  | cons e es ih =>
    obtain ⟨he, hes⟩ := List.forall_mem_cons.mp h
    unfold find? at hv
    split at hv
    · cases hv
      exact he
    · exact ih hes hv

theorem put_functions (h : ∀ e ∈ es, e.2.Functions p) (key : Atom) {v : Term}
    (hv : v.Functions p) : ∀ e ∈ es.put key v, e.2.Functions p := by
  induction es with
  | nil => exact List.forall_mem_cons.mpr ⟨hv, nofun⟩
  | cons e es ih =>
    obtain ⟨he, hes⟩ := List.forall_mem_cons.mp h
    unfold put
    split
    · exact List.forall_mem_cons.mpr ⟨hv, hes⟩
    · exact List.forall_mem_cons.mpr ⟨he, ih hes⟩

theorem vals_functions (h : ∀ e ∈ es, e.2.Functions p) : ∀ v ∈ es.vals, v.Functions p := by
  intro v hv
  obtain ⟨e, he, rfl⟩ := List.mem_map.mp hv
  exact h e ((sortEntries_perm es).mem_iff.mp he)

end Entries

/-! ## Reading -/

namespace Reader

variable {p : Closure Term → Prop}

/-- So far no functions without the property have been read. -/
structure Functions (p : Closure Term → Prop) (r : Reader) : Prop where
  terms : ∀ t ∈ r.terms, t.Functions p
  seen : ∀ g ts, .group g ts ∈ r.stack → ∀ t ∈ ts, t.Functions p

theorem Functions.start : Reader.start.Functions p := ⟨nofun, nofun⟩

/-- What is opened has no terms in it yet. -/
theorem Functions.push (opened : List Pending) (ho : ∀ g ts, .group g ts ∈ opened → ts = [])
    {stack : List Pending} {terms : List Term} (h : Functions p ⟨stack, terms⟩) :
    Functions p ⟨opened ++ stack, terms⟩ := by
  refine ⟨h.terms, fun g ts hmem => ?_⟩
  rcases List.mem_append.mp hmem with hmem | hmem
  · rw [ho g ts hmem]
    exact nofun
  · exact h.seen g ts hmem

theorem Functions.below {pending : Pending} {stack : List Pending} {terms : List Term}
    (h : Functions p ⟨pending :: stack, terms⟩) : Functions p ⟨stack, terms⟩ :=
  ⟨h.terms, fun g ts hmem => h.seen g ts (List.mem_cons_of_mem _ hmem)⟩

theorem apply_functions (m : Mark) {t : Term} (ht : t.Functions p) : (m.apply t).Functions p :=
  .list (.cons .atom (.cons ht nofun))

theorem build_functions (g : Group) {ts : List Term} (h : ∀ t ∈ ts, t.Functions p) :
    (g.build ts).Functions p := by
  cases g with
  | list => exact .list h
  | dict => exact .list (.cons .atom h)
  | function => exact .list (.cons .atom h)

theorem numeral_functions (v : Literal.Numeral) : (numeral v).Functions p := by
  cases v <;> exact .atom

theorem name_functions (s : Bytes) : (name s).Functions p := by
  unfold name
  split <;> exact .atom

theorem put_functions {stack : List Pending} {terms : List Term} (h : Functions p ⟨stack, terms⟩)
    {t : Term} (ht : t.Functions p) : (put stack terms t).Functions p := by
  fun_induction put stack terms t with
  | case1 m stack terms t ih => exact ih h.below (apply_functions m ht)
  | case2 g seen stack terms t =>
    refine ⟨h.terms, fun g' ts hmem => ?_⟩
    rcases List.mem_cons.mp hmem with heq | hmem
    · cases heq
      exact .cons ht (h.seen g seen List.mem_cons_self)
    · exact h.seen g' ts (List.mem_cons_of_mem _ hmem)
  | case3 stack terms t => exact ⟨.cons ht h.terms, h.seen⟩

theorem feedSymbol_functions {r : Reader} (h : r.Functions p) (text : Bytes) (pos : Position) :
    Yields (Functions p) (r.feedSymbol text pos) := by
  unfold feedSymbol
  generalize hstrip : Mark.strip text = stripped
  obtain ⟨marks, rest⟩ := stripped
  have hstack : Functions p ⟨(marks.map Pending.mark).reverse ++ r.stack, r.terms⟩ :=
    h.push _ (by simp)
  dsimp only
  split
  · exact .ok hstack
  · split
    · exact .ok (hstack.push [.hash] (by simp))
    · split
      · split
        · exact .ok (put_functions hstack (numeral_functions _))
        · exact .error _
      · exact .ok (put_functions hstack (name_functions rest))

theorem feedClosing_functions {r : Reader} (h : r.Functions p) (b : Bracket) (pos : Position) :
    Yields (Functions p) (r.feedClosing b pos) := by
  unfold feedClosing
  obtain ⟨stack, terms⟩ := r
  dsimp only
  split
  case h_1 g seen stack =>
    have hseen : ∀ t ∈ seen.reverse, t.Functions p := fun t ht =>
      h.seen g seen List.mem_cons_self t (List.mem_reverse.mp ht)
    split
    · exact .ok (put_functions h.below (build_functions g hseen))
    · exact .error _
  case h_2 => exact .error _

theorem feed_functions {r : Reader} (h : r.Functions p) (t : Token) :
    Yields (Functions p) (r.feed t) := by
  obtain ⟨stack, terms⟩ := r
  unfold feed
  dsimp only
  split
  · exact .ok (h.below.push [.group .function []] (by simp))
  · exact .error _
  · exact .ok (h.push [.group .list []] (by simp))
  · exact .ok (h.push [.group .dict []] (by simp))
  · exact feedClosing_functions h _ _
  · exact .ok (put_functions h (numeral_functions _))
  · exact .ok (put_functions h .atom)
  · exact feedSymbol_functions h _ _

end Reader

section

variable {p : Closure Term → Prop}

theorem readAll_functions {tokens : List Token} {ts : List Term}
    (h : readAll tokens = .ok (some ts)) : ∀ t ∈ ts, t.Functions p := by
  have hfold (tokens : List Token) {r : Reader} (hr : r.Functions p) :
      Yields (Reader.Functions p) (tokens.foldlM Reader.feed r) := by
    induction tokens generalizing r with
    | nil => exact .ok hr
    | cons t tokens ih => exact .bind (Reader.feed_functions hr t) fun r' hr' => ih hr'
  have hr := hfold tokens .start _ (readAll_eq_some_iff.mp h)
  exact fun t ht => hr.terms t (List.mem_reverse.mpr ht)

theorem readFirst_functions {tokens : List Token} {r : Reader} {t : Term} (hr : r.Functions p)
    (h : readFirst r tokens = .ok (some t)) : t.Functions p := by
  induction tokens generalizing r with
  | nil => cases h
  | cons token tokens ih =>
    have hfeed := Reader.feed_functions hr token
    cases hf : r.feed token with
    | error flaw => simp [readFirst, hf, Except.bind] at h
    | ok r' =>
      have hr' : r'.Functions p := hfeed r' hf
      cases hterms : r'.terms with
      | nil =>
        rw [readFirst_goesOn hf hterms] at h
        exact ih hr' h
      | cons first rest =>
        rw [readFirst_ends hf hterms] at h
        cases h
        exact hr'.terms _ (by rw [hterms]; exact List.mem_cons_self)

/-- There are no functions in a text. -/
theorem parse_functions {src : Bytes} {ts : List Term} (h : parse src = .ok ts) :
    ∀ t ∈ ts, t.Functions p := by
  obtain ⟨tokens, -, htokens⟩ := parseWith_eq_ok_iff.mp h
  exact readAll_functions htokens

theorem parseFirst_functions {src : Bytes} {t : Term} (h : parseFirst src = .ok t) :
    t.Functions p := by
  obtain ⟨tokens, -, htokens⟩ := parseWith_eq_ok_iff.mp h
  exact readFirst_functions .start htokens

end

/-! ## Templates -/

theorem formArgs_functions {p : Closure Term → Prop} {name : Bytes} {t : Term}
    (h : t.Functions p) {args : List Term} (ha : formArgs? name t = some args) :
    ∀ u ∈ args, u.Functions p := by
  unfold formArgs? at ha
  split at ha
  · split at ha
    · cases ha
      exact h.tail.2
    · cases ha
  · cases ha

theorem quoteAtom_functions {p : Closure Term → Prop} (a : Atom) : (quoteAtom a).Functions p := by
  unfold quoteAtom
  split
  · split
    · exact .atom
    · exact .list (.cons .atom (.cons .atom nofun))
  · exact .atom

mutual

/-- The expression that builds a template has no functions but those in the template. -/
theorem quasiquote_functions {p : Closure Term → Prop} :
    {t : Term} → t.Functions p → Yields (Term.Functions p) (quasiquote t)
  | .list ts, h => by
    unfold quasiquote
    split
    case h_1 args hargs =>
      match args, formArgs_functions h hargs with
      | [t], hargs => exact .ok (hargs t List.mem_cons_self)
      | [], _ | _ :: _ :: _, _ => exact .error _
    case h_2 =>
      split
      · exact .error _
      · exact quasiquoteAll_functions (Term.Functions.list_iff.mp h)
  | .atom a, _ => .ok (quoteAtom_functions a)
  | .dict _, h | .native _, h | .closure _, h => .ok h

theorem quasiquoteAll_functions {p : Closure Term → Prop} :
    {ts : List Term} → (∀ t ∈ ts, t.Functions p) → Yields (Term.Functions p) (quasiquoteAll ts)
  | [], _ => .ok (.list nofun)
  | t :: ts, h => by
    obtain ⟨ht, hts⟩ := List.forall_mem_cons.mp h
    have hcall (name : String) {x y : Term} (hx : x.Functions p) (hy : y.Functions p) :
        (Term.list [.sym name, x, y]).Functions p :=
      .list (.cons .atom (.cons hx (.cons hy nofun)))
    unfold quasiquoteAll
    refine .bind (quasiquoteAll_functions hts) fun rest hrest => ?_
    split
    case h_1 args hargs =>
      match args, formArgs_functions ht hargs with
      | [t], hargs => exact .ok (hcall _ (hargs t List.mem_cons_self) hrest)
      | [], _ | _ :: _ :: _, _ => exact .error _
    case h_2 => exact .bind (quasiquote_functions ht) fun built hbuilt => .ok (hcall _ hbuilt hrest)

end

/-! ## Native functions -/

namespace Arguments

variable {p : Closure Term → Prop} (who : String)

theorem one_functions {args : List Term} (h : ∀ t ∈ args, t.Functions p) :
    Yields (Term.Functions p) (one who args) := by
  unfold one
  split
  · exact .ok (h _ List.mem_cons_self)
  · exact .error _

theorem two_functions {args : List Term} (h : ∀ t ∈ args, t.Functions p) :
    Yields (fun a => a.1.Functions p ∧ a.2.Functions p) (two who args) := by
  unfold two
  split
  · obtain ⟨ht, h⟩ := List.forall_mem_cons.mp h
    exact .ok ⟨ht, h _ List.mem_cons_self⟩
  · exact .error _

theorem list_functions {t : Term} (h : t.Functions p) :
    Yields (fun ts => ∀ u ∈ ts, u.Functions p) (list who t) := by
  unfold list
  split
  · exact .ok (Term.Functions.list_iff.mp h)
  · exact .ok nofun
  · exact .error _

theorem dict_functions {t : Term} (h : t.Functions p) :
    Yields (fun es => ∀ e ∈ es, e.2.Functions p) (dict who t) := by
  unfold dict
  split
  · exact .ok (Term.Functions.dict_iff.mp h)
  · exact .error _

end Arguments

open Arguments

namespace Arithmetic

variable {p : Closure Term → Prop}

theorem term_functions (n : Literal.Numeral) : (term n).Functions p := by
  cases n <;> exact .atom

theorem numeric_functions (r : Result Literal.Numeral) : Yields (Term.Functions p) (r.map term) :=
  .map (.any r) fun n _ => term_functions n

theorem compare_functions (c : Comparison) (args : List Term) :
    Yields (Term.Functions p) (compare c args) := by
  unfold compare
  split
  · exact .error _
  · exact .map (.any _) fun _ _ => .atom

theorem pow_functions (args : List Term) : Yields (Term.Functions p) (pow args) := by
  refine .bind (.any _) fun ⟨t, u⟩ _ => .bind (.any _) fun x _ => .bind (.any _) fun y _ => ?_
  split
  · split
    · split
      · exact .ok .atom
      · exact .error _
    · exact .ok .atom
  · exact .ok .atom

theorem rounding_functions (who : String) (f : Float → Float) (args : List Term) :
    Yields (Term.Functions p) (rounding who f args) := by
  refine .bind (.any _) fun t _ => .bind (.any _) fun n _ => ?_
  cases n <;> exact .ok .atom

theorem abs_functions (args : List Term) : Yields (Term.Functions p) (abs args) := by
  refine .bind (.any _) fun t _ => .bind (.any _) fun n _ => ?_
  cases n <;> exact .ok .atom

end Arithmetic

namespace Collection

variable {p : Closure Term → Prop} {args : List Term} (h : ∀ t ∈ args, t.Functions p)

theorem equal_functions (args : List Term) : Yields (Term.Functions p) (equal args) := by
  unfold equal
  split
  · exact .error _
  · exact .ok .atom

theorem isA_functions (k : Kind) (args : List Term) : Yields (Term.Functions p) (isA k args) := by
  unfold isA
  split
  · exact .ok .atom
  · exact .error _

theorem isMacro_functions (args : List Term) : Yields (Term.Functions p) (isMacro args) := by
  refine .bind (.any _) fun t _ => ?_
  split <;> exact .ok .atom

include h

theorem append_functions : Yields (fun ts => ∀ t ∈ ts, t.Functions p) (append args) := by
  induction args with
  | nil => exact .ok nofun
  | cons t ts ih =>
    obtain ⟨ht, hts⟩ := List.forall_mem_cons.mp h
    refine .bind (list_functions _ ht) fun xs hxs => .bind (ih hts) fun rest hrest => .ok ?_
    exact fun u hu => (List.mem_append.mp hu).elim (hxs u) (hrest u)

theorem nth_functions : Yields (Term.Functions p) (nth args) := by
  refine .bind (two_functions _ h) fun ⟨t, u⟩ htu => .bind (list_functions _ htu.1) fun ts hts =>
    .bind (.any _) fun i _ => ?_
  split
  case h_1 v hv =>
    split at hv
    · cases hv
    · exact .ok (hts v (List.mem_of_getElem? hv))
  case h_2 => exact .error _

theorem insertPairs_functions (who : String) {es : Entries} (hes : ∀ e ∈ es, e.2.Functions p) :
    Yields (fun es => ∀ e ∈ es, e.2.Functions p) (insertPairs who es args) := by
  fun_induction insertPairs who es args with
  | case1 es k v kvs ih =>
    obtain ⟨-, h⟩ := List.forall_mem_cons.mp h
    obtain ⟨hv, hkvs⟩ := List.forall_mem_cons.mp h
    exact .bind (.any _) fun key _ => ih key hkvs (Entries.put_functions hes _ hv)
  | case2 es => exact .ok hes

theorem hashMap_functions : Yields (Term.Functions p) (hashMap args) := by
  unfold hashMap
  split
  · exact .error _
  · exact .map (insertPairs_functions h _ nofun) fun es hes => Term.Functions.dict_iff.mpr hes

omit h in
theorem valueAt_functions {es : Entries} (hes : ∀ e ∈ es, e.2.Functions p) {k v : Term}
    (hv : valueAt es k = some v) : v.Functions p := by
  cases k with
  | atom k => exact Entries.find?_functions hes hv
  | _ => cases hv

theorem get_functions : Yields (Term.Functions p) (get args) := by
  have hlook {d default : Term} (k : Term) (hd : d.Functions p) (hdefault : default.Functions p) :
      Yields (Term.Functions p) (do
        let es ← Arguments.dict "get" d
        return (valueAt es k).getD default : Result Term) := by
    refine .bind (dict_functions _ hd) fun es hes => .ok ?_
    cases hv : valueAt es k with
    | none => exact hdefault
    | some v => exact valueAt_functions hes hv
  unfold get
  dsimp only
  split
  case h_1 d k => exact hlook k (h d (by simp)) .atom
  case h_2 d k default => exact hlook k (h d (by simp)) (h default (by simp))
  case h_3 => exact .error _

theorem assoc_functions : Yields (Term.Functions p) (assoc args) := by
  unfold assoc
  split
  case h_1 d k v kvs =>
    obtain ⟨hd, hkvs⟩ := List.forall_mem_cons.mp h
    split
    · exact .error _
    · exact .bind (dict_functions _ hd) fun es hes =>
        .map (insertPairs_functions hkvs _ hes) fun es hes => Term.Functions.dict_iff.mpr hes
  case h_2 => exact .error _

theorem dissoc_functions : Yields (Term.Functions p) (dissoc args) := by
  unfold dissoc
  split
  case h_1 => exact .error _
  case h_2 d ks =>
    refine .bind (dict_functions _ (h d List.mem_cons_self)) fun es hes => .ok ?_
    refine Term.Functions.dict_iff.mpr ?_
    refine List.foldlRecOn (motive := fun (es : Entries) => ∀ e ∈ es, e.2.Functions p) ks _ hes ?_
    intro es hes k _
    cases k with
    | atom k => exact fun e he => hes e (List.mem_filter.mp he).1
    | _ => exact hes

end Collection

namespace Textual

variable {p : Closure Term → Prop}

theorem readString_functions (args : List Term) : Yields (Term.Functions p) (readString args) := by
  refine .bind (.any _) fun t _ => .bind (.any _) fun s _ => ?_
  cases hs : parseFirst s with
  | ok t => exact .ok (parseFirst_functions hs)
  | error e => exact .error _

theorem doc_functions (args : List Term) : Yields (Term.Functions p) (doc args) := by
  have htext (d : Bytes) : (if d.isEmpty then Term.nil else .string d).Functions p := by
    split <;> exact .atom
  refine .bind (.any _) fun t _ => ?_
  split
  · exact .ok (htext _)
  · exact .ok (htext _)
  · exact .error _

theorem exit_functions (args : List Term) : Yields (Term.Functions p) (exit args) := by
  unfold exit
  split
  · exact .error _
  · exact .bind (.any _) fun _ _ => .error _
  · exact .error _

theorem map_functions (who : String) (f : Bytes → Bytes) (args : List Term) :
    Yields (Term.Functions p) (map who f args) :=
  .bind (.any _) fun _ _ => .bind (.any _) fun _ _ => .ok .atom

theorem test_functions (who : String) (q : Bytes → Bytes → Bool) (args : List Term) :
    Yields (Term.Functions p) (test who q args) :=
  .bind (.any _) fun ⟨_, _⟩ _ => .bind (.any _) fun _ _ => .bind (.any _) fun _ _ => .ok .atom

end Textual

open Arithmetic Collection Textual in
/-- A native function returns no functions but those in its arguments. -/
theorem Primitive.call_functions {p : Closure Term → Prop} (f : Primitive) {args : List Term}
    (h : ∀ t ∈ args, t.Functions p) : Yields (Term.Functions p) (f.call args) := by
  cases f with
  | add | sub | mul | div => exact numeric_functions _
  | mod => exact .bind (.any _) fun ⟨_, _⟩ _ => .bind (.any _) fun _ _ => numeric_functions _
  | equal => exact equal_functions args
  | differ => exact .bind (.any _) fun ⟨_, _⟩ _ => .ok .atom
  | compare c => exact compare_functions c args
  | not | count | isEmpty | symbol | keyword | sqrt | length =>
    exact .bind (.any _) fun _ _ => .bind (.any _) fun _ _ => .ok .atom
  | list => exact .ok (.list h)
  | cons =>
    exact .bind (two_functions _ h) fun ⟨_, _⟩ htu =>
      .bind (list_functions _ htu.2) fun _ hts => .ok (.list (.cons htu.1 hts))
  | concat => exact .map (append_functions h) fun _ hts => .list hts
  | first =>
    refine .bind (one_functions _ h) fun t ht => .bind (list_functions _ ht) fun ts hts => .ok ?_
    cases ts with
    | nil => exact .atom
    | cons t ts => exact hts t List.mem_cons_self
  | rest =>
    exact .bind (one_functions _ h) fun _ ht => .bind (list_functions _ ht) fun _ hts =>
      .ok (.list fun u hu => hts u (List.mem_of_mem_tail hu))
  | nth => exact nth_functions h
  | reverse =>
    exact .bind (one_functions _ h) fun _ ht => .bind (list_functions _ ht) fun _ hts =>
      .ok (.list fun u hu => hts u (List.mem_reverse.mp hu))
  | isA k => exact isA_functions k args
  | isNumber | typeOf => exact .bind (.any _) fun _ _ => .ok .atom
  | isMacro => exact isMacro_functions args
  | hashMap => exact hashMap_functions h
  | get => exact get_functions h
  | assoc => exact assoc_functions h
  | dissoc => exact dissoc_functions h
  | keys =>
    refine .bind (.any _) fun _ _ => .bind (.any _) fun es _ => .ok (.list fun t ht => ?_)
    obtain ⟨k, -, rfl⟩ := List.mem_map.mp ht
    exact .atom
  | vals =>
    exact .bind (one_functions _ h) fun _ hd => .bind (dict_functions _ hd) fun _ hes =>
      .ok (.list (Entries.vals_functions hes))
  | hasKey => exact .bind (.any _) fun ⟨_, _⟩ _ => .bind (.any _) fun _ _ => .ok .atom
  | str => exact .ok .atom
  | readString => exact readString_functions args
  | doc => exact doc_functions args
  | exit => exact exit_functions args
  | throw => exact .bind (.any _) fun _ _ => .error _
  | pow => exact pow_functions args
  | floor | ceil => exact rounding_functions _ _ args
  | abs => exact abs_functions args
  | split =>
    refine .bind (.any _) fun ⟨_, _⟩ _ => .bind (.any _) fun _ _ => .bind (.any _) fun _ _ =>
      .ok (.list fun t ht => ?_)
    obtain ⟨piece, -, rfl⟩ := List.mem_map.mp ht
    exact .atom
  | join =>
    exact .bind (.any _) fun ⟨_, _⟩ _ => .bind (.any _) fun _ _ => .bind (.any _) fun _ _ =>
      .ok .atom
  | upper | lower | trim => exact map_functions _ _ args
  | contains | startsWith => exact test_functions _ _ args

end SmallLisp
