import SmallLisp.Proofs.Calls

/-! Expressions that compute. The tests and templates in the body of a library function look names
up, call native functions on what they find and choose between branches: they have a value, change
nothing, and need no more fuel than their size asks for (`Computes`). -/
namespace SmallLisp

/-- With so much fuel or more the term has the value, and nothing happens besides. -/
def Computes (n : Nat) (s : State) (env : Env) (t v : Term) : Prop :=
  ∀ (host : Host) (fuel : Nat), n ≤ fuel → evalWith host fuel t env s = .value (v, env) s

section

variable {n m : Nat} {s : State} {env : Env} {t u v w : Term} {name : Bytes} {p : Primitive}

/-- The value of an evaluation, without the environment that it hands back. -/
theorem value_of_evalWith {host : Host} {fuel : Nat} {out : Env} {s' : State}
    (h : evalWith host fuel t env s = .value (v, out) s') :
    (evalWith host fuel).value t env s = .value v s' := by
  rw [Evaluate.value, Action.bind_apply, h]
  rfl

theorem Computes.mono (h : Computes n s env t v) (hle : n ≤ m) : Computes m s env t v :=
  fun host fuel hm => h host fuel (Nat.le_trans hle hm)

theorem Computes.evaluates (h : Computes n s env t v) (host : Host) :
    Evaluates host t env s (.value (v, env) s) := ⟨nofun, n, h host n (Nat.le_refl n)⟩

theorem Computes.value (h : Computes n s env t v) (host : Host) {fuel : Nat} (hn : n ≤ fuel) :
    (evalWith host fuel).value t env s = .value v s := value_of_evalWith (h host fuel hn)

/-- A term that is no form has the value that it has as an atom. -/
theorem Computes.atom (hform : t.isForm = false) (h : evalAtom env t s = .value v s) :
    Computes 1 s env t v := by
  intro host fuel hfuel
  obtain ⟨more, rfl⟩ : ∃ more, fuel = more + 1 := ⟨fuel - 1, by omega⟩
  rw [evalWith, run_succ, step_atom _ _ _ hform]
  simp only [Cursor.start, h]

theorem Computes.symbol (h : s.lookup env name = .ok v) (hconstant : constant? name = none) :
    Computes 1 s env (.symbol name) v := by
  refine .atom rfl ?_
  simp only [evalAtom, hconstant, Env.get, h]

theorem Computes.constant (h : constant? name = some v) : Computes 1 s env (.symbol name) v := by
  refine .atom rfl ?_
  simp only [evalAtom, h]
  rfl

theorem Computes.int (i : Int64) : Computes 1 s env (.int i) (.int i) := .atom rfl rfl

theorem Computes.empty : Computes 1 s env (.list []) (.list []) := .atom rfl rfl

/-! ## Special forms -/

theorem evalWith_special (host : Host) (fuel : Nat) {f : SpecialForm} {head : Term}
    {args : List Term} (hm : macroOf? s env head = none) (hf : specialForm? head = some f) :
    evalWith host (fuel + 1) (.list (head :: args)) env s =
      finishRun host fuel (Action.inForm (.list (head :: args))
        (Cursor.special ⟨.list (head :: args), env, env, true, some (.list (head :: args))⟩ host
          (evalWith host fuel) fuel f args) s) := by
  rw [evalWith, run_eq_finishRun, step_form host _ fuel rfl]
  simp only [Action.inForm, Cursor.start]
  rw [stepForm_special host _ fuel args hm hf]

/-- Going on with a form that computes. -/
theorem Computes.finishRun_goOn (h : Computes n s env t v) (host : Host) {fuel : Nat}
    (hn : n ≤ fuel) (form : Term) :
    finishRun host fuel (.value (.next ⟨t, env, env, true, some form⟩) s) =
      .value (v, env) s := by
  rw [finishRun, run_last, Action.inForm, h host fuel hn]

theorem Computes.quote (hquote : macroOf? s env (.sym "quote") = none) (t : Term) :
    Computes 1 s env (.list [.sym "quote", t]) t := by
  intro host fuel hfuel
  obtain ⟨more, rfl⟩ : ∃ more, fuel = more + 1 := ⟨fuel - 1, by omega⟩
  rw [evalWith_special host more hquote (f := .quote) (by decide)]
  rfl

/-- The branch that the condition chooses. -/
theorem Computes.choose {b : Bool} {yes no : Term} (hif : macroOf? s env (.sym "if") = none)
    (ht : Computes n s env t (.bool b)) (hbranch : Computes n s env (if b then yes else no) v) :
    Computes (n + 1) s env (.list [.sym "if", t, yes, no]) v := by
  intro host fuel hfuel
  obtain ⟨more, rfl⟩ : ∃ more, fuel = more + 1 := ⟨fuel - 1, by omega⟩
  have hn : n ≤ more := by omega
  rw [evalWith_special host more hif (f := .choose) (by decide)]
  simp only [Action.inForm, Cursor.special, Cursor.choose, Action.bind_apply, ht.value host hn]
  cases b <;> exact hbranch.finishRun_goOn host hn _

/-- A template has the value of the expression that builds it. -/
theorem Computes.quasiquote (hquasi : macroOf? s env (.sym "quasiquote") = none)
    (hbuilt : SmallLisp.quasiquote t = .ok u) (h : Computes n s env u v) :
    Computes (n + 1) s env (.list [.sym "quasiquote", t]) v := by
  intro host fuel hfuel
  obtain ⟨more, rfl⟩ : ∃ more, fuel = more + 1 := ⟨fuel - 1, by omega⟩
  rw [evalWith_special host more hquasi (f := .quasiquote) (by decide)]
  simp only [Action.inForm, Cursor.special, Cursor.template, hbuilt]
  exact h.finishRun_goOn host (by omega) _

/-! ## Calls -/

def ComputesAll (n : Nat) (s : State) (env : Env) (ts vs : List Term) : Prop :=
  ∀ (host : Host) (fuel : Nat), n ≤ fuel → (evalWith host fuel).values env ts s = .value vs s

theorem ComputesAll.nil : ComputesAll 0 s env [] [] := fun _ _ _ => rfl

theorem Computes.all {ts vs : List Term} (ht : Computes n s env t v)
    (hts : ComputesAll m s env ts vs) : ComputesAll (max n m) s env (t :: ts) (v :: vs) := by
  intro host fuel hfuel
  obtain ⟨hn, hm⟩ := Nat.max_le.mp hfuel
  rw [Evaluate.values, Action.bind_apply, ht.value host hn]
  simp only [Action.bind_apply, hts host fuel hm]
  rfl

theorem ComputesAll.endsIn {ts vs : List Term} (h : ComputesAll n s env ts vs) (host : Host) :
    EndsIn host (fun ev => ev.values env ts) s (.value vs s) :=
  ⟨nofun, n, h host n (Nat.le_refl n)⟩

theorem ComputesAll.call {args vs : List Term} (hargs : ComputesAll n s env args vs)
    (h : s.Calls env name p) (hcall : p.call vs = .ok v) :
    Computes (n + 2) s env (.list (.symbol name :: args)) v := by
  intro host fuel hfuel
  obtain ⟨more, rfl⟩ : ∃ more, fuel = more + 2 := ⟨fuel - 2, by omega⟩
  rw [evalWith, run_call h]
  simp only [callPrimitive, Action.inForm, Action.bind_apply, hargs host (more + 1) (by omega),
    hcall]
  rfl

theorem Computes.call (h : s.Calls env name p) (ht : Computes n s env t v)
    (hcall : p.call [v] = .ok w) : Computes (n + 2) s env (.list [.symbol name, t]) w := by
  have hargs : ComputesAll n s env [t] [v] := by
    simpa using ht.all .nil
  exact hargs.call h hcall

theorem Computes.call_two {r : Term} (h : s.Calls env name p) (ht : Computes n s env t v)
    (hu : Computes m s env u w) (hcall : p.call [v, w] = .ok r) :
    Computes (max n m + 2) s env (.list [.symbol name, t, u]) r := by
  have hargs : ComputesAll (max n m) s env [t, u] [v, w] := by
    simpa using ht.all (hu.all .nil)
  exact hargs.call h hcall

end

/-! ## Templates -/

section

variable {n m : Nat} {s : State} {env : Env} {x y v : Term} {us vs : List Term}

theorem Computes.built_cons (h : s.BuildsLists env) (hx : Computes n s env x v)
    (hy : Computes m s env y (.list vs)) :
    Computes (max n m + 2) s env (.list [.sym "core/cons", x, y]) (.list (v :: vs)) :=
  .call_two h.callsCons hx hy rfl

theorem Computes.built_concat (h : s.BuildsLists env) (hx : Computes n s env x (.list us))
    (hy : Computes m s env y (.list vs)) :
    Computes (max n m + 2) s env (.list [.sym "core/concat", x, y]) (.list (us ++ vs)) := by
  refine .call_two h.callsConcat hx hy ?_
  simp only [Primitive.call, Collection.concat, Collection.append]
  exact congrArg (fun ws => Except.ok (Term.list (us ++ ws))) (List.append_nil vs)

end

/-! ## Macro calls -/

/-- The frame of a call of a function with only a last form, and the value of that form. -/
theorem Computes.expand {n : Nat} {s : State} {f : Closure Term} {args : List Term}
    {frame : Table Term} {body v : Term} (hbind : f.bind args = .ok frame) (hbody : f.body = [body])
    (h : Computes n (s.addFrame frame) ⟨s.frames.size :: f.env.frames, f.home⟩ body v)
    (host : Host) {fuel : Nat} (hn : n ≤ fuel) :
    f.expand (evalWith host fuel) args s = .value v (s.addFrame frame) := by
  simp only [Closure.expand, Closure.enter, hbind, hbody, bind_assoc, pure_bind, Env.extend]
  exact h.value host hn

end SmallLisp
