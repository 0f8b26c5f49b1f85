import SmallLisp.Proofs.GensymCalls

/-! Symbols made by `gensym`. The calls of a run are numbered upwards, and a symbol is what the call
was given and the number after it. So calls that are given the same make different symbols, but a
text that ends in digits can make up for a number that is shorter by them. -/
namespace SmallLisp

namespace FreshCall

/-- What the number of the symbol is put after. -/
def base (c : FreshCall) : Bytes :=
  match c.args with
  | [.symbol name] => name
  | [.string name] => name
  | _ => Bytes.ofString "G__"

def number (c : FreshCall) : Nat := c.before.gensyms + 1

theorem given_eq (c : FreshCall) :
    Effect.freshSymbol c.args c.before = .value (.symbol (c.base ++ Bytes.ofNat c.number))
      { c.before with gensyms := c.number } := by
  obtain ⟨args, before, name, after, given⟩ := c
  cases args with
  | nil => rfl
  | cons t ts =>
    cases ts with
    | cons u us => cases given
    | nil =>
      cases t with
      | atom a =>
        cases a with
        | symbol base => rfl
        | string base => rfl
        | _ => cases given
      | _ => cases given

theorem name_eq (c : FreshCall) : c.name = c.base ++ Bytes.ofNat c.number := by
  have h := c.given.symm.trans c.given_eq
  injection h with hname
  injection hname with hname
  injection hname

theorem after_gensyms (c : FreshCall) : c.after.gensyms = c.number := by
  have h := c.given.symm.trans c.given_eq
  injection h with _ hafter
  rw [hafter]

end FreshCall

/-! ## Numbers -/

/-- The calls between a state and a later one, if there is one, are numbered upwards, from the
counter in the one to that in the other. -/
structure Counted (s : State) (last : Option State) (calls : List FreshCall) : Prop where
  ordered : calls.Pairwise fun c d => c.number < d.number
  above : ∀ c ∈ calls, s.gensyms < c.number
  below : ∀ s', last = some s' → s.gensyms ≤ s'.gensyms ∧ ∀ c ∈ calls, c.number ≤ s'.gensyms

namespace Counted

variable {s s' : State} {last : Option State} {first later : List FreshCall}

theorem nil (h : ∀ s', last = some s' → s.gensyms ≤ s'.gensyms) : Counted s last [] :=
  ⟨.nil, nofun, fun s' hs' => ⟨h s' hs', nofun⟩⟩

/-- Calls that a later state follows on are numbered below those that come after it. -/
theorem append (h : Counted s (some s') first) (h' : Counted s' last later) :
    Counted s last (first ++ later) := by
  obtain ⟨hle, hfirst⟩ := h.below s' rfl
  refine ⟨List.pairwise_append.mpr ⟨h.ordered, h'.ordered, fun c hc d hd => ?_⟩, ?_, ?_⟩
  · exact Nat.lt_of_le_of_lt (hfirst c hc) (h'.above d hd)
  · intro c hc
    rcases List.mem_append.mp hc with hc | hc
    · exact h.above c hc
    · exact Nat.lt_of_le_of_lt hle (h'.above c hc)
  · intro s₁ hs₁
    obtain ⟨hle', hlater⟩ := h'.below s₁ hs₁
    refine ⟨Nat.le_trans hle hle', fun c hc => ?_⟩
    rcases List.mem_append.mp hc with hc | hc
    · exact Nat.le_trans (hfirst c hc) hle'
    · exact hlater c hc

theorem singleton (call : FreshCall) : Counted call.before (some call.after) [call] := by
  have hnumber := call.after_gensyms
  refine ⟨List.pairwise_singleton .., ?_, ?_⟩
  · simp [FreshCall.number]
  · rintro s' ⟨⟩
    simp [hnumber, FreshCall.number]

end Counted

/-- The parts of an action are counted if the evaluations on its way are. -/
theorem Gathers.counted {log : Query → List FreshCall → Prop} {ev : Evaluate} {α : Type}
    {m : Evaluate → Action α} {s : State} {calls : List FreshCall}
    (h : Gathers log ev m s calls)
    (hlog : ∀ q calls, log q calls → Counted q.state (ev.outcome q).state? calls) :
    Counted s (m ev s).state? calls := by
  induction h with
  | silent hm => exact .nil hm
  | eval h => exact hlog _ _ h
  | bind _ _ hv _ ihm ihf =>
    dsimp only
    rw [hv] at ihm
    rw [Action.bind_apply, hv]
    exact ihm.append ihf
  | @stop _ _ α β m f s calls _ _ hv ih =>
    have hstate : ((m ev >>= fun a => f a ev) s).state? = (m ev s).state? := by
      rw [Action.bind_apply]
      cases h : m ev s with
      | value a s' => exact absurd h (hv a s')
      | failure e s' => rfl
      | timeout => rfl
    rw [hstate]
    exact ih
  | extend frame _ ih => exact ⟨ih.ordered, ih.above, ih.below⟩
  | inForm form _ ih =>
    rw [inForm_state]
    exact ih
  | @inDirectory α m s calls dir _ ih =>
    rw [inDirectory_state]
    refine ⟨ih.ordered, ih.above, fun s' hs' => ?_⟩
    obtain ⟨s₁, hs₁, rfl⟩ := Option.map_eq_some_iff.mp hs'
    exact ih.below s₁ hs₁

variable {host : Host} {fuel : Nat}

theorem StepMakes.counted {log : Query → List FreshCall → Prop} {c : Cursor} {s : State}
    {calls : List FreshCall} (h : StepMakes host fuel log c s calls)
    (hlog : ∀ q calls, log q calls →
      Counted q.state ((evalWith host fuel).outcome q).state? calls) :
    Counted s (step host (evalWith host fuel) fuel c s).state? calls := by
  cases h with
  | fresh call hat hends hcalls =>
    have hparts := hcalls.counted hlog
    rw [hends] at hparts
    rw [hat.step host fuel hends]
    exact hparts.append (.singleton call)
  | other _ hcalls => exact hcalls.counted hlog

/-- The calls of an evaluation are numbered upwards. -/
theorem Makes.counted {c : Cursor} {s : State} {calls : List FreshCall}
    (h : Makes host fuel c s calls) : Counted s (run host fuel c s).state? calls := by
  induction fuel generalizing c s calls with
  | zero =>
    cases h
    exact .nil nofun
  | succ fuel ih =>
    obtain ⟨first, later, hfirst, rfl, hlater⟩ := h
    have hstep := hfirst.counted fun q calls hq => ih hq
    rw [run_succ]
    cases hr : step host (evalWith host fuel) fuel c s with
    | timeout =>
      rw [hr] at hstep hlater
      cases hlater
      rw [List.append_nil]
      exact hstep
    | failure e s' =>
      rw [hr] at hstep hlater
      cases hlater
      rw [List.append_nil]
      exact hstep
    | value r s' =>
      rw [hr] at hstep hlater
      cases r with
      | done v out =>
        cases hlater
        rw [List.append_nil]
        exact hstep
      | next d => exact hstep.append (ih hlater)

theorem RunMakes.counted {s : State} {forms : List (Term × Env)} {calls : List FreshCall}
    (h : RunMakes host fuel s forms calls) : Counted s none calls := by
  induction h with
  | nil => exact .nil nofun
  | last h => exact ⟨h.counted.ordered, h.counted.above, nofun⟩
  | @cons form env rest s s₁ s₂ first later h hends hnext _ ih =>
    have hfirst : Counted s (some s₁) first := hends ▸ h.counted
    have hlater : Counted s₁ none later :=
      ⟨ih.ordered, fun c hc => hnext ▸ ih.above c hc, nofun⟩
    exact hfirst.append hlater

/-! ## Names -/

theorem ofNat_injective {m n : Nat} (h : Bytes.ofNat m = Bytes.ofNat n) : m = n := by
  have hm := Literal.whole?_ofNat m
  rw [h, Literal.whole?_ofNat n] at hm
  exact (Option.some.inj hm).symm

theorem length_ofNat (n : Nat) : (Bytes.ofNat n).length = (Nat.toDigits 10 n).length := by
  have hlength (cs : List Char) (h : ∀ c ∈ cs, c.isDigit = true) :
      (Bytes.ofChars cs).length = cs.length := by
    induction cs with
    | nil => rfl
    | cons c cs ih =>
      have hc : 48 ≤ c.toNat ∧ c.toNat ≤ 57 := by
        simpa [Char.isDigit_iff_toNat] using h c List.mem_cons_self
      rw [Bytes.ofChars_cons_ascii (by omega), List.length_cons, List.length_cons,
        ih fun d hd => h d (List.mem_cons_of_mem _ hd)]
  exact hlength _ fun c => Nat.isDigit_of_mem_toDigits (by decide) (by decide)

/-- A larger number has no fewer digits. -/
theorem length_ofNat_le {m n : Nat} (h : m ≤ n) :
    (Bytes.ofNat m).length ≤ (Bytes.ofNat n).length := by
  have hpos : 0 < (Nat.toDigits 10 n).length := Nat.length_toDigits_pos
  have hdigits {k : Nat} := Nat.length_toDigits_le_iff (n := k) (b := 10) (by decide) hpos
  rw [length_ofNat, length_ofNat]
  exact hdigits.mpr (Nat.lt_of_le_of_lt h (hdigits.mp (Nat.le_refl _)))

/-- A text with a smaller number after it is one with a larger number after it exactly if it ends in
digits that the larger number has before those of the smaller one. -/
theorem numbered_eq_iff {m n : Nat} (h : m < n) (p q : Bytes) :
    p ++ Bytes.ofNat m = q ++ Bytes.ofNat n ↔
      ∃ digits, p = q ++ digits ∧ Bytes.ofNat n = digits ++ Bytes.ofNat m := by
  constructor
  · intro heq
    rcases List.append_eq_append_iff.mp heq with ⟨digits, hq, hm⟩ | ⟨digits, hp, hn⟩
    · -- the smaller number is no longer than the larger one
      have hlength := length_ofNat_le (Nat.le_of_lt h)
      rw [hm, List.length_append] at hlength
      have hnil : digits = [] := List.length_eq_zero_iff.mp (by omega)
      subst hnil
      exact absurd (ofNat_injective hm) (Nat.ne_of_lt h)
    · exact ⟨digits, hp, hn⟩
  · rintro ⟨digits, rfl, hn⟩
    rw [hn, List.append_assoc]

/-- The last byte of the text is no digit, or there is none. -/
def EndsInNoDigit (p : Bytes) : Prop := ∀ b, p.getLast? = some b → ¬(48 ≤ b.toNat ∧ b.toNat ≤ 57)

/-- Numbers stand apart from a text that does not end in a digit. -/
theorem numbered_ne {m n : Nat} (h : m < n) {p q : Bytes} (hp : p = q ∨ EndsInNoDigit p) :
    p ++ Bytes.ofNat m ≠ q ++ Bytes.ofNat n := by
  intro heq
  obtain ⟨digits, hdigits, hn⟩ := (numbered_eq_iff h p q).mp heq
  have hne : digits ≠ [] := by
    rintro rfl
    exact absurd (ofNat_injective hn) (Nat.ne_of_gt h)
  rcases hp with rfl | hp
  · exact hne (List.self_eq_append_right.mp hdigits)
  · have hlast : p.getLast? = some (digits.getLast hne) := by
      rw [hdigits, List.getLast?_append, List.getLast?_eq_some_getLast hne]
      rfl
    have hmem : digits.getLast hne ∈ Bytes.ofNat n := by
      rw [hn]
      exact List.mem_append_left _ (List.getLast_mem hne)
    exact hp _ hlast (Bytes.ofNat_digits hmem)

/-- Every evaluation makes its calls of `gensym` one after the other, none left out. Of two calls in
a run the later one has the larger number, and they make the same symbol only if what the first was
given ends in digits, and these are the ones that the number of the second has before that of the
first. So the symbols differ if both calls were given the same, and if what the first was given does
not end in a digit. -/
theorem generated_symbols (host : Host) :
    (∀ fuel form env s, ∃ calls, Makes host fuel (Cursor.start form env) s calls) ∧
    (∀ fuel form env s calls, Makes host fuel (Cursor.start form env) s calls →
      ∀ left c s₁ call, Reaches host fuel (Cursor.start form env) s left c s₁ →
        Applies host left c s₁ call → call ∈ calls) ∧
    ∀ fuel s forms calls, RunMakes host fuel s forms calls → calls.Pairwise fun c d =>
      c.number < d.number ∧
      (c.name = d.name ↔ ∃ digits, c.base = d.base ++ digits ∧
        Bytes.ofNat d.number = digits ++ Bytes.ofNat c.number) ∧
      (c.base = d.base ∨ EndsInNoDigit c.base → c.name ≠ d.name) := by
  refine ⟨fun fuel form env s => makes_exists host fuel (start_sound form env) s, ?_, ?_⟩
  · intro fuel form env s calls h left c s₁ call hc hcall
    exact h.mem hc hcall
  · intro fuel s forms calls h
    refine h.counted.ordered.imp fun {c d} hlt => ⟨hlt, ?_, ?_⟩
    · rw [c.name_eq, d.name_eq]
      exact numbered_eq_iff hlt c.base d.base
    · rw [c.name_eq, d.name_eq]
      exact numbered_ne hlt

/-! ## Calls in a row -/

def counting (n : Nat) : State :=
  { State.empty with
    namespaces := [([], ⟨[], [(Bytes.ofString "gensym", gensym)], [], []⟩)], gensyms := n }

def nextCall (n : Nat) (base : Bytes) : FreshCall :=
  ⟨[.string base], counting n, base ++ Bytes.ofNat (n + 1), counting (n + 1), rfl⟩

def callForm (base : Bytes) : Term × Env := (.list [.sym "gensym", .string base], ⟨[], []⟩)

def callsFrom : Nat → List Bytes → List FreshCall
  | _, [] => []
  | n, base :: bases => nextCall n base :: callsFrom (n + 1) bases

theorem evalAtom_state (env : Env) (t : Term) (s : State) :
    (evalAtom env t s).state? = some s := by
  have hget (name : Bytes) : (env.get name s).state? = some s := by
    unfold Env.get
    cases s.lookup env name <;> rfl
  unfold evalAtom
  split
  case h_1 name =>
    cases constant? name with
    | some v => rfl
    | none => exact hget name
  case h_2 => rfl

/-- The evaluation of an atom makes no calls. -/
theorem makes_atom (host : Host) (fuel : Nat) {t : Term} (ht : t.isForm = false) (env : Env)
    (s : State) : Makes host fuel (Cursor.start t env) s [] := by
  cases fuel with
  | zero => rfl
  | succ fuel =>
    let c := Cursor.start t env
    let alone : Action Step := step host (evalWith host fuel) fuel c
    have hatom (ev : Evaluate) (s : State) := step_atom host ev fuel (c := c) ht s
    have hsame : (fun ev => step host ev fuel c) = fun _ => alone := by
      funext ev s
      exact (hatom ev s).trans (hatom _ s).symm
    have hstate : (alone s).state? = some s := by
      refine Eq.trans (congrArg Outcome.state? (hatom _ s)) ?_
      rw [← evalAtom_state c.env c.form s]
      cases evalAtom c.env c.form s <;> rfl
    refine ⟨[], [], .other ?_ ?_, rfl, ?_⟩
    · rintro call ⟨operands, ⟨hform, -, -⟩ | ⟨hform, -, -⟩, -⟩
      · cases hform
        cases ht
      · cases hform
        cases ht
    · rw [hsame]
      refine .silent fun s' hs' => ?_
      cases hstate.symm.trans hs'
      exact Nat.le_refl _
    · rw [hatom]
      cases evalAtom c.env c.form s <;> rfl

theorem makes_callForm (n : Nat) (base : Bytes) :
    Makes Host.bare 2 (Cursor.start (callForm base).1 (callForm base).2) (counting n)
      [nextCall n base] := by
  let env : Env := ⟨[], []⟩
  let s := counting n
  let ev := evalWith Host.bare 1
  let log (q : Query) := Makes Host.bare 1 (Cursor.start q.form q.env) q.state
  have hpure {α : Type} (a : α) : Gathers log ev (fun _ => pure a) s [] := by
    refine .silent fun s' hs' => ?_
    cases hs'
    exact Nat.le_refl _
  have hcomposed (t : Term) : Composed false [] fun ev => ev t env := .eval t env
  have hvalueOf (t : Term) : Composed false [] fun ev => ev.value t env := value_composed t env
  have hvaluesOf (ts : List Term) : Composed false [] fun ev => ev.values env ts :=
    values_composed env ts
  have hvalue {t : Term} (ht : t.isForm = false) {p : Term × Env} (hv : ev t env s = .value p s) :
      Gathers log ev (fun ev => ev.value t env) s ([] ++ []) :=
    .bind (hcomposed t) (.eval (makes_atom Host.bare 1 ht env s)) hv (hpure p.1)
  have hargs : Gathers log ev (fun ev => ev.values env [.string base]) s _ :=
    .bind (hvalueOf _) (hvalue rfl rfl) rfl
      (.bind (hvaluesOf []) (hpure []) rfl (hpure [Term.string base]))
  have hoperands : Gathers log ev (fun ev => ev.operands env (.sym "gensym") [.string base]) s _ :=
    .bind (hvalueOf _) (hvalue rfl rfl) rfl
      (.bind (hvaluesOf _) hargs rfl (hpure (gensym, [Term.string base])))
  exact ⟨_, [], .fresh (nextCall n base) (.call rfl rfl (by decide)) rfl hoperands, rfl, rfl⟩

theorem runMakes_callsFrom (n : Nat) (bases : List Bytes) :
    RunMakes Host.bare 2 (counting n) (bases.map callForm) (callsFrom n bases) := by
  induction bases generalizing n with
  | nil => exact .nil
  | cons base bases ih => exact .cons (makes_callForm n base) rfl rfl (ih (n + 1))

/-- The evaluation of `(gensym "a")` makes the call that its only step applies, and two of them one
after the other make different symbols. -/
theorem sameBase_differs :
    let a := Bytes.ofString "a"
    let c := Cursor.start (callForm a).1 (callForm a).2
    let bases := [a, a]
    (Makes Host.bare 2 c (counting 0) [nextCall 0 a] ∧
      Applies Host.bare 1 c (counting 0) (nextCall 0 a) ∧ nextCall 0 a ∈ [nextCall 0 a]) ∧
    RunMakes Host.bare 2 (counting 0) (bases.map callForm) (callsFrom 0 bases) ∧
      (nextCall 0 a).name ≠ (nextCall 1 a).name := by
  intro a c bases
  obtain ⟨-, hcomplete, hpairs⟩ := generated_symbols Host.bare
  have hmakes := makes_callForm 0 a
  have happlies : Applies Host.bare 1 c (counting 0) (nextCall 0 a) :=
    ⟨_, .call rfl rfl (by decide), rfl⟩
  have hrun := runMakes_callsFrom 0 bases
  have hpair := (List.pairwise_cons.mp (hpairs _ _ _ _ hrun)).1 (nextCall 1 a)
    List.mem_cons_self
  exact ⟨⟨hmakes, happlies, hcomplete _ _ _ _ _ hmakes _ _ _ _ .here happlies⟩, hrun,
    hpair.2.2 (.inl rfl)⟩

/-- Given `a1`, the first call makes the symbol `a11`, and so does the eleventh, given `a`. -/
theorem eleventhSymbol_repeats :
    ¬∀ fuel s forms calls, RunMakes Host.bare fuel s forms calls →
      calls.Pairwise fun c d => c.name ≠ d.name := by
  intro h
  let bases := Bytes.ofString "a1" :: (List.replicate 9 [] ++ [Bytes.ofString "a"])
  have hpairs := h _ _ _ _ (runMakes_callsFrom 0 bases)
  have hdiffers := (List.pairwise_cons.mp hpairs).1 (nextCall 10 (Bytes.ofString "a"))
    (by simp [callsFrom])
  exact hdiffers (by decide)

end SmallLisp
