import SmallLisp.Proofs.Endings

/-! Quasiquotation. A template has holes for values (`unquote`) and for elements of values
(`splice-unquote`). The expression that builds it, made of nested calls of `core/cons` and
`core/concat`, ends as direct instantiation does, which goes through the template from the left and
evaluates what stands in the holes as it comes to them (`IsTemplate.builds`). So the holes are
evaluated once each, in order, and the template is filled in with their values. -/
namespace SmallLisp

/-! ## Templates -/

/-- Terms that can be filled in: every list headed by `unquote` or `splice-unquote` has one
argument, as far as the rewriting comes to it, and the latter stand inside of lists. -/
inductive IsTemplate : Term → Prop
  | unquote (e : Term) : IsTemplate (Mark.unquote.apply e)
  | list {ts : List Term} (hunquote : formArgs? Mark.unquote.form (.list ts) = none)
      (hsplice : formArgs? Mark.splice.form (.list ts) = none)
      (hsplices : ∀ t ∈ ts, ∀ args, formArgs? Mark.splice.form t = some args → ∃ e, args = [e])
      (hparts : ∀ t ∈ ts, formArgs? Mark.splice.form t = none → IsTemplate t) :
      IsTemplate (.list ts)
  | leaf {t : Term} (h : t.kind ≠ .list) : IsTemplate t

/-- An expression in a template. Its value is put in its place, or the elements of its value are. -/
structure Hole where
  form : Term
  spliced : Bool

mutual

def holes : Term → List Hole
  | .list ts =>
    match formArgs? Mark.unquote.form (.list ts) with
    | some args => args.map fun e => ⟨e, false⟩
    | none => holesOfAll ts
  | _ => []

def holesOfAll : List Term → List Hole
  | [] => []
  | t :: ts =>
    match formArgs? Mark.splice.form t with
    | some args => (args.map fun e => ⟨e, true⟩) ++ holesOfAll ts
    | none => holes t ++ holesOfAll ts

end

/-- The elements of a list; nil has none. -/
def Term.elements? : Term → Option (List Term)
  | .list ts => some ts
  | .nil => some []
  | _ => none

mutual

/-- `Filled t vs u`: with the values `vs` in its holes, in order, the template `t` is `u`. -/
inductive Filled : Term → List Term → Term → Prop
  | unquote (e v : Term) : Filled (Mark.unquote.apply e) [v] v
  | list {ts vs us : List Term} (hunquote : formArgs? Mark.unquote.form (.list ts) = none)
      (h : FilledAll ts vs us) : Filled (.list ts) vs (.list us)
  | constant {name : Bytes} {v : Term} (h : constant? name = some v) : Filled (.symbol name) [] v
  | symbol {name : Bytes} (h : constant? name = none) : Filled (.symbol name) [] (.symbol name)
  | leaf {t : Term} (hlist : t.kind ≠ .list) (hsymbol : t.kind ≠ .symbol) : Filled t [] t

inductive FilledAll : List Term → List Term → List Term → Prop
  | nil : FilledAll [] [] []
  | splice (e : Term) {v : Term} {ts vs xs us : List Term} (hv : v.elements? = some xs)
      (h : FilledAll ts vs us) : FilledAll (Mark.splice.apply e :: ts) (v :: vs) (xs ++ us)
  | cons {t u : Term} {ts vs ws us : List Term} (hsplice : formArgs? Mark.splice.form t = none)
      (ht : Filled t vs u) (h : FilledAll ts ws us) : FilledAll (t :: ts) (vs ++ ws) (u :: us)

end

mutual

/-- The template with its holes evaluated as they come. What is spliced in is checked when the
elements after it are there. -/
def instantiate (ev : Evaluate) (env : Env) : Term → Action Term
  | .list ts =>
    match formArgs? Mark.unquote.form (.list ts) with
    | some args => ev.value (args.headD .nil) env
    | none => do
      let us ← instantiateAll ev env ts
      return .list us
  | .symbol name => return (constant? name).getD (.symbol name)
  | t => return t

def instantiateAll (ev : Evaluate) (env : Env) : List Term → Action (List Term)
  | [] => return []
  | t :: ts =>
    match formArgs? Mark.splice.form t with
    | some args => do
      let v ← ev.value (args.headD .nil) env
      let us ← instantiateAll ev env ts
      let xs ← Action.ofExcept (Arguments.list "concat" v)
      return xs ++ us
    | none => do
      let u ← instantiate ev env t
      let us ← instantiateAll ev env ts
      return u :: us

end

/-! ## The parts of a template -/

theorem formArgs_apply (m : Mark) (t : Term) : formArgs? m.form (m.apply t) = some [t] := by
  simp [formArgs?, Mark.apply]

theorem formArgs_eq_single {m : Mark} {t e : Term} (h : formArgs? m.form t = some [e]) :
    t = m.apply e := by
  unfold formArgs? at h
  split at h
  case h_1 name args =>
    split at h
    case isTrue hname =>
      obtain rfl := Option.some.inj h
      rw [Mark.apply, ← eq_of_beq hname]
    case isFalse => cases h
  case h_2 => cases h

section

variable (ev : Evaluate) (env : Env) {ts : List Term}

theorem holes_unquote (e : Term) : holes (Mark.unquote.apply e) = [⟨e, false⟩] := by
  have h := formArgs_apply .unquote e
  simp only [Mark.apply] at h
  simp only [Mark.apply, holes, h, List.map_cons, List.map_nil]

theorem holes_list (h : formArgs? Mark.unquote.form (.list ts) = none) :
    holes (.list ts) = holesOfAll ts := by
  simp only [holes, h]

theorem holes_leaf {t : Term} (h : t.kind ≠ .list) : holes t = [] := by
  cases t with
  | list ts => exact absurd rfl h
  | _ => rfl

theorem holesOfAll_splice (e : Term) (ts : List Term) :
    holesOfAll (Mark.splice.apply e :: ts) = ⟨e, true⟩ :: holesOfAll ts := by
  simp only [holesOfAll, formArgs_apply, List.map_cons, List.map_nil, List.cons_append,
    List.nil_append]

theorem holesOfAll_cons {t : Term} (h : formArgs? Mark.splice.form t = none) (ts : List Term) :
    holesOfAll (t :: ts) = holes t ++ holesOfAll ts := by
  simp only [holesOfAll, h]

theorem instantiate_unquote (e : Term) :
    instantiate ev env (Mark.unquote.apply e) = ev.value e env := by
  have h := formArgs_apply .unquote e
  simp only [Mark.apply] at h
  simp only [Mark.apply, instantiate, h, List.headD_cons]

theorem instantiate_list (h : formArgs? Mark.unquote.form (.list ts) = none) :
    instantiate ev env (.list ts) = instantiateAll ev env ts >>= fun us => pure (.list us) := by
  simp only [instantiate, h]

theorem instantiateAll_splice (e : Term) (ts : List Term) :
    instantiateAll ev env (Mark.splice.apply e :: ts) = (do
      let v ← ev.value e env
      let us ← instantiateAll ev env ts
      let xs ← Action.ofExcept (Arguments.list "concat" v)
      return xs ++ us) := by
  simp only [instantiateAll, formArgs_apply, List.headD_cons]

theorem instantiateAll_cons {t : Term} (h : formArgs? Mark.splice.form t = none) (ts : List Term) :
    instantiateAll ev env (t :: ts) = (do
      let u ← instantiate ev env t
      let us ← instantiateAll ev env ts
      return u :: us) := by
  simp only [instantiateAll, h]

end

theorem list_of_elements {v : Term} {xs : List Term} (h : v.elements? = some xs) (who : String) :
    Arguments.list who v = .ok xs := by
  match v, h with
  | .list _, rfl => rfl
  | .nil, rfl => rfl

/-- Only lists and nil have elements to splice in. -/
theorem list_of_no_elements {v : Term} (h : v.elements? = none) (who : String) :
    Arguments.list who v = .error (.general (.wrongKind (Bytes.ofString who) .list v.kind)) := by
  match v, h with
  | .bool _, _ | .int _, _ | .float _, _ | .string _, _ | .keyword _, _ | .symbol _, _
  | .dict _, _ | .native _, _ | .closure _, _ => rfl

mutual

theorem isTemplate_of_ok : {t x : Term} → quasiquote t = .ok x → IsTemplate t
  | .list ts, x, h => by
    simp only [quasiquote] at h
    cases hunquote : formArgs? Mark.unquote.form (.list ts) with
    | some args =>
      rw [hunquote] at h
      match args, h with
      | [e], _ =>
        rw [formArgs_eq_single hunquote]
        exact .unquote e
    | none =>
      cases hsplice : formArgs? Mark.splice.form (.list ts) with
      | some args =>
        rw [hunquote, hsplice] at h
        cases h
      | none =>
        rw [hunquote, hsplice] at h
        obtain ⟨hsplices, hparts⟩ := areParts_of_ok h
        exact .list hunquote hsplice hsplices hparts
  | .atom a, _, _ => .leaf (by cases a <;> simp [Term.kind])
  | .dict _, _, _ | .native _, _, _ | .closure _, _, _ => .leaf (by simp [Term.kind])

theorem areParts_of_ok : {ts : List Term} → {x : Term} → quasiquoteAll ts = .ok x →
    (∀ t ∈ ts, ∀ args, formArgs? Mark.splice.form t = some args → ∃ e, args = [e]) ∧
      ∀ t ∈ ts, formArgs? Mark.splice.form t = none → IsTemplate t
  | [], _, _ => ⟨nofun, nofun⟩
  | t :: ts, x, h => by
    simp only [quasiquoteAll] at h
    cases hrest : quasiquoteAll ts with
    | error c => rw [hrest] at h; cases h
    | ok y =>
      obtain ⟨hsplices, hparts⟩ := areParts_of_ok hrest
      rw [hrest] at h
      cases hsplice : formArgs? Mark.splice.form t with
      | some args =>
        rw [hsplice] at h
        match args, h with
        | [e], _ =>
          refine ⟨List.forall_mem_cons.mpr ⟨fun args h => ⟨e, ?_⟩, hsplices⟩,
            List.forall_mem_cons.mpr ⟨fun h => ?_, hparts⟩⟩
          · exact (Option.some.inj (hsplice.symm.trans h)).symm
          · rw [hsplice] at h
            cases h
      | none =>
        rw [hsplice] at h
        cases ht : quasiquote t with
        | error c => rw [ht] at h; cases h
        | ok u =>
          refine ⟨List.forall_mem_cons.mpr ⟨fun args h => ?_, hsplices⟩,
            List.forall_mem_cons.mpr ⟨fun _ => isTemplate_of_ok ht, hparts⟩⟩
          rw [hsplice] at h
          cases h

end

/-! ## Evaluating the holes -/

section

variable {host : Host} {env : Env} {s s' : State}

/-- The expressions in the holes end with these values, or as the first one that fails. -/
def HolesEnd (host : Host) (env : Env) (hs : List Hole) (s : State) (r : Outcome (List Term)) :
    Prop := EndsIn host (fun ev => ev.values env (hs.map Hole.form)) s r

/-- A value to be spliced in, of those that the holes have in turn, is neither a list nor nil. -/
inductive Misfit (host : Host) (env : Env) : List Hole → State → Prop
  | here {e v : Term} {env' : Env} {s s' : State} (hs : List Hole)
      (h : Evaluates host e env s (.value (v, env') s')) (hv : v.elements? = none) :
      Misfit host env (⟨e, true⟩ :: hs) s
  | later {hole : Hole} {hs : List Hole} {v : Term} {env' : Env} {s s' : State}
      (h : Evaluates host hole.form env s (.value (v, env') s')) (h' : Misfit host env hs s') :
      Misfit host env (hole :: hs) s

/-- `P` holds before the first hole is evaluated and after each that has a value. -/
def Throughout (host : Host) (env : Env) (P : State → Prop) : List Hole → State → Prop
  | [], s => P s
  | hole :: hs, s => P s ∧ ∀ v env' s', Evaluates host hole.form env s (.value (v, env') s') →
      Throughout host env P hs s'

theorem holesEnd_nil {r : Outcome (List Term)} :
    HolesEnd host env [] s r ↔ r = .value [] s := by
  refine EndsIn.const_iff.trans ⟨fun h => h.2.symm, ?_⟩
  rintro rfl
  exact ⟨nofun, rfl⟩

theorem holesEnd_cons_iff {hole : Hole} {hs : List Hole} {r : Outcome (List Term)} :
    HolesEnd host env (hole :: hs) s r ↔
      (∃ e s', Evaluates host hole.form env s (.failure e s') ∧ r = .failure e s') ∨
        ∃ v env' s', Evaluates host hole.form env s (.value (v, env') s') ∧
          ∃ r', HolesEnd host env hs s' r' ∧ r = r'.map (v :: ·) := EndsIn.values_cons_iff

theorem map_eq_value {α β : Type} {g : α → β} {r : Outcome α} {b : β} (h : .value b s = r.map g) :
    ∃ a, r = .value a s ∧ b = g a := by
  cases r with
  | value a s' => cases h; exact ⟨a, rfl, rfl⟩
  | failure e s' => cases h
  | timeout => cases h

theorem map_eq_failure {α β : Type} {g : α → β} {r : Outcome α} {e : Error}
    (h : .failure e s = r.map g) : r = .failure e s := by
  cases r with
  | value a s' => cases h
  | failure e' s' => cases h; rfl
  | timeout => cases h

theorem holesEnd_cons_value {hole : Hole} {hs : List Hole} {vs : List Term}
    (h : HolesEnd host env (hole :: hs) s (.value vs s')) :
    ∃ v env' s₁ ws, Evaluates host hole.form env s (.value (v, env') s₁) ∧
      HolesEnd host env hs s₁ (.value ws s') ∧ vs = v :: ws := by
  rcases holesEnd_cons_iff.mp h with ⟨e, s₁, -, heq⟩ | ⟨v, env', s₁, heval, r', hr', heq⟩
  · cases heq
  · obtain ⟨ws, rfl, rfl⟩ := map_eq_value heq
    exact ⟨v, env', s₁, ws, heval, hr', rfl⟩

theorem holesEnd_cons_of_value {hole : Hole} {hs : List Hole} {v : Term} {env' : Env}
    {r : Outcome (List Term)} (h : Evaluates host hole.form env s (.value (v, env') s'))
    (h' : HolesEnd host env hs s' r) : HolesEnd host env (hole :: hs) s (r.map (v :: ·)) :=
  holesEnd_cons_iff.mpr (.inr ⟨v, env', s', h, r, h', rfl⟩)

theorem HolesEnd.append {hs hs' : List Hole} {vs : List Term} {r : Outcome (List Term)}
    (h : HolesEnd host env hs s (.value vs s')) (h' : HolesEnd host env hs' s' r) :
    HolesEnd host env (hs ++ hs') s (r.map (vs ++ ·)) := by
  induction hs generalizing s vs with
  | nil =>
    cases holesEnd_nil.mp h
    cases r <;> exact h'
  | cons hole hs ih =>
    obtain ⟨v, env', s₁, ws, heval, hrest, rfl⟩ := holesEnd_cons_value h
    have hcons := holesEnd_cons_of_value heval (ih hrest)
    cases r <;> exact hcons

/-- Holes in a row end where the first ones fail, or else as the others do after them. -/
theorem HolesEnd.of_append {hs hs' : List Hole} {r : Outcome (List Term)}
    (h : HolesEnd host env (hs ++ hs') s r) :
    (∃ e s', HolesEnd host env hs s (.failure e s') ∧ r = .failure e s') ∨
      ∃ vs s' r', HolesEnd host env hs s (.value vs s') ∧ HolesEnd host env hs' s' r' ∧
        r = r'.map (vs ++ ·) := by
  induction hs generalizing s r with
  | nil =>
    refine .inr ⟨[], s, r, holesEnd_nil.mpr rfl, h, ?_⟩
    cases r <;> rfl
  | cons hole hs ih =>
    rcases holesEnd_cons_iff.mp h with ⟨e, s', hfail, rfl⟩ | ⟨v, env', s₁, heval, r', hr', rfl⟩
    · exact .inl ⟨e, s', holesEnd_cons_iff.mpr (.inl ⟨e, s', hfail, rfl⟩), rfl⟩
    · rcases ih hr' with ⟨e, s', hfail, rfl⟩ | ⟨vs, s', r'', hvs, hr'', rfl⟩
      · exact .inl ⟨e, s', holesEnd_cons_of_value heval hfail, rfl⟩
      · refine .inr ⟨v :: vs, s', r'', holesEnd_cons_of_value heval hvs, hr'', ?_⟩
        cases r'' <;> rfl

theorem HolesEnd.of_append_value {hs hs' : List Hole} {vs : List Term}
    (h : HolesEnd host env (hs ++ hs') s (.value vs s')) :
    ∃ us s₁ ws, HolesEnd host env hs s (.value us s₁) ∧ HolesEnd host env hs' s₁ (.value ws s') ∧
      vs = us ++ ws := by
  rcases h.of_append with ⟨e, s₁, -, heq⟩ | ⟨us, s₁, r', hus, hr', heq⟩
  · cases heq
  · obtain ⟨ws, rfl, rfl⟩ := map_eq_value heq
    exact ⟨us, s₁, ws, hus, hr', rfl⟩

namespace Misfit

variable {hs hs' : List Hole} {vs : List Term}

theorem append_left (h : Misfit host env hs s) (hs' : List Hole) :
    Misfit host env (hs ++ hs') s := by
  induction h with
  | here hs h hv => exact .here _ h hv
  | later h _ ih => exact .later h ih

theorem append_right (h : HolesEnd host env hs s (.value vs s')) (h' : Misfit host env hs' s') :
    Misfit host env (hs ++ hs') s := by
  induction hs generalizing s vs with
  | nil =>
    cases holesEnd_nil.mp h
    exact h'
  | cons hole hs ih =>
    obtain ⟨v, env', s₁, ws, heval, hrest, -⟩ := holesEnd_cons_value h
    exact .later heval (ih hrest)

theorem of_append (h : HolesEnd host env hs s (.value vs s')) (hm : Misfit host env (hs ++ hs') s) :
    Misfit host env hs s ∨ Misfit host env hs' s' := by
  induction hs generalizing s vs with
  | nil =>
    cases holesEnd_nil.mp h
    exact .inr hm
  | cons hole hs ih =>
    obtain ⟨v, env', s₁, ws, heval, hrest, -⟩ := holesEnd_cons_value h
    cases hm with
    | here hs heval' hv => exact .inl (.here _ heval' hv)
    | later heval' hm =>
      cases returns_unique heval heval'
      exact (ih hrest hm).imp_left (.later heval)

end Misfit

namespace Throughout

variable {P : State → Prop} {hs hs' : List Hole} {vs : List Term}

theorem now (h : Throughout host env P hs s) : P s := by
  cases hs with
  | nil => exact h
  | cons hole hs => exact h.1

theorem left (h : Throughout host env P (hs ++ hs') s) : Throughout host env P hs s := by
  induction hs generalizing s with
  | nil => exact h.now
  | cons hole hs ih => exact ⟨h.1, fun v env' s' heval => ih (h.2 v env' s' heval)⟩

theorem right (h : Throughout host env P (hs ++ hs') s)
    (hvs : HolesEnd host env hs s (.value vs s')) : Throughout host env P hs' s' := by
  induction hs generalizing s vs with
  | nil =>
    cases holesEnd_nil.mp hvs
    exact h
  | cons hole hs ih =>
    obtain ⟨v, env', s₁, ws, heval, hrest, -⟩ := holesEnd_cons_value hvs
    exact ih (h.2 v env' s₁ heval) hrest

end Throughout

end

/-! ## Instantiation -/

def Complains {α : Type} (host : Host) (m : Evaluate → Action α) (s : State) : Prop :=
  ∃ c s', EndsIn host m s (.failure (.general c) s')

theorem Complains.first {α β : Type} {host : Host} {m : Evaluate → Action α}
    {f : α → Evaluate → Action β} {s : State} (h : Complains host m s) :
    Complains host (fun ev => m ev >>= fun a => f a ev) s := by
  obtain ⟨c, s', hends⟩ := h
  exact ⟨c, s', hends.bind_failure⟩

theorem Complains.after {α β : Type} {host : Host} {m : Evaluate → Action α}
    {f : α → Evaluate → Action β} {s s' : State} {a : α} (h : Complains host (f a) s')
    (hm : Steady m) (hf : ∀ a, Steady (f a)) (ha : EndsIn host m s (.value a s')) :
    Complains host (fun ev => m ev >>= fun a => f a ev) s := by
  obtain ⟨c, s'', hends⟩ := h
  exact ⟨c, s'', ha.bind_value hm hf hends⟩

/-- The action evaluates the holes in order and puts their values in: `filled` says which results
the values may give. It fails where a hole does, or complains about a value that does not fit. -/
structure Fills {α : Type} (host : Host) (env : Env) (hs : List Hole) (m : Evaluate → Action α)
    (filled : List Term → α → Prop) : Prop where
  steady : Steady m
  evaluated {s s' : State} {a : α} (h : EndsIn host m s (.value a s')) :
    ∃ vs, HolesEnd host env hs s (.value vs s')
  value {s s' : State} {vs : List Term} (h : HolesEnd host env hs s (.value vs s'))
    (hfit : ¬ Misfit host env hs s) : ∃ a, filled vs a ∧ EndsIn host m s (.value a s')
  misfit {s s' : State} {vs : List Term} (h : HolesEnd host env hs s (.value vs s'))
    (hmisfit : Misfit host env hs s) : Complains host m s
  failure {s s' : State} {e : Error} (h : HolesEnd host env hs s (.failure e s')) :
    EndsIn host m s (.failure e s') ∨ Misfit host env hs s ∧ Complains host m s

namespace Fills

variable {host : Host} {env : Env} {α β γ : Type} {hs hs' : List Hole} {m : Evaluate → Action α}
  {m' : Evaluate → Action β} {filled : List Term → α → Prop} {filled' : List Term → β → Prop}

theorem pure {a : α} (h : filled [] a) : Fills host env [] (fun _ => Pure.pure a) filled where
  steady := steady_const _
  evaluated {s s' b} h := by
    cases (EndsIn.const_iff.mp h).2
    exact ⟨[], holesEnd_nil.mpr rfl⟩
  value h' _ := by
    cases holesEnd_nil.mp h'
    exact ⟨a, h, .pure a⟩
  misfit _ h := nomatch h
  failure h := nomatch holesEnd_nil.mp h

theorem map (h : Fills host env hs m filled) {g : α → β}
    (hg : ∀ vs a, filled vs a → filled' vs (g a)) :
    Fills host env hs (fun ev => m ev >>= fun a => Pure.pure (g a)) filled' where
  steady := h.steady.bind fun _ => steady_const _
  evaluated h' := by
    obtain ⟨r', hr', heq⟩ := EndsIn.map_iff.mp h'
    obtain ⟨a, rfl, -⟩ := map_eq_value heq
    exact h.evaluated hr'
  value hvs hfit := by
    obtain ⟨a, ha, hends⟩ := h.value hvs hfit
    exact ⟨g a, hg _ a ha, hends.map_value⟩
  misfit hvs hm := (h.misfit hvs hm).first
  failure hfail := (h.failure hfail).imp (fun hends => hends.bind_failure)
    fun ⟨hm, hcomplains⟩ => ⟨hm, hcomplains.first⟩

/-- One hole, for a value. -/
theorem hole {e : Term} {filled : List Term → Term → Prop} (hfilled : ∀ v, filled [v] v) :
    Fills host env [⟨e, false⟩] (fun ev => ev.value e env) filled where
  steady := steady_value e env
  evaluated h := by
    obtain ⟨env', heval⟩ := EndsIn.value_iff_value.mp h
    exact ⟨_, holesEnd_cons_of_value heval (holesEnd_nil.mpr rfl)⟩
  value h _ := by
    obtain ⟨v, env', s₁, ws, heval, hnil, rfl⟩ := holesEnd_cons_value h
    cases holesEnd_nil.mp hnil
    exact ⟨v, hfilled v, EndsIn.value_iff_value.mpr ⟨env', heval⟩⟩
  misfit _ hm := by
    cases hm with
    | later _ hm => nomatch hm
  failure h := by
    rcases holesEnd_cons_iff.mp h with ⟨e', s', hfail, heq⟩ | ⟨v, env', s', -, r', hnil, heq⟩
    · cases heq
      exact .inl (EndsIn.value_iff_failure.mpr hfail)
    · cases holesEnd_nil.mp hnil
      cases heq

/-- One part after the other. -/
theorem append {filled'' : List Term → γ → Prop} {g : α → β → γ} (h : Fills host env hs m filled)
    (h' : Fills host env hs' m' filled')
    (hg : ∀ vs ws a b, filled vs a → filled' ws b → filled'' (vs ++ ws) (g a b)) :
    Fills host env (hs ++ hs')
      (fun ev => m ev >>= fun a => m' ev >>= fun b => Pure.pure (g a b)) filled'' := by
  have hrest (a : α) : Steady fun ev => m' ev >>= fun b => Pure.pure (g a b) :=
    h'.steady.bind fun _ => steady_const _
  refine ⟨h.steady.bind hrest, fun hends => ?_, fun hvs hfit => ?_, fun {s s' vs} hvs hm => ?_,
    fun {s s' e} hfail => ?_⟩
  · obtain ⟨a, s₁, ha, hb⟩ := EndsIn.of_bind_value h.steady hrest hends
    obtain ⟨r', hr', heq⟩ := EndsIn.map_iff.mp hb
    obtain ⟨b, rfl, -⟩ := map_eq_value heq
    obtain ⟨vs, hvs⟩ := h.evaluated ha
    obtain ⟨ws, hws⟩ := h'.evaluated hr'
    exact ⟨vs ++ ws, hvs.append hws⟩
  · obtain ⟨us, s₁, ws, hus, hws, rfl⟩ := hvs.of_append_value
    obtain ⟨a, ha, hm⟩ := h.value hus fun hm => hfit (hm.append_left hs')
    obtain ⟨b, hb, hm'⟩ := h'.value hws fun hm => hfit (.append_right hus hm)
    exact ⟨g a b, hg us ws a b ha hb, hm.bind_value h.steady hrest hm'.map_value⟩
  · obtain ⟨us, s₁, ws, hus, hws, -⟩ := hvs.of_append_value
    by_cases hfirst : Misfit host env hs s
    · exact (h.misfit hus hfirst).first
    · obtain ⟨a, -, hends⟩ := h.value hus hfirst
      have hsecond := (Misfit.of_append hus hm).resolve_left hfirst
      exact (h'.misfit hws hsecond).first.after h.steady hrest hends
  · rcases hfail.of_append with ⟨e, s₁, hfirst, heq⟩ | ⟨us, s₁, r', hus, hr', heq⟩
    · cases heq
      exact (h.failure hfirst).imp (fun hends => hends.bind_failure)
        fun ⟨hm, hcomplains⟩ => ⟨hm.append_left hs', hcomplains.first⟩
    · obtain rfl := map_eq_failure heq
      by_cases hfirst : Misfit host env hs s
      · exact .inr ⟨hfirst.append_left hs', (h.misfit hus hfirst).first⟩
      · obtain ⟨a, -, hends⟩ := h.value hus hfirst
        exact (h'.failure hr').imp
          (fun hends' => hends.bind_value h.steady hrest hends'.bind_failure)
          fun ⟨hm, hcomplains⟩ => ⟨.append_right hus hm,
            hcomplains.first.after h.steady hrest hends⟩

/-- The elements of the value of a hole, before the terms of the parts after it. -/
def elementsBefore (v : Term) (us : List Term) : Action (List Term) := do
  let xs ← Action.ofExcept (Arguments.list "concat" v)
  return xs ++ us

theorem elementsBefore_value {v : Term} {xs : List Term} (hv : v.elements? = some xs)
    (us : List Term) (s : State) :
    EndsIn host (fun _ => elementsBefore v us) s (.value (xs ++ us) s) := by
  refine EndsIn.const_iff.mpr ⟨nofun, ?_⟩
  simp only [elementsBefore, list_of_elements hv]
  rfl

theorem elementsBefore_complains {v : Term} (hv : v.elements? = none) (us : List Term)
    (s : State) : Complains host (fun _ => elementsBefore v us) s := by
  refine ⟨.wrongKind (Bytes.ofString "concat") .list v.kind, s, EndsIn.const_iff.mpr ⟨nofun, ?_⟩⟩
  simp only [elementsBefore, list_of_no_elements hv]
  rfl

/-- Putting elements in leaves the state alone. -/
theorem elementsBefore_state {v : Term} {us ts : List Term} {s s' : State}
    (h : EndsIn host (fun _ => elementsBefore v us) s (.value ts s')) : s' = s := by
  have hend : elementsBefore v us s = .value ts s' := (EndsIn.const_iff.mp h).2
  cases hv : v.elements? with
  | none =>
    simp only [elementsBefore, list_of_no_elements hv] at hend
    cases hend
  | some xs =>
    simp only [elementsBefore, list_of_elements hv] at hend
    cases hend
    rfl

/-- One hole for elements, before further parts. -/
theorem splice {e : Term} {m : Evaluate → Action (List Term)}
    {filled filled' : List Term → List Term → Prop} (h : Fills host env hs m filled)
    (hfilled : ∀ v xs vs us, v.elements? = some xs → filled vs us → filled' (v :: vs) (xs ++ us)) :
    Fills host env (⟨e, true⟩ :: hs) (fun ev => ev.value e env >>= fun v => m ev >>= fun us =>
      Action.ofExcept (Arguments.list "concat" v) >>= fun xs => Pure.pure (xs ++ us)) filled' := by
  have hcheck (v : Term) : Steady fun ev => m ev >>= fun us => elementsBefore v us :=
    h.steady.bind fun _ => steady_const _
  have hvalue {v : Term} {env' : Env} {s s' : State}
      (heval : Evaluates host e env s (.value (v, env') s')) :
      EndsIn host (fun ev => ev.value e env) s (.value v s') :=
    EndsIn.value_iff_value.mpr ⟨env', heval⟩
  refine ⟨(steady_value e env).bind hcheck, fun {s s' a} hends => ?_, fun hvs hfit => ?_,
    fun hvs hm => ?_, fun hfail => ?_⟩
  · obtain ⟨v, s₁, hv, hthen⟩ := EndsIn.of_bind_value (steady_value e env) hcheck hends
    obtain ⟨us, s₂, hus, hlast⟩ := EndsIn.of_bind_value h.steady (fun _ => steady_const _) hthen
    obtain ⟨env', heval⟩ := EndsIn.value_iff_value.mp hv
    obtain ⟨vs, hvs⟩ := h.evaluated hus
    obtain rfl := elementsBefore_state hlast
    exact ⟨v :: vs, holesEnd_cons_of_value heval hvs⟩
  · obtain ⟨v, env', s₁, ws, heval, hrest, rfl⟩ := holesEnd_cons_value hvs
    cases hv : v.elements? with
    | none => exact absurd (.here hs heval hv) hfit
    | some xs =>
      obtain ⟨us, hus, hends⟩ := h.value hrest fun hm => hfit (.later heval hm)
      refine ⟨xs ++ us, hfilled v xs ws us hv hus, (hvalue heval).bind_value (steady_value e env)
        hcheck ?_⟩
      exact hends.bind_value h.steady (fun _ => steady_const _) (elementsBefore_value hv us _)
  · obtain ⟨v, env', s₁, ws, heval, hrest, -⟩ := holesEnd_cons_value hvs
    refine Complains.after ?_ (steady_value e env) hcheck (hvalue heval)
    by_cases hlater : Misfit host env hs s₁
    · exact (h.misfit hrest hlater).first
    · cases hm with
      | later heval' hm =>
        cases returns_unique heval heval'
        exact absurd hm hlater
      | here hs heval' hv =>
        cases returns_unique heval heval'
        obtain ⟨us, -, hends⟩ := h.value hrest hlater
        exact (elementsBefore_complains hv us _).after h.steady (fun _ => steady_const _) hends
  · rcases holesEnd_cons_iff.mp hfail with
      ⟨e', s', hfirst, heq⟩ | ⟨v, env', s₁, heval, r', hr', heq⟩
    · cases heq
      exact .inl (EndsIn.value_iff_failure.mpr hfirst).bind_failure
    · obtain rfl := map_eq_failure heq
      exact (h.failure hr').imp
        (fun hends => (hvalue heval).bind_value (steady_value e env) hcheck hends.bind_failure)
        fun ⟨hm, hcomplains⟩ => ⟨.later heval hm,
          hcomplains.first.after (steady_value e env) hcheck (hvalue heval)⟩

end Fills

section

variable {host : Host} {env : Env}

theorem instantiateAll_fills {ts : List Term}
    (hsplices : ∀ t ∈ ts, ∀ args, formArgs? Mark.splice.form t = some args → ∃ e, args = [e])
    (hparts : ∀ t ∈ ts, formArgs? Mark.splice.form t = none →
      Fills host env (holes t) (fun ev => instantiate ev env t) (Filled t)) :
    Fills host env (holesOfAll ts) (fun ev => instantiateAll ev env ts) (FilledAll ts) := by
  induction ts with
  | nil => exact .pure .nil
  | cons t ts ih =>
    have hrest := ih (fun t ht => hsplices t (List.mem_cons_of_mem _ ht))
      (fun t ht => hparts t (List.mem_cons_of_mem _ ht))
    cases hsplice : formArgs? Mark.splice.form t with
    | some args =>
      obtain ⟨e, rfl⟩ := hsplices t List.mem_cons_self args hsplice
      obtain rfl := formArgs_eq_single hsplice
      rw [holesOfAll_splice]
      simp only [instantiateAll_splice]
      exact hrest.splice fun v xs vs us hv hus => .splice e hv hus
    | none =>
      rw [holesOfAll_cons hsplice]
      simp only [instantiateAll_cons _ _ hsplice]
      exact (hparts t List.mem_cons_self hsplice).append hrest
        fun vs ws u us hu hus => .cons hsplice hu hus

/-- Instantiation evaluates the holes of a template and puts their values in. -/
theorem IsTemplate.fills {t : Term} (h : IsTemplate t) :
    Fills host env (holes t) (fun ev => instantiate ev env t) (Filled t) := by
  induction h with
  | unquote e =>
    rw [holes_unquote]
    simp only [instantiate_unquote]
    exact .hole fun v => .unquote e v
  | list hunquote hsplice hsplices hparts ih =>
    rw [holes_list hunquote]
    simp only [instantiate_list _ _ hunquote]
    exact (instantiateAll_fills hsplices ih).map fun vs us hus => .list hunquote hus
  | @leaf t hlist =>
    rw [holes_leaf hlist]
    cases t with
    | list ts => exact absurd rfl hlist
    | atom a => cases a with
      | symbol name =>
        cases hname : constant? name with
        | some v =>
          simp only [instantiate, hname, Option.getD_some]
          exact .pure (.constant hname)
        | none =>
          simp only [instantiate, hname, Option.getD_none]
          exact .pure (.symbol hname)
      | _ => exact .pure (.leaf hlist (by simp [Term.kind]))
    | _ => exact .pure (.leaf hlist (by simp [Term.kind]))

/-! ## The expression that builds a template -/

/-- What the expression relies on, in a state: `core/cons` and `core/concat` are the native
functions of these names, and `quote` is no macro. -/
structure State.BuildsLists (env : Env) (s : State) : Prop where
  cons : s.lookup env (Bytes.ofString "core/cons") = .ok (.native (.primitive .cons))
  concat : s.lookup env (Bytes.ofString "core/concat") = .ok (.native (.primitive .concat))
  quote : macroOf? s env (.sym "quote") = none

namespace State.BuildsLists

variable {s : State} (h : s.BuildsLists env)
include h

theorem callsCons : s.Calls env (Bytes.ofString "core/cons") .cons :=
  ⟨h.cons, by decide, by decide⟩

theorem callsConcat : s.Calls env (Bytes.ofString "core/concat") .concat :=
  ⟨h.concat, by decide, by decide⟩

end State.BuildsLists

/-- The value of the expression agrees with the action, as long as the expression can rely on what
it needs while the holes are evaluated. -/
def Builds (host : Host) (env : Env) (hs : List Hole) (x : Term) (m : Evaluate → Action Term) :
    Prop :=
  ∀ s, Throughout host env (State.BuildsLists env) hs s →
    Agrees host s (fun ev => ev.value x env) m

/-- A call with a built list as its second argument. -/
theorem Agrees.call_list {s : State} {name : Bytes} {p : Primitive} (h : s.Calls env name p)
    {x y : Term} {m : Evaluate → Action Term} {m' : Evaluate → Action (List Term)} (hm : Steady m)
    (hm' : Steady m') (hx : Agrees host s (fun ev => ev.value x env) m)
    (hy : ∀ u s', EndsIn host m s (.value u s') →
      Agrees host s' (fun ev => ev.value y env) fun ev => m' ev >>= fun us => pure (.list us)) :
    Agrees host s (fun ev => ev.value (.list [.symbol name, x, y]) env) fun ev =>
      m ev >>= fun u => m' ev >>= fun us => Action.ofExcept (p.call [u, .list us]) := by
  let rest (u : Term) (ev : Evaluate) : Action Term := do
    let w ← ev.value y env
    Action.ofExcept (p.call [u, w])
  let built (u : Term) (ev : Evaluate) : Action Term := do
    let w ← m' ev >>= fun us => pure (.list us)
    Action.ofExcept (p.call [u, w])
  have hlist : Steady fun ev => m' ev >>= fun us => pure (Term.list us) :=
    hm'.bind fun _ => steady_const _
  have hcall : Agrees host s (fun ev => ev.value (.list [.symbol name, x, y]) env)
      (fun ev => ev.value x env >>= fun u => rest u ev) := .call_two h x y
  have hparts : Agrees host s (fun ev => ev.value x env >>= fun u => rest u ev)
      (fun ev => m ev >>= fun u => built u ev) := by
    refine .bind (steady_value x env) hm
      (fun _ => (steady_value y env).bind fun _ => steady_const _)
      (fun _ => hlist.bind fun _ => steady_const _) hx fun u s' hu => ?_
    exact .bind (steady_value y env) hlist (fun _ => steady_const _) (fun _ => steady_const _)
      (hy u s' (hx.value hu)) fun _ _ _ => .refl _
  refine (hcall.trans hparts).trans (.of_eq fun ev => ?_)
  simp only [built, bind_assoc, pure_bind]

theorem builds_cons {hs hs' : List Hole} {x y : Term} {m : Evaluate → Action Term}
    {m' : Evaluate → Action (List Term)} {filled : List Term → Term → Prop}
    (hx : Builds host env hs x m) (hm : Fills host env hs m filled) (hm' : Steady m')
    (hy : Builds host env hs' y fun ev => m' ev >>= fun us => pure (.list us)) :
    Builds host env (hs ++ hs') (.list [.sym "core/cons", x, y]) fun ev =>
      (m ev >>= fun u => m' ev >>= fun us => pure (u :: us)) >>= fun us => pure (.list us) := by
  intro s hthroughout
  have hcall := Agrees.call_list hthroughout.now.callsCons hm.steady hm' (hx s hthroughout.left)
    fun u s' hu => by
      obtain ⟨vs, hvs⟩ := hm.evaluated hu
      exact hy s' (hthroughout.right hvs)
  refine hcall.trans (.of_eq fun ev => ?_)
  simp only [bind_assoc, pure_bind]
  rfl

theorem concat_two (v : Term) (us : List Term) :
    Action.ofExcept (Primitive.concat.call [v, .list us]) =
      Action.ofExcept (Arguments.list "concat" v) >>= fun xs => pure (.list (xs ++ us)) := by
  have hcall : Primitive.concat.call [v, .list us] =
      (Arguments.list "concat" v).map fun xs => .list (xs ++ us) := by
    simp only [Primitive.call, Collection.concat, Collection.append]
    cases Arguments.list "concat" v with
    | error e => rfl
    | ok xs =>
      have happend : Term.list (xs ++ (us ++ [])) = .list (xs ++ us) := by rw [List.append_nil]
      exact congrArg Except.ok happend
  rw [hcall]
  cases Arguments.list "concat" v <;> rfl

theorem builds_concat {hs : List Hole} {e y : Term} {m : Evaluate → Action (List Term)}
    (hm : Steady m) (hy : Builds host env hs y fun ev => m ev >>= fun us => pure (.list us)) :
    Builds host env (⟨e, true⟩ :: hs) (.list [.sym "core/concat", e, y]) fun ev =>
      (ev.value e env >>= fun v => m ev >>= fun us =>
        Action.ofExcept (Arguments.list "concat" v) >>= fun xs => pure (xs ++ us)) >>=
          fun us => pure (.list us) := by
  intro s hthroughout
  have hcall := Agrees.call_list hthroughout.now.callsConcat (steady_value e env) hm (.refl _)
    fun v s' hv => by
      obtain ⟨env', heval⟩ := EndsIn.value_iff_value.mp hv
      exact hy s' (hthroughout.2 v env' s' heval)
  refine hcall.trans (.of_eq fun ev => ?_)
  simp only [bind_assoc, pure_bind, concat_two]

theorem evaluates_quote {s : State} (h : macroOf? s env (.sym "quote") = none) (t : Term) :
    Evaluates host (.list [.sym "quote", t]) env s (.value (t, env) s) := by
  have hspecial : specialForm? (.sym "quote") = some .quote := by decide
  refine ⟨nofun, 1, ?_⟩
  rw [run_succ, step_form host _ _ rfl]
  simp only [Action.inForm, Cursor.start]
  rw [stepForm_special host _ _ _ h hspecial]
  rfl

theorem evaluates_constant {s : State} {name : Bytes} {v : Term} (h : constant? name = some v) :
    Evaluates host (.symbol name) env s (.value (v, env) s) := by
  refine ⟨nofun, 1, ?_⟩
  rw [run_succ, step_atom _ _ _ rfl]
  simp only [Cursor.start, evalAtom, h]
  rfl

theorem quoteAtom_constant {name : Bytes} {v : Term} (h : constant? name = some v) :
    quoteAtom (.symbol name) = .symbol name := by
  refine if_pos ?_
  unfold constant? at h
  split at h
  case isTrue htrue => simp [htrue]
  split at h
  case isTrue hfalse => simp [hfalse]
  split at h
  case isTrue hnil => simp [hnil]
  case isFalse => cases h

theorem quoteAtom_symbol {name : Bytes} (h : constant? name = none) :
    quoteAtom (.symbol name) = .list [.sym "quote", .symbol name] := by
  refine if_neg fun hname => ?_
  unfold constant? at h
  repeat' split at h
  all_goals simp_all

theorem builds_leaf {t : Term} (h : t.kind ≠ .list) :
    ∃ x, quasiquote t = .ok x ∧ Builds host env [] x fun ev => instantiate ev env t := by
  cases t with
  | list ts => exact absurd rfl h
  | atom a =>
    refine ⟨quoteAtom a, rfl, fun s hs => ?_⟩
    cases a with
    | symbol name =>
      cases hname : constant? name with
      | some v =>
        rw [quoteAtom_constant hname]
        simp only [instantiate, hname, Option.getD_some]
        exact .of_evaluates (evaluates_constant hname)
      | none =>
        rw [quoteAtom_symbol hname]
        simp only [instantiate, hname, Option.getD_none]
        exact .of_evaluates (evaluates_quote hs.now.quote _)
    | _ => exact .of_evaluates ⟨nofun, 1, rfl⟩
  | _ => exact ⟨_, rfl, fun s _ => .of_evaluates ⟨nofun, 1, rfl⟩⟩

theorem quasiquoteAll_builds {ts : List Term}
    (hsplices : ∀ t ∈ ts, ∀ args, formArgs? Mark.splice.form t = some args → ∃ e, args = [e])
    (htemplates : ∀ t ∈ ts, formArgs? Mark.splice.form t = none → IsTemplate t)
    (hparts : ∀ t ∈ ts, formArgs? Mark.splice.form t = none →
      ∃ x, quasiquote t = .ok x ∧ Builds host env (holes t) x fun ev => instantiate ev env t) :
    ∃ x, quasiquoteAll ts = .ok x ∧
      Builds host env (holesOfAll ts) x fun ev =>
        instantiateAll ev env ts >>= fun us => pure (.list us) := by
  induction ts with
  | nil => exact ⟨.list [], rfl, fun s _ => .of_evaluates ⟨nofun, 1, rfl⟩⟩
  | cons t ts ih =>
    have htail {p : Term → Prop} (h : ∀ u ∈ t :: ts, p u) : ∀ u ∈ ts, p u :=
      fun u hu => h u (List.mem_cons_of_mem t hu)
    obtain ⟨y, hy, hbuilds⟩ := ih (htail hsplices) (htail htemplates) (htail hparts)
    have hfills : Fills host env (holesOfAll ts) (fun ev => instantiateAll ev env ts)
        (FilledAll ts) :=
      instantiateAll_fills (htail hsplices) fun t ht hs => (htail htemplates t ht hs).fills
    cases hsplice : formArgs? Mark.splice.form t with
    | some args =>
      obtain ⟨e, rfl⟩ := hsplices t List.mem_cons_self args hsplice
      refine ⟨.list [.sym "core/concat", e, y], ?_, ?_⟩
      · simp only [quasiquoteAll, hy, hsplice]
        rfl
      · obtain rfl := formArgs_eq_single hsplice
        rw [holesOfAll_splice]
        simp only [instantiateAll_splice]
        exact builds_concat hfills.steady hbuilds
    | none =>
      obtain ⟨x, hx, hpart⟩ := hparts t List.mem_cons_self hsplice
      refine ⟨.list [.sym "core/cons", x, y], ?_, ?_⟩
      · simp only [quasiquoteAll, hy, hsplice, hx]
        rfl
      · rw [holesOfAll_cons hsplice]
        simp only [instantiateAll_cons _ _ hsplice]
        exact builds_cons hpart (htemplates t List.mem_cons_self hsplice).fills hfills.steady
          hbuilds

/-- A template has an expression that builds it, and that ends as direct instantiation does. -/
theorem IsTemplate.builds {t : Term} (h : IsTemplate t) :
    ∃ x, quasiquote t = .ok x ∧ Builds host env (holes t) x fun ev => instantiate ev env t := by
  induction h with
  | unquote e =>
    refine ⟨e, ?_, fun s _ => ?_⟩
    · have hargs := formArgs_apply .unquote e
      simp only [Mark.apply] at hargs
      simp only [Mark.apply, quasiquote, hargs]
      rfl
    · simp only [instantiate_unquote]
      exact .refl _
  | list hunquote hsplice hsplices hparts ih =>
    obtain ⟨x, hx, hbuilds⟩ := quasiquoteAll_builds hsplices hparts ih
    refine ⟨x, ?_, ?_⟩
    · simp only [quasiquote, hunquote, hsplice, hx]
    · rw [holes_list hunquote]
      simp only [instantiate_list _ _ hunquote]
      exact hbuilds
  | leaf h =>
    rw [holes_leaf h]
    exact builds_leaf h

/-- Templates are what the rewriting accepts. -/
theorem isTemplate_iff_ok {t : Term} : IsTemplate t ↔ ∃ x, quasiquote t = .ok x := by
  constructor
  · intro h
    obtain ⟨x, hx, -⟩ : ∃ x, quasiquote t = .ok x ∧
        Builds Host.bare ⟨[], []⟩ (holes t) x fun ev => instantiate ev ⟨[], []⟩ t := h.builds
    exact ⟨x, hx⟩
  · rintro ⟨x, hx⟩
    exact isTemplate_of_ok hx

/-- A quasiquoted template goes on with the expression that builds it. -/
theorem Agrees.quasiquote {s : State} {t x : Term}
    (hm : macroOf? s env (.symbol Mark.quasiquote.form) = none) (hx : quasiquote t = .ok x) :
    Agrees host s (fun ev => ev.value (Mark.quasiquote.apply t) env)
      (fun ev => ev.value x env) := by
  let form := Mark.quasiquote.apply t
  have hspecial : specialForm? (.symbol Mark.quasiquote.form) = some .quasiquote := by decide
  have hform := stepForm_special host (evalWith host 0) 0 [t] (s := s)
    (c := ⟨form, env, env, true, some form⟩) hm hspecial
  have hstep : TailStep host (Cursor.start form env) s ⟨x, env, env, true, some form⟩ s := by
    refine ⟨0, ?_⟩
    rw [step_form host _ _ rfl]
    simp only [Action.inForm, Cursor.start]
    rw [hform]
    simp only [Cursor.special, Cursor.template, hx]
    rfl
  have hco : Cursor.Coherent ⟨x, env, env, true, some form⟩ := fun _ => rfl
  have hiff (r : Outcome (Term × Env)) : Evaluates host form env s r ↔
      ∃ r', Evaluates host x env s r' ∧ r = r'.handBack x (some form) none :=
    (returns_tailStep hstep).trans (returns_iff_evaluates hco)
  refine Agrees.values ⟨fun r hr => ?_, fun r' hr' => ?_⟩
  · obtain ⟨r', hr', rfl⟩ := (hiff r).mp hr
    exact ⟨r', hr', bare_handBack x (some form) r'⟩
  · exact ⟨_, (hiff _).mpr ⟨r', hr', rfl⟩, bare_handBack x (some form) r'⟩

end

/-- A quasiquoted template ends as direct instantiation does, but for the form in which an error is
reported. If all holes have values, evaluated once each and from the left, then it is the template
filled in with them, or fails with a complaint if one to be spliced in is neither a list nor nil. If
a hole fails, then it fails with that error and in that state, unless it has complained before. -/
theorem quasiquote_instantiates {t : Term} (ht : IsTemplate t) {host : Host} {env : Env} {s : State}
    (hbuilds : Throughout host env (State.BuildsLists env) (holes t) s)
    (hm : macroOf? s env (.sym "quasiquote") = none) :
    let form (ev : Evaluate) : Action Term := ev.value (Mark.quasiquote.apply t) env
    Agrees host s form (fun ev => instantiate ev env t) ∧
    (∀ vs s', HolesEnd host env (holes t) s (.value vs s') →
      (¬ Misfit host env (holes t) s → ∃ u, Filled t vs u ∧ EndsIn host form s (.value u s')) ∧
      (Misfit host env (holes t) s →
        ∃ e c s₁, EndsIn host form s (.failure e s₁) ∧ e.bare = .general c)) ∧
    ∀ e s', HolesEnd host env (holes t) s (.failure e s') →
      (∃ e', EndsIn host form s (.failure e' s') ∧ e'.bare = e.bare) ∨
        Misfit host env (holes t) s ∧
          ∃ e' c s₁, EndsIn host form s (.failure e' s₁) ∧ e'.bare = .general c := by
  intro form
  obtain ⟨x, hx, hbuild⟩ : ∃ x, quasiquote t = .ok x ∧
      Builds host env (holes t) x fun ev => instantiate ev env t := ht.builds
  have hagrees : Agrees host s form fun ev => instantiate ev env t :=
    (Agrees.quasiquote hm hx).trans (hbuild s hbuilds)
  have hfills : Fills host env (holes t) (fun ev => instantiate ev env t) (Filled t) := ht.fills
  have hcomplains (h : Complains host (fun ev => instantiate ev env t) s) :
      ∃ e c s₁, EndsIn host form s (.failure e s₁) ∧ e.bare = .general c := by
    obtain ⟨c, s₁, hends⟩ := h
    obtain ⟨e, he, heq⟩ := hagrees.symm.failure hends
    exact ⟨e, c, s₁, he, heq.symm⟩
  refine ⟨hagrees, fun vs s' hvs => ⟨fun hfit => ?_, fun hmisfit => ?_⟩, fun e s' hfail => ?_⟩
  · obtain ⟨u, hu, hends⟩ := hfills.value hvs hfit
    exact ⟨u, hu, hagrees.symm.value hends⟩
  · exact hcomplains (hfills.misfit hvs hmisfit)
  · rcases hfills.failure hfail with hends | ⟨hmisfit, hends⟩
    · obtain ⟨e', he', heq⟩ := hagrees.symm.failure hends
      exact .inl ⟨e', he', heq.symm⟩
    · exact .inr ⟨hmisfit, hcomplains hends⟩

/-- The template `(x ~y ~@l (nil))`. -/
def mixedTemplate : Term :=
  .list [.sym "x", Mark.unquote.apply (.sym "y"), Mark.splice.apply (.sym "l"),
    .list [.sym "nil"]]

/-- The native functions needed, `1` as `y` and `(2 3)` as `l`, all in the namespace `core`. -/
def templateState : State :=
  let bind (name : String) (v : Term) (s : State) := s.bindRoot coreName (Bytes.ofString name) v
  State.empty.require coreName |> bind "cons" (.native (.primitive .cons))
    |> bind "concat" (.native (.primitive .concat)) |> bind "y" (.int 1)
    |> bind "l" (.list [.int 2, .int 3])

theorem mixedTemplate_instantiated :
    let env : Env := ⟨[], coreName⟩
    let vs : List Term := [.int 1, .list [.int 2, .int 3]]
    let u : Term := .list [.sym "x", .int 1, .int 2, .int 3, .list [.nil]]
    HolesEnd Host.bare env (holes mixedTemplate) templateState (.value vs templateState) ∧
      Filled mixedTemplate vs u ∧
      EndsIn Host.bare (fun ev => ev.value (Mark.quasiquote.apply mixedTemplate) env) templateState
        (.value u templateState) := by
  intro env vs u
  let s := templateState
  have htemplate : IsTemplate mixedTemplate := isTemplate_iff_ok.mpr ⟨_, rfl⟩
  have hy : Evaluates Host.bare (.sym "y") env s (.value (.int 1, env) s) := ⟨nofun, 1, rfl⟩
  have hl : Evaluates Host.bare (.sym "l") env s (.value (.list [.int 2, .int 3], env) s) :=
    ⟨nofun, 1, rfl⟩
  have hready : s.BuildsLists env := ⟨rfl, rfl, rfl⟩
  have hbuilds : Throughout Host.bare env (State.BuildsLists env) (holes mixedTemplate) s := by
    refine ⟨hready, fun v env' s₁ h => ?_⟩
    cases returns_unique hy h
    refine ⟨hready, fun v env' s₁ h => ?_⟩
    cases returns_unique hl h
    exact hready
  have hvs : HolesEnd Host.bare env (holes mixedTemplate) s (.value vs s) := ⟨nofun, 1, rfl⟩
  have hholes : holes mixedTemplate = [⟨.sym "y", false⟩, ⟨.sym "l", true⟩] := rfl
  have hfit : ¬ Misfit Host.bare env (holes mixedTemplate) s := by
    rw [hholes]
    intro h
    cases h with
    | later h hm =>
      cases returns_unique hy h
      cases hm with
      | here _ h hv =>
        cases returns_unique hl h
        cases hv
      | later _ hm => cases hm
  obtain ⟨-, hvalue, -⟩ := quasiquote_instantiates htemplate hbuilds rfl
  obtain ⟨u', hu', hends⟩ := (hvalue vs s hvs).1 hfit
  have hends' : EndsIn Host.bare (fun ev => ev.value (Mark.quasiquote.apply mixedTemplate) env) s
      (.value u s) := ⟨nofun, 10, rfl⟩
  cases hends.unique (steady_value _ env) hends'
  exact ⟨hvs, hu', hends⟩

end SmallLisp
