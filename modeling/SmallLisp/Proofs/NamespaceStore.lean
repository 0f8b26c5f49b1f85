import SmallLisp.Proofs.InnerFunctions
import SmallLisp.Session

/-! The store of namespaces. Namespaces are created on first use; they refer to one another, and
environments and functions refer to them, by name. The state is well-formed when every such name is
registered and every namespace but `core` imports `core` first. Each change of state keeps it so. -/
namespace SmallLisp

abbrev Registry.Registered (r : Registry) (name : Bytes) : Prop := r.contains name = true

def Registry.Covers (later earlier : Registry) : Prop :=
  ∀ name, earlier.Registered name → later.Registered name

/-- The function was defined in the namespace of the environment it captured, which is there. -/
structure Closure.Homed (r : Registry) (f : Closure Term) : Prop where
  home_eq : f.home = f.env.ns
  registered : r.Registered f.home

abbrev Term.Homed (r : Registry) (t : Term) : Prop := t.Functions (Closure.Homed r)

structure Namespace.WellFormed (r : Registry) (name : Bytes) (ns : Namespace) : Prop where
  name_eq : ns.name = name
  core_first (h : name ≠ coreName) : ns.imports.head? = some coreName
  imports_nodup : ns.imports.Nodup
  not_self : name ∉ ns.imports
  imports {i : Bytes} (h : i ∈ ns.imports) : r.Registered i
  aliases {short target : Bytes} (h : ns.aliases.get? short = some target) : r.Registered target
  root {x : Bytes} {v : Term} (h : ns.root.get? x = some v) : v.Homed r

/-- What holds of the namespaces, and of the values that namespaces and frames bind. -/
structure State.WellFormed (s : State) : Prop where
  core : s.namespaces.Registered coreName
  namespaces {name : Bytes} {ns : Namespace} (h : s.namespaces.get? name = some ns) :
    ns.WellFormed s.namespaces name
  frames {i : Nat} {x : Bytes} {v : Term} (h : (s.frame i).get? x = some v) :
    v.Homed s.namespaces

/-! ## More namespaces -/

section

variable {r r' : Registry}

theorem Registry.Covers.refl (r : Registry) : r.Covers r := fun _ h => h

theorem Registry.Covers.trans {r₁ r₂ r₃ : Registry} (h : r₂.Covers r₁) (h' : r₃.Covers r₂) :
    r₃.Covers r₁ := fun name hname => h' name (h name hname)

theorem Closure.Homed.mono (hr : r'.Covers r) {f : Closure Term} (h : f.Homed r) : f.Homed r' :=
  ⟨h.home_eq, hr _ h.registered⟩

theorem Term.Homed.mono (hr : r'.Covers r) {t : Term} (h : t.Homed r) : t.Homed r' :=
  Functions.mono (fun _ hf => hf.mono hr) h

theorem Namespace.WellFormed.mono (hr : r'.Covers r) {name : Bytes} {ns : Namespace}
    (h : ns.WellFormed r name) : ns.WellFormed r' name where
  name_eq := h.name_eq
  core_first := h.core_first
  imports_nodup := h.imports_nodup
  not_self := h.not_self
  imports hi := hr _ (h.imports hi)
  aliases ha := hr _ (h.aliases ha)
  root hv := (h.root hv).mono hr

end

/-! ## One namespace -/

namespace Namespace.WellFormed

variable {r : Registry} {name : Bytes} {ns : Namespace}

theorem fresh (hcore : r.Registered coreName) (name : Bytes) :
    (Namespace.fresh name).WellFormed r name := by
  by_cases h : name = coreName
  · subst h
    exact ⟨rfl, fun h => absurd rfl h, .nil, nofun, nofun, nofun, nofun⟩
  · have himports : (Namespace.fresh name).imports = [coreName] := by simp [Namespace.fresh, h]
    refine ⟨rfl, fun _ => ?_, ?_, ?_, fun {i} hi => ?_, nofun, nofun⟩
    · rw [himports]
      rfl
    · rw [himports]
      exact List.pairwise_singleton _ _
    · rw [himports]
      exact fun hmem => h (List.mem_singleton.mp hmem)
    · rw [himports] at hi
      rwa [List.mem_singleton.mp hi]

theorem bind (h : ns.WellFormed r name) (x : Bytes) {v : Term} (hv : v.Homed r) :
    (ns.bind x v).WellFormed r name :=
  { h with
    root := fun hw => by
      rcases Table.eq_or_of_get?_insert hw with rfl | hw
      · exact hv
      · exact h.root hw }

theorem addAlias (h : ns.WellFormed r name) (short : Bytes) {target : Bytes}
    (htarget : r.Registered target) : (ns.addAlias short target).WellFormed r name :=
  { h with
    aliases := fun ha => by
      rcases Table.eq_or_of_get?_insert ha with rfl | ha
      · exact htarget
      · exact h.aliases ha }

theorem addImport (h : ns.WellFormed r name) {other : Bytes} (hother : r.Registered other) :
    (ns.addImport other).WellFormed r name := by
  unfold Namespace.addImport
  split
  case isTrue => exact h
  case isFalse hnew =>
    rw [Bool.not_eq_true, Bool.or_eq_false_iff, beq_eq_false_iff_ne, h.name_eq] at hnew
    obtain ⟨hself, hnew⟩ := hnew
    have hnotin : other ∉ ns.imports := fun hmem => by simp [hmem] at hnew
    refine ⟨h.name_eq, fun hname => ?_, ?_, fun hmem => ?_, fun {i} hi => ?_, h.aliases, h.root⟩
    · simp [List.head?_append, h.core_first hname]
    · refine List.nodup_append.mpr ⟨h.imports_nodup, List.pairwise_singleton _ _, ?_⟩
      rintro i hi _ hother rfl
      exact hnotin (List.mem_singleton.mp hother ▸ hi)
    · rcases List.mem_append.mp hmem with hmem | hmem
      · exact h.not_self hmem
      · exact hself (List.mem_singleton.mp hmem).symm
    · rcases List.mem_append.mp hi with hi | hi
      · exact h.imports hi
      · rwa [List.mem_singleton.mp hi]

end Namespace.WellFormed

/-! ## Changes of state -/

namespace State

theorem frame_addFrame_eq_or (s : State) (f : Table Term) (i : Nat) :
    (s.addFrame f).frame i = f ∨ (s.addFrame f).frame i = s.frame i := by
  simp only [frame, addFrame, Array.getD_eq_getD_getElem?, Array.getElem?_push]
  split
  · exact .inl rfl
  · exact .inr rfl

theorem frame_define_eq_or (s : State) (i : Nat) (name : Bytes) (v : Term) (j : Nat) :
    (s.define i name v).frame j = (s.frame j).insert name v ∨
      (s.define i name v).frame j = s.frame j := by
  by_cases hij : i = j
  · subst hij
    by_cases hi : i < s.frames.size
    · exact .inl (frame_define_self hi name v)
    · right
      simp [frame, define, Array.getD_eq_getD_getElem?, hi]
  · exact .inr (frame_define_of_ne s hij name v)

theorem require_registered (s : State) (name : Bytes) :
    (s.require name).namespaces.Registered name := by
  have hcreate (s : State) : (s.create name).namespaces.Registered name := by
    refine (Table.contains_insert ..).trans ?_
    rw [beq_self_eq_true, Bool.true_or]
  unfold require
  split
  case isTrue h => exact h
  case isFalse =>
    split
    · exact hcreate s
    · exact hcreate _

end State

structure State.Follows (s' s : State) : Prop where
  wellFormed : s'.WellFormed
  covers : s'.namespaces.Covers s.namespaces

theorem State.Follows.trans {s₁ s₂ s₃ : State} (h : s₂.Follows s₁) (h' : s₃.Follows s₂) :
    s₃.Follows s₁ := ⟨h'.wellFormed, h.covers.trans h'.covers⟩

namespace State.WellFormed

variable {s : State}

theorem refl (hs : s.WellFormed) : s.Follows s := ⟨hs, .refl _⟩

/-- Counters, directories and the log do not matter. -/
theorem of_eq {s' : State} (hs : s.WellFormed) (hns : s'.namespaces = s.namespaces)
    (hframes : s'.frames = s.frames) : s'.Follows s := by
  have hframe (i : Nat) : s'.frame i = s.frame i := by simp only [State.frame, hframes]
  refine ⟨⟨?_, ?_, ?_⟩, ?_⟩
  · rw [hns]
    exact hs.core
  · rw [hns]
    exact hs.namespaces
  · intro i x v h
    rw [hframe] at h
    rw [hns]
    exact hs.frames h
  · rw [hns]
    exact .refl _

/-- Another namespace, well-formed among those that there are then. -/
theorem insert (hs : s.WellFormed) {name : Bytes} {ns : Namespace} {s' : State}
    (hns : s'.namespaces = s.namespaces.insert name ns) (hframes : s'.frames = s.frames)
    (h : ns.WellFormed s'.namespaces name) : s'.Follows s := by
  have hcovers : s'.namespaces.Covers s.namespaces := by
    intro other hother
    rw [Registry.Registered, hns, Table.contains_insert, hother, Bool.or_true]
  refine ⟨⟨hcovers _ hs.core, fun {other n} hget => ?_, fun {i x v} hget => ?_⟩, hcovers⟩
  · by_cases hne : name = other
    · subst hne
      rw [hns, Table.get?_insert_self] at hget
      cases hget
      exact h
    · rw [hns, Table.get?_insert_of_ne _ hne] at hget
      exact (hs.namespaces hget).mono hcovers
  · rw [State.frame, hframes] at hget
    exact (hs.frames hget).mono hcovers

theorem create (hs : s.WellFormed) (name : Bytes) : (s.create name).Follows s := by
  refine hs.insert rfl rfl (.fresh ?_ name)
  refine (Table.contains_insert ..).trans ?_
  rw [hs.core, Bool.or_true]

theorem require (hs : s.WellFormed) (name : Bytes) : (s.require name).Follows s := by
  unfold State.require
  -- `core` is there already
  rw [hs.core, Bool.or_true, if_pos rfl]
  split
  · exact hs.refl
  · exact hs.create name

theorem modify (hs : s.WellFormed) (name : Bytes) {f : Namespace → Namespace}
    (hf : ∀ {ns : Namespace}, ns.WellFormed s.namespaces name →
      (f ns).WellFormed s.namespaces name) :
    State.Follows { s with namespaces := s.namespaces.modify name f } s := by
  have hcovers : Registry.Covers (s.namespaces.modify name f) s.namespaces := by
    intro other hother
    rwa [Registry.Registered, Table.contains_modify]
  refine ⟨⟨hcovers _ hs.core, fun {other n} hget => ?_, fun hget => (hs.frames hget).mono hcovers⟩,
    hcovers⟩
  by_cases hne : name = other
  · subst hne
    rw [Table.get?_modify_self] at hget
    obtain ⟨ns, hns, rfl⟩ := Option.map_eq_some_iff.mp hget
    exact (hf (hs.namespaces hns)).mono hcovers
  · rw [Table.get?_modify_of_ne _ hne] at hget
    exact (hs.namespaces hget).mono hcovers

theorem bindRoot (hs : s.WellFormed) (ns x : Bytes) {v : Term} (hv : v.Homed s.namespaces) :
    (s.bindRoot ns x v).Follows s := hs.modify ns fun h => h.bind x hv

theorem addImport (hs : s.WellFormed) (ns : Bytes) {other : Bytes}
    (h : s.namespaces.Registered other) : (s.addImport ns other).Follows s :=
  hs.modify ns fun hns => hns.addImport h

theorem addAlias (hs : s.WellFormed) (ns short : Bytes) {target : Bytes}
    (h : s.namespaces.Registered target) : (s.addAlias ns short target).Follows s :=
  hs.modify ns fun hns => hns.addAlias short h

theorem addFrame (hs : s.WellFormed) {frame : Table Term}
    (h : ∀ x v, frame.get? x = some v → v.Homed s.namespaces) : (s.addFrame frame).Follows s := by
  refine ⟨⟨hs.core, hs.namespaces, fun {i x v} hget => ?_⟩, .refl _⟩
  rcases frame_addFrame_eq_or s frame i with heq | heq
  · rw [heq] at hget
    exact h x v hget
  · rw [heq] at hget
    exact hs.frames hget

theorem define (hs : s.WellFormed) (i : Nat) (name : Bytes) {v : Term}
    (hv : v.Homed s.namespaces) : (s.define i name v).Follows s := by
  refine ⟨⟨hs.core, hs.namespaces, fun {j x w} hget => ?_⟩, .refl _⟩
  rcases frame_define_eq_or s i name v j with heq | heq
  · rw [heq] at hget
    rcases Table.eq_or_of_get?_insert hget with rfl | hget
    · exact hv
    · exact hs.frames hget
  · rw [heq] at hget
    exact hs.frames hget

end State.WellFormed

/-! ## What is found in the state -/

theorem lookup_homed {s : State} (hs : s.WellFormed) {env : Env} {name : Bytes} {v : Term}
    (h : s.lookup env name = .ok v) : v.Homed s.namespaces := by
  rcases State.lookup_source h with ⟨i, -, hv⟩ | ⟨ns, n, x, hn, hv⟩
  · exact hs.frames hv
  · exact (hs.namespaces hn).root hv

/-! ## The first states -/

/-- A registry of `core` alone, which nothing binds and no frames refer to. -/
theorem core_wellFormed : (State.empty.require coreName).WellFormed := by
  have hcore : Registry.Registered (State.empty.require coreName).namespaces coreName :=
    State.require_registered _ _
  refine ⟨hcore, fun {name ns} h => ?_, nofun⟩
  have hns : (State.empty.require coreName).namespaces = [(coreName, .fresh coreName)] := rfl
  rw [hns, Table.get?] at h
  split at h
  case isTrue heq =>
    cases h
    rw [← eq_of_beq heq]
    exact .fresh hcore coreName
  case isFalse => cases h

theorem initial_wellFormed : State.initial.WellFormed := by
  refine State.initial_induction core_wellFormed ?_ ?_
  · intro s name hs
    exact (hs.require name).wellFormed
  · rintro s ns name v (⟨b, rfl⟩ | ⟨x, rfl⟩) hs
    · exact (hs.bindRoot ns name .native).wellFormed
    · exact (hs.bindRoot ns name .atom).wellFormed

theorem fresh_wellFormed : Session.fresh.state.WellFormed := by
  have huser := (initial_wellFormed.require Session.userName).wellFormed
  refine (huser.addFrame ?_).wellFormed
  exact fun _ _ h => nomatch h

end SmallLisp
