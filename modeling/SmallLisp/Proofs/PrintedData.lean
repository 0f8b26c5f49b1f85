import SmallLisp.Proofs.Endings
import SmallLisp.Proofs.RoundTrip

/-! Data is printed as an expression for itself. The text of a dict in braces is read as a call of
`hash-map`, and `true`, `false` and `nil` are read as symbols; evaluating what was read gives the
data back, with the entries of dicts in the order in which they were printed. -/
namespace SmallLisp

inductive IsDatum : Atom → Prop
  | int (n : Int64) : IsDatum (.int n)
  | string {s : Bytes} (h : s.isUtf8 = true) : IsDatum (.string s)
  | bool (b : Bool) : IsDatum (.bool b)
  | nil : IsDatum .nil
  | keyword {name : Bytes} (h : IsWord name) : IsDatum (.keyword name)

/-- Such atoms, the empty list, and dicts of data at keys that are such atoms. -/
inductive IsData : Term → Prop
  | atom {a : Atom} (h : IsDatum a) : IsData (.atom a)
  | empty : IsData (.list [])
  | dict {es : Entries} (hdistinct : (es.map Prod.fst).Nodup) (hkeys : ∀ e ∈ es, IsDatum e.1)
      (hvalues : ∀ e ∈ es, IsData e.2) : IsData (.dict es)

mutual

/-- Equal data: dicts have the same keys, with equal data at each, in any order. -/
inductive SameData : Term → Term → Prop
  | atom (a : Atom) : SameData (.atom a) (.atom a)
  | empty : SameData (.list []) (.list [])
  | dict {es es' es'' : Entries} (horder : es.Perm es') (h : SameEntries es' es'') :
      SameData (.dict es) (.dict es'')

inductive SameEntries : Entries → Entries → Prop
  | nil : SameEntries [] []
  | cons (key : Atom) {v w : Term} {es es' : Entries} (h : SameData v w) (h' : SameEntries es es') :
      SameEntries ((key, v) :: es) ((key, w) :: es')

end

def Atom.source : Atom → Term
  | .nil => .sym "nil"
  | .bool b => .sym (if b then "true" else "false")
  | a => .atom a

def interleave {α : Type} (key : Atom → α) (value : Term → α) (es : Entries) : List α :=
  es.flatMap fun e => [key e.1, value e.2]

mutual

def Term.source : Term → Term
  | .atom a => a.source
  | .dict es => .list (.sym "hash-map" ::
      interleave Atom.source id (sortEntries (sourceEntries es)))
  | t => t

def sourceEntries : Entries → Entries
  | [] => []
  | (k, v) :: es => (k, v.source) :: sourceEntries es

end

theorem sourceEntries_eq (es : Entries) : sourceEntries es = es.map fun e => (e.1, e.2.source) := by
  induction es with
  | nil => rfl
  | cons e es ih => rw [sourceEntries, ih, List.map_cons]

theorem renderEntries_eq (es : Entries) : renderEntries es = es.map fun e => (e.1, e.2.render) := by
  induction es with
  | nil => rfl
  | cons e es ih => rw [renderEntries, ih, List.map_cons]

theorem source_dict (es : Entries) : (Term.dict es).source =
    .list (.sym "hash-map" :: interleave Atom.source Term.source (sortEntries es)) := by
  rw [Term.source, sourceEntries_eq, sortEntries_map]
  simp [interleave, List.flatMap_map]

theorem join_interleave (es : Entries) :
    Bytes.join [32] (es.map fun e => e.1.render ++ 32 :: e.2.render) =
      Bytes.join [32] (interleave Atom.render Term.render es) := by
  induction es with
  | nil => rfl
  | cons e es ih =>
    cases es with
    | nil => simp [interleave, Bytes.join]
    | cons e' es =>
      simp only [interleave, List.map_cons, List.flatMap_cons, List.cons_append,
        List.nil_append, Bytes.join, List.append_assoc] at ih ⊢
      rw [ih]

theorem render_dict (es : Entries) : (Term.dict es).render =
    123 :: Bytes.join [32] (interleave Atom.render Term.render (sortEntries es)) ++ [125] := by
  rw [Term.render, renderEntries_eq, sortEntries_map, List.map_map, ← join_interleave]
  rfl

/-! ## Reading -/

theorem constant_isName {name : String} (h : name ∈ ["true", "false", "nil"]) :
    IsName (Bytes.ofString name) := by
  simp only [List.mem_cons, List.not_mem_nil, or_false] at h
  rcases h with rfl | rfl | rfl
  all_goals
    refine ⟨⟨by decide, by decide⟩, ?_, ?_, by decide, ?_⟩
    · exact fun h => absurd ((looksNumeric_iff _).mpr h) (by decide)
    · rintro (h | h | h)
      all_goals exact absurd h (by decide)
    · intro b t h
      cases h

theorem IsDatum.scans {a : Atom} (h : IsDatum a) : ScansAs a.render a.source := by
  cases h with
  | int n => exact scans_int n
  | string h => exact scans_string h
  | keyword h => exact scans_keyword h
  | nil => exact scans_symbol (constant_isName (by simp))
  | bool b => cases b <;> exact scans_symbol (constant_isName (by simp))

theorem IsData.scans {v : Term} (h : IsData v) : ScansAs v.render v.source := by
  induction h with
  | atom h => exact h.scans
  | empty => exact scans_list (by simp)
  | @dict es _ hkeys _ ih =>
    let parts := interleave (fun k => (k.render, k.source)) (fun v => (v.render, v.source))
      (sortEntries es)
    have hparts : ∀ p ∈ parts, ScansAs p.1 p.2 := by
      intro p hp
      obtain ⟨e, he, hp⟩ := List.mem_flatMap.mp hp
      have he : e ∈ es := (sortEntries_perm es).mem_iff.mp he
      simp only [List.mem_cons, List.not_mem_nil, or_false] at hp
      rcases hp with rfl | rfl
      · exact (hkeys e he).scans
      · exact ih e he
    have hgroup := scans_group (b := .curly) (o := 123) (c := 125) (by decide) (by decide) rfl
      (fun _ _ => rfl) (fun _ _ => rfl) hparts
    have htexts : parts.map Prod.fst = interleave Atom.render Term.render (sortEntries es) := by
      simp [parts, interleave, List.map_flatMap]
    have hterms : parts.map Prod.snd = interleave Atom.source Term.source (sortEntries es) := by
      simp [parts, interleave, List.map_flatMap]
    rw [htexts, hterms] at hgroup
    rw [render_dict, source_dict]
    exact hgroup

/-! ## Entering keys and values -/

theorem IsDatum.canonical {a : Atom} (h : IsDatum a) : a.canonical = a := by
  cases h <;> rfl

/-- Entering keys and values in turn, all keys new, adds them as they are. -/
theorem insertPairs_interleave (who : String) {es : Entries}
    (hkeys : ∀ e ∈ es, e.1.canonical = e.1)
    (acc : Entries) (hdistinct : ((acc ++ es).map Prod.fst).Nodup) :
    Collection.insertPairs who acc (interleave .atom id es) = .ok (acc ++ es) := by
  induction es generalizing acc with
  | nil => simp [interleave, Collection.insertPairs]
  | cons e es ih =>
    have hnew : e.1 ∉ acc.map Prod.fst := by
      intro hmem
      rw [List.map_append, List.nodup_append] at hdistinct
      exact hdistinct.2.2 _ hmem _ (by simp) rfl
    have hinsert : acc.insert e.1 e.2 = acc ++ [e] := by
      rw [Entries.insert, hkeys e List.mem_cons_self, Entries.put_of_new hnew]
    have hrest := ih (fun e he => hkeys e (List.mem_cons_of_mem _ he)) (acc ++ [e])
      (by simpa using hdistinct)
    rw [List.append_assoc] at hrest
    rw [← hinsert] at hrest
    exact hrest

theorem hashMap_interleave {es : Entries} (hkeys : ∀ e ∈ es, e.1.canonical = e.1)
    (hdistinct : (es.map Prod.fst).Nodup) :
    Primitive.hashMap.call (interleave .atom id es) = .ok (.dict es) := by
  have heven : (interleave Term.atom id es).length % 2 = 0 := by
    simp [interleave, List.length_flatMap, List.map_const']
  have hinsert := insertPairs_interleave "hash-map" hkeys [] hdistinct
  simp only [Primitive.call, Collection.hashMap, heven, hinsert]
  rfl

/-! ## Evaluating -/

section

variable {host : Host} {env : Env} {s : State}

theorem IsDatum.evaluates {a : Atom} (h : IsDatum a) :
    Evaluates host a.source env s (.value (.atom a, env) s) := by
  cases h with
  | bool b => cases b <;> exact ⟨nofun, 1, rfl⟩
  | _ => exact ⟨nofun, 1, rfl⟩

/-- The sources of keys and values in turn have the keys and equal values as values. -/
theorem entries_evaluate {es : Entries} (hkeys : ∀ e ∈ es, IsDatum e.1)
    (hvalues : ∀ e ∈ es, ∃ w, Evaluates host e.2.source env s (.value (w, env) s) ∧
      SameData e.2 w) :
    ∃ es' : Entries, SameEntries es es' ∧
      EndsIn host (fun ev => ev.values env (interleave Atom.source Term.source es)) s
        (.value (interleave .atom id es') s) := by
  induction es with
  | nil => exact ⟨[], .nil, .pure []⟩
  | cons e es ih =>
    obtain ⟨w, heval, hsame⟩ := hvalues e List.mem_cons_self
    obtain ⟨es', hentries, hends⟩ := ih (fun e he => hkeys e (List.mem_cons_of_mem _ he))
      (fun e he => hvalues e (List.mem_cons_of_mem _ he))
    refine ⟨(e.1, w) :: es', .cons e.1 hsame hentries, ?_⟩
    have hvalue : EndsIn host (fun ev => ev.values env (e.2.source ::
        interleave Atom.source Term.source es)) s (.value (w :: interleave .atom id es') s) :=
      EndsIn.values_cons_iff.mpr (.inr ⟨w, env, s, heval, _, hends, rfl⟩)
    have hkey : Evaluates host e.1.source env s (.value (.atom e.1, env) s) :=
      (hkeys e List.mem_cons_self).evaluates
    exact EndsIn.values_cons_iff.mpr (.inr ⟨.atom e.1, env, s, hkey, _, hvalue, rfl⟩)

theorem SameEntries.keys {es es' : Entries} (h : SameEntries es es') :
    es'.map Prod.fst = es.map Prod.fst := by
  induction es generalizing es' with
  | nil => cases h; rfl
  | cons e es ih =>
    cases h with
    | cons key _ h' => rw [List.map_cons, List.map_cons, ih h']

theorem IsData.evaluates {v : Term} (h : IsData v)
    (hmap : s.Calls env (Bytes.ofString "hash-map") .hashMap) :
    ∃ w, Evaluates host v.source env s (.value (w, env) s) ∧ SameData v w := by
  induction h with
  | @atom a h => exact ⟨.atom a, h.evaluates, .atom a⟩
  | empty => exact ⟨.list [], ⟨nofun, 1, rfl⟩, .empty⟩
  | @dict es hdistinct hkeys _ ih =>
    have horder := sortEntries_perm es
    have hsorted : ∀ e ∈ sortEntries es, IsDatum e.1 := fun e he => hkeys e (horder.mem_iff.mp he)
    obtain ⟨es', hsame, hends⟩ := entries_evaluate hsorted fun e he => ih e (horder.mem_iff.mp he)
    have hkeys' : es'.map Prod.fst = (sortEntries es).map Prod.fst := hsame.keys
    have hdata : ∀ e ∈ es', IsDatum e.1 := by
      intro e he
      have hmem : e.1 ∈ (sortEntries es).map Prod.fst := hkeys' ▸ List.mem_map_of_mem he
      obtain ⟨e', he', heq⟩ := List.mem_map.mp hmem
      exact heq ▸ hsorted e' he'
    have hdistinct' : (es'.map Prod.fst).Nodup :=
      hkeys' ▸ (horder.map Prod.fst).nodup_iff.mpr hdistinct
    have hcall := hashMap_interleave (fun e he => (hdata e he).canonical) hdistinct'
    refine ⟨.dict es', ?_, .dict horder.symm hsame⟩
    rw [source_dict]
    exact (evaluates_call_iff hmap).mpr (hends.callPrimitive hcall)

end

/-- Reading the text of data and evaluating what was read gives the data back, in every environment
where `hash-map` is the native function of this name, and changes nothing. -/
theorem printed_data_evaluates {v : Term} (h : IsData v) (host : Host) {env : Env} {s : State}
    (hmap : s.lookup env (Bytes.ofString "hash-map") = .ok (.native (.primitive .hashMap))) :
    ∃ t, parse v.render = .ok [t] ∧ parseFirst v.render = .ok t ∧
      ∃ w, Evaluates host t env s (.value (w, env) s) ∧ SameData v w := by
  obtain ⟨hall, hfirst⟩ := parse_scanned h.scans
  exact ⟨v.source, hall, hfirst, h.evaluates ⟨hmap, by decide, by decide⟩⟩

/-- A dict in a dict, entered in another order than it is printed in. -/
def nestedDict : Term :=
  .dict [(.string (Bytes.ofString "s"), .bool true),
    (.int 1, .dict [(.keyword (Bytes.ofString "a"), .nil)])]

theorem nestedDict_isData : IsData nestedDict := by
  have hkey : IsDatum (.keyword (Bytes.ofString "a")) := .keyword ⟨by decide, by decide⟩
  have hinner : IsData (.dict [(.keyword (Bytes.ofString "a"), .nil)]) :=
    .dict (by decide) (by simpa using hkey) (by simpa using IsData.atom .nil)
  refine .dict (by decide) ?_ ?_
  · simpa using ⟨IsDatum.string (by decide), IsDatum.int 1⟩
  · simpa using ⟨IsData.atom (.bool true), hinner⟩

theorem nestedDict_evaluates_back :
    let text := Bytes.ofString "\x7b1 \x7b:a nil\x7d \"s\" true\x7d"
    let name := Bytes.ofString "hash-map"
    let s := (State.empty.require coreName).bindRoot coreName name (.native (.primitive .hashMap))
    nestedDict.render = text ∧ ∃ t, parseFirst text = .ok t ∧
      ∃ w, Evaluates Host.bare t ⟨[], coreName⟩ s (.value (w, ⟨[], coreName⟩) s) ∧
        SameData nestedDict w := by
  intro text name s
  have hbound : s.lookup ⟨[], coreName⟩ name = .ok (.native (.primitive .hashMap)) := rfl
  have hrender : nestedDict.render = text := by decide +kernel
  obtain ⟨t, -, hfirst, hback⟩ := printed_data_evaluates nestedDict_isData Host.bare hbound
  exact ⟨hrender, t, hrender ▸ hfirst, hback⟩

end SmallLisp
