import SmallLisp.Proofs.Calls

/-! Lists of parameters. A function takes the names before `&`, and the one name after it stands for
the list of further arguments. What stands after the first `&` is not looked at, so that a list may
end in two of them; then `&` itself is the name of the further arguments. -/
namespace SmallLisp

/-- A list of parameters: names other than `&`, and the name after `&` if that follows. -/
inductive ParameterList : List Bytes → List Bytes → Option Bytes → Prop
  | fixed {names : List Bytes} (h : [38] ∉ names) : ParameterList names names none
  | variadic {before : List Bytes} (rest : Bytes) (h : [38] ∉ before) :
      ParameterList (before ++ [[38], rest]) before (some rest)

/-- There is no `&` among the names, or a single one, second to last. -/
def OneMark (names : List Bytes) : Prop :=
  [38] ∉ names ∨ names.count [38] = 1 ∧ ∃ before rest, names = before ++ [[38], rest]

/-- The last two names are `&`, and no others. -/
def TwoMarks (names : List Bytes) : Prop :=
  names.count [38] = 2 ∧ ∃ before, names = before ++ [[38], [38]]

/-! ## Splitting -/

section

variable {names before : List Bytes}

/-- A list can be read as parameters where `&` is used as it should be, and where it stands in the
last two places. -/
theorem parameterList_iff_marks :
    (∃ params last, ParameterList names params last) ↔ OneMark names ∨ TwoMarks names := by
  constructor
  · rintro ⟨params, last, hlist⟩
    cases hlist with
    | fixed h => exact .inl (.inl h)
    | variadic rest h =>
      have hcount : params.count [38] = 0 := List.count_eq_zero.mpr h
      by_cases hrest : rest = [38]
      · subst hrest
        exact .inr ⟨by simp [hcount], params, rfl⟩
      · exact .inl (.inr ⟨by simp [hcount, hrest], params, rest, rfl⟩)
  · have hlast (before : List Bytes) (rest : Bytes) (h : before.count [38] = 0) :
        ∃ params last, ParameterList (before ++ [[38], rest]) params last :=
      ⟨before, some rest, .variadic rest (List.count_eq_zero.mp h)⟩
    rintro ((h | ⟨hcount, before, rest, rfl⟩) | ⟨hcount, before, rfl⟩)
    · exact ⟨names, none, .fixed h⟩
    · rw [List.count_append, List.count_cons_self] at hcount
      exact hlast before rest (by omega)
    · rw [List.count_append] at hcount
      exact hlast before [38] (by simpa using hcount)

theorem takeWhile_append (h : [38] ∉ before) (after : List Bytes) :
    (before ++ after).takeWhile (· != [38]) = before ++ after.takeWhile (· != [38]) := by
  refine List.takeWhile_append_of_pos fun n hn => ?_
  simpa using ne_of_mem_of_not_mem hn h

theorem splitParams_of_not_mem (h : [38] ∉ names) : splitParams names = .ok (names, none) := by
  have htake : names.takeWhile (· != [38]) = names := by
    simpa using takeWhile_append h []
  simp [splitParams, htake]

theorem splitParams_of_mark (h : [38] ∉ before) (after : List Bytes) :
    splitParams (before ++ [38] :: after) =
      match after with
      | [rest] => .ok (before, if rest.isEmpty then none else some rest)
      | _ => .error .restParameter := by
  have htake : (before ++ [38] :: after).takeWhile (· != [38]) = before := by
    simpa using takeWhile_append h ([38] :: after)
  simp only [splitParams, htake, List.drop_left]
  cases after with
  | nil => rfl
  | cons rest others => cases others <;> rfl

/-- The names before the first `&` are the parameters, if it is the second to last name, and the
last name is that of further arguments. An empty one is as good as none. -/
theorem ParameterList.split {params : List Bytes} {last : Option Bytes}
    (h : ParameterList names params last) :
    splitParams names = .ok (params, last.filter fun rest => !rest.isEmpty) := by
  cases h with
  | fixed h => exact splitParams_of_not_mem h
  | variadic rest h =>
    rw [splitParams_of_mark h [rest]]
    cases rest <;> rfl

theorem splitParams_of_no_list (h : ¬∃ params last, ParameterList names params last) :
    splitParams names = .error .restParameter := by
  have hmark : [38] ∈ names :=
    Decidable.byContradiction fun hnone => h ⟨names, none, .fixed hnone⟩
  obtain ⟨before, after, rfl, hbefore⟩ := List.eq_append_cons_of_mem hmark
  rw [splitParams_of_mark hbefore]
  cases after with
  | nil => rfl
  | cons rest others =>
    cases others with
    | nil => exact absurd ⟨before, some rest, .variadic rest hbefore⟩ h
    | cons => rfl

end

/-! ## Making a function -/

def functionForm (names : List Bytes) (body : List Term) : Term :=
  .list (.sym "function" :: .list (names.map .symbol) :: body)

section

variable {host : Host} {env : Env} {s : State} {names : List Bytes} {body : List Term}

theorem symbols?_map (names : List Bytes) : symbols? (names.map .symbol) = some names := by
  induction names with
  | nil => rfl
  | cons name names ih =>
    rw [symbols?] at ih
    simp [symbols?, ih, Term.symbol?]

/-- A list of names is not taken for the documentation of a function. -/
theorem makeFunction_of_names (ev : Evaluate) :
    makeFunction ev env (.list (names.map .symbol) :: body) =
      makeClosure env [] (.list (names.map .symbol)) body := by
  cases body with
  | nil => rfl
  | cons second body =>
    simp only [makeFunction, docString?, symbols?_map]
    rfl

theorem makeClosure_of_names {names params : List Bytes} {rest : Option Bytes}
    (h : splitParams names = .ok (params, rest)) (doc : Bytes) :
    makeClosure env doc (.list (names.map .symbol)) body s =
      .value (.closure ⟨s.closures, false, doc, env.ns, params, rest, body, env⟩)
        { s with closures := s.closures + 1 } := by
  simp only [makeClosure, paramNames, listedNames, symbols?_map, pure_bind, h]
  rfl

theorem makeClosure_refused {names : List Bytes} {c : Complaint}
    (h : splitParams names = .error c) :
    makeClosure env [] (.list (names.map .symbol)) body s = .failure (.general c) s := by
  simp only [makeClosure, paramNames, listedNames, symbols?_map, pure_bind, h]
  rfl

/-- The form of a function hands back the function made from its parts. -/
theorem evaluates_function (h : macroOf? s env (.sym "function") = none)
    {r : Outcome (Term × Env)} :
    Evaluates host (functionForm names body) env s r ↔
      r ≠ .timeout ∧ Action.handingBack (functionForm names body) env
        (makeClosure env [] (.list (names.map .symbol)) body) s = r := by
  let form := functionForm names body
  refine Iff.trans (evaluates_iff_endsIn fun fuel => ?_) EndsIn.const_iff
  let c : Cursor := ⟨form, env, env, true, some form⟩
  let closure := makeClosure env [] (.list (names.map .symbol)) body
  have hspecial (ev : Evaluate) : c.special host ev fuel .function
      (.list (names.map .symbol) :: body) = closure >>= fun f => c.finish f :=
    congrArg (· >>= fun f => c.finish f) (makeFunction_of_names ev)
  have hfinish (f : Term) (s' : State) :
      finishRun host fuel (Action.inForm form (c.finish f) s') =
        Action.handingBack form env (pure f) s' := rfl
  have hloop := finishRun_bind closure hfinish s
  rw [bind_pure] at hloop
  rw [step_form host _ fuel rfl]
  simp only [Action.inForm, Cursor.start] at hloop ⊢
  rw [stepForm_special host _ fuel _ h (f := .function) (by decide), hspecial]
  exact hloop

/-- A list of parameters makes a function of the names before `&` and the name after it. -/
theorem ParameterList.evaluates {params : List Bytes} {last : Option Bytes}
    (hlist : ParameterList names params last) (h : macroOf? s env (.sym "function") = none)
    {r : Outcome (Term × Env)} :
    Evaluates host (functionForm names body) env s r ↔
      r = .value (.closure ⟨s.closures, false, [], env.ns, params,
        last.filter fun rest => !rest.isEmpty, body, env⟩, env)
        { s with closures := s.closures + 1 } := by
  rw [evaluates_function h, Action.handingBack, Action.inForm, Action.bind_apply,
    makeClosure_of_names hlist.split]
  exact ⟨fun hr => hr.2.symm, fun hr => ⟨by simp [hr], hr.symm⟩⟩

theorem evaluates_refused (hnone : ¬∃ params last, ParameterList names params last)
    (h : macroOf? s env (.sym "function") = none) {r : Outcome (Term × Env)} :
    Evaluates host (functionForm names body) env s r ↔
      r = .failure (.inForm (functionForm names body) (.general .restParameter)) s := by
  rw [evaluates_function h, Action.handingBack, Action.inForm, Action.bind_apply,
    makeClosure_refused (splitParams_of_no_list hnone)]
  exact ⟨fun hr => hr.2.symm, fun hr => ⟨by simp [hr], hr.symm⟩⟩

end

/-- A function form with the names in a list succeeds when there is no `&` among them or a single
one, second to last, but also when the list ends in two. The function takes the names before the
first `&`; it takes further arguments when there is one, unless the name for them is empty. Every
other list is refused before anything has changed. -/
theorem function_parameters (host : Host) {env : Env} {s : State}
    (h : macroOf? s env (.sym "function") = none) (names : List Bytes) (body : List Term) :
    let form := functionForm names body
    ((∃ v env' s', Evaluates host form env s (.value (v, env') s')) ↔
        OneMark names ∨ TwoMarks names) ∧
      (∀ params last, ParameterList names params last → ∀ r, Evaluates host form env s r ↔
        r = .value (.closure ⟨s.closures, false, [], env.ns, params,
          last.filter fun rest => !rest.isEmpty, body, env⟩, env)
          { s with closures := s.closures + 1 }) ∧
      (¬(OneMark names ∨ TwoMarks names) → ∀ r, Evaluates host form env s r ↔
        r = .failure (.inForm form (.general .restParameter)) s) := by
  intro form
  rw [← parameterList_iff_marks]
  refine ⟨⟨?_, ?_⟩, fun params last hlist r => hlist.evaluates h,
    fun hnone r => evaluates_refused hnone h⟩
  · rintro ⟨v, env', s', hvalue⟩
    refine Classical.byContradiction fun hnone => ?_
    cases (evaluates_refused hnone h).mp hvalue
  · rintro ⟨params, last, hlist⟩
    exact ⟨_, _, _, (hlist.evaluates h).mpr rfl⟩

/-- The parameters `(x & others)`: one name, and one for further arguments. -/
theorem pairOfParameters_accepted :
    let names := [Bytes.ofString "x", [38], Bytes.ofString "others"]
    Evaluates Host.bare (functionForm names []) ⟨[], []⟩ State.empty
      (.value (.closure ⟨0, false, [], [], [Bytes.ofString "x"], some (Bytes.ofString "others"),
        [], ⟨[], []⟩⟩, ⟨[], []⟩) { State.empty with closures := 1 }) := by
  intro names
  have hplain : macroOf? State.empty ⟨[], []⟩ (.sym "function") = none := rfl
  have hx : [38] ∉ [Bytes.ofString "x"] := by decide
  have hlist : ParameterList names [Bytes.ofString "x"] (some (Bytes.ofString "others")) :=
    .variadic _ hx
  exact ((function_parameters Host.bare hplain names []).2.1 _ _ hlist _).mpr rfl

def doubledMark : List Bytes := [Bytes.ofString "a", [38], [38]]

/-- There is one `&` too many in the list, and yet the function is made. -/
theorem doubledMark_accepted :
    ¬((∃ v env s, Evaluates Host.bare (functionForm doubledMark [.sym "a"]) ⟨[], []⟩ State.empty
      (.value (v, env) s)) ↔ OneMark doubledMark) := by
  intro h
  rcases h.mp ⟨_, _, _, nofun, 1, rfl⟩ with hnone | ⟨hcount, -⟩
  · exact hnone (by decide)
  · exact absurd hcount (by decide)

end SmallLisp
