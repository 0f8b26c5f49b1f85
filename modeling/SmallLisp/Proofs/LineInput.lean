import SmallLisp.Proofs.Completion
import SmallLisp.Shell

/-! Input line by line. Lines are gathered until they can be read as a text, so where an input ends
is decided by reading what has been typed again after each line. A program that can be read as a
whole, and in which no string goes on over the end of a line, is cut into inputs that can be read
each on its own: no line is lost, and their terms are those of the program
(`inputs_agree_with_parse`). The interactive loop takes its inputs in this way
(`Shell.loop_takes_input`). -/
namespace SmallLisp

/-! ## Lines -/

theorem join_cons (l : Bytes) {ls : List Bytes} (h : ls ≠ []) :
    Bytes.join [10] (l :: ls) = l ++ 10 :: Bytes.join [10] ls := by
  cases ls with
  | nil => exact absurd rfl h
  | cons m ls => simp [Bytes.join]

theorem join_append {ls ms : List Bytes} (hl : ls ≠ []) (hm : ms ≠ []) :
    Bytes.join [10] (ls ++ ms) = Bytes.join [10] ls ++ 10 :: Bytes.join [10] ms := by
  induction ls with
  | nil => exact absurd rfl hl
  | cons l ls ih =>
    cases ls with
    | nil => exact join_cons l hm
    | cons k ls =>
      have hk : k :: ls ≠ [] := List.cons_ne_nil k ls
      rw [List.cons_append, join_cons l (by simp), join_cons l hk, ih hk]
      simp

theorem join_flatten {groups : List (List Bytes)} (h : ∀ g ∈ groups, g ≠ []) :
    Bytes.join [10] (groups.map (Bytes.join [10])) = Bytes.join [10] groups.flatten := by
  induction groups with
  | nil => rfl
  | cons g groups ih =>
    have hg := h g List.mem_cons_self
    have hgroups : ∀ g ∈ groups, g ≠ [] := fun g hg => h g (List.mem_cons_of_mem _ hg)
    cases groups with
    | nil => simp [Bytes.join]
    | cons k groups =>
      have hflat : (k :: groups).flatten ≠ [] := by
        have hk := hgroups k List.mem_cons_self
        simp [hk]
      rw [List.map_cons, join_cons _ (by simp), ih hgroups, List.flatten_cons (l := g),
        join_append hg hflat]

/-! ## The second of two texts -/

theorem tokenize_second {a b : Bytes} {as cs : List Token} (ha : tokenize a = .ok as)
    (h : tokenize (a ++ 10 :: b) = .ok cs) :
    ∃ bs, tokenize b = .ok bs ∧ cs = as ++ bs.map (Token.down (a.count 10 + 1)) := by
  rw [tokenize_newline_of_ok ha] at h
  cases hb : tokenize b with
  | error e => rw [hb] at h; cases h
  | ok bs =>
    rw [hb] at h
    exact ⟨bs, rfl, (Except.ok.inj h).symm⟩

/-- If a text and its continuation can be read then so can what was added. -/
theorem parse_second {a b : Bytes} {xs ts : List Term} (ha : parse a = .ok xs)
    (h : parse (a ++ 10 :: b) = .ok ts) : ∃ ys, parse b = .ok ys ∧ ts = xs ++ ys := by
  obtain ⟨as, hta, hra⟩ := leaves_of_parse ha
  obtain ⟨cs, htc, hrc⟩ := leaves_of_parse h
  obtain ⟨bs, htb, rfl⟩ := tokenize_second hta htc
  -- after the first text nothing is open, so the second is read as from the start
  have hstart : Reader.mk [] xs.reverse = Reader.start.below xs.reverse := rfl
  rw [foldlM_append_of_ok hra, hstart, Reader.feeds_below] at hrc
  cases hr : bs.foldlM Reader.feed Reader.start with
  | error f => rw [hr] at hrc; cases hrc
  | ok r =>
    obtain ⟨stack, terms⟩ := r
    rw [hr] at hrc
    have hbelow : Reader.mk stack (terms ++ xs.reverse) = ⟨[], ts.reverse⟩ := Except.ok.inj hrc
    obtain ⟨rfl, hterms⟩ := Reader.mk.inj hbelow
    refine ⟨terms.reverse, ?_, ?_⟩
    · exact Leaves.parse_eq ⟨bs, htb, hr⟩
    · have hrev := congrArg List.reverse hterms
      simpa using hrev.symm

/-! ## One input -/

namespace Repl

theorem ne_nil_of_isIncomplete {src : Bytes} (h : isIncomplete src = true) : src ≠ [] := by
  rintro rfl
  exact absurd h (by decide)

theorem isIncomplete_iff {src : Bytes} :
    isIncomplete src = true ↔ parse src = .error .incomplete := by
  unfold isIncomplete
  split
  · simp [*]
  · next h => simpa using h

/-- What is pending is a line before the next one. -/
theorem join_gather {pending : Bytes} (h : pending ≠ []) (line : Bytes) (lines : List Bytes) :
    Bytes.join [10] (gather pending line :: lines) =
      Bytes.join [10] (pending :: line :: lines) := by
  cases lines with
  | nil => simp [gather, Bytes.join, h]
  | cons next lines => simp [gather, Bytes.join, h]

/-- An input that was begun before consists of what was pending and some lines, and waits for no
more of them. -/
theorem readInput_pending {pending src : Bytes} {lines rest : List Bytes} (hp : pending ≠ [])
    (h : readInput pending lines = some (src, rest)) :
    ∃ used, lines = used ++ rest ∧ src = Bytes.join [10] (pending :: used) ∧
      isIncomplete src = false := by
  induction lines generalizing pending with
  | nil => cases h
  | cons line lines ih =>
    have hjoin := join_gather hp line
    cases hi : isIncomplete (gather pending line) with
    | false =>
      simp only [readInput, addLine, hi] at h
      cases h
      exact ⟨[line], rfl, hjoin [], hi⟩
    | true =>
      simp only [readInput, addLine, hi] at h
      obtain ⟨used, rfl, rfl, hdone⟩ := ih (ne_nil_of_isIncomplete hi) h
      exact ⟨line :: used, rfl, hjoin used, hdone⟩

/-- An input consists of lines, at least one, and waits for no more of them. -/
theorem readInput_some {src : Bytes} {lines rest : List Bytes}
    (h : readInput [] lines = some (src, rest)) :
    ∃ used, lines = used ++ rest ∧ used ≠ [] ∧ src = Bytes.join [10] used ∧
      isIncomplete src = false := by
  cases lines with
  | nil => cases h
  | cons line lines =>
    have hgather : gather [] line = line := rfl
    cases hi : isIncomplete line with
    | false =>
      simp only [readInput, addLine, hgather, hi] at h
      cases h
      exact ⟨[src], rfl, by simp, rfl, hi⟩
    | true =>
      simp only [readInput, addLine, hgather, hi] at h
      obtain ⟨used, rfl, hsrc, hdone⟩ := readInput_pending (ne_nil_of_isIncomplete hi) h
      exact ⟨line :: used, rfl, by simp, hsrc, hdone⟩

/-- If the lines end inside an input then they are incomplete as a text. -/
theorem readInput_none {pending : Bytes} {lines : List Bytes} (hp : isIncomplete pending = true)
    (h : readInput pending lines = none) :
    isIncomplete (Bytes.join [10] (pending :: lines)) = true := by
  induction lines generalizing pending with
  | nil => exact hp
  | cons line lines ih =>
    cases hi : isIncomplete (gather pending line) with
    | false => simp [readInput, addLine, hi] at h
    | true =>
      simp only [readInput, addLine, hi] at h
      have hrest := ih hi h
      rwa [join_gather (ne_nil_of_isIncomplete hp)] at hrest

theorem readInput_ne_none {lines : List Bytes} (hne : lines ≠ [])
    (h : isIncomplete (Bytes.join [10] lines) = false) : readInput [] lines ≠ none := by
  intro hnone
  cases lines with
  | nil => exact hne rfl
  | cons line lines =>
    have hgather : gather [] line = line := rfl
    cases hi : isIncomplete line with
    | false => simp [readInput, addLine, hgather, hi] at hnone
    | true =>
      simp only [readInput, addLine, hgather, hi] at hnone
      rw [readInput_none hi hnone] at h
      cases h

/-! ## All inputs -/

theorem readInput_shorter {src : Bytes} {lines rest : List Bytes}
    (h : readInput [] lines = some (src, rest)) : rest.length < lines.length := by
  obtain ⟨used, rfl, hused, -⟩ := readInput_some h
  have hpos := List.length_pos_iff.mpr hused
  rw [List.length_append]
  omega

/-- The inputs that are read one after the other, and the lines in which no further one ends. -/
def inputs (lines : List Bytes) : List Bytes × List Bytes :=
  match _h : readInput [] lines with
  | none => ([], lines)
  | some (src, rest) =>
    let (srcs, left) := inputs rest
    (src :: srcs, left)
termination_by lines.length
decreasing_by exact readInput_shorter _h

theorem inputs_nil : inputs [] = ([], []) := by
  rw [inputs]
  rfl

theorem inputs_cons {src : Bytes} {lines rest : List Bytes}
    (h : readInput [] lines = some (src, rest)) :
    inputs lines = (src :: (inputs rest).1, (inputs rest).2) := by
  rw [inputs]
  split
  · next hnone => rw [h] at hnone; cases hnone
  · next hsome => rw [h] at hsome; cases hsome; rfl

/-- Every beginning of the lines consists of whole tokens: no string goes on over the end of a
line. -/
def Lexical (lines : List Bytes) : Prop :=
  ∀ k, ∃ tokens, tokenize (Bytes.join [10] (lines.take k)) = .ok tokens

theorem Lexical.first {used rest : List Bytes} (h : Lexical (used ++ rest)) :
    ∃ tokens, tokenize (Bytes.join [10] used) = .ok tokens := by
  obtain ⟨tokens, htokens⟩ := h used.length
  rw [List.take_left] at htokens
  exact ⟨tokens, htokens⟩

theorem Lexical.second {used rest : List Bytes} (h : Lexical (used ++ rest)) (hused : used ≠ []) :
    Lexical rest := by
  intro k
  obtain ⟨as, has⟩ := h.first
  obtain ⟨cs, hcs⟩ := h (used.length + k)
  rw [List.take_append, List.take_of_length_le (by omega), Nat.add_sub_cancel_left] at hcs
  cases hk : rest.take k with
  | nil => exact ⟨[], rfl⟩
  | cons l ls =>
    rw [hk, join_append hused (by simp)] at hcs
    obtain ⟨bs, hbs, -⟩ := tokenize_second has hcs
    exact ⟨bs, hbs⟩

/-- Lines that can be read begin with an input that can be read, and then so can those after it. -/
theorem readInput_of_parse {lines : List Bytes} {ts : List Term} (hne : lines ≠ [])
    (hlex : Lexical lines) (h : parse (Bytes.join [10] lines) = .ok ts) :
    ∃ used rest xs ys, lines = used ++ rest ∧ used ≠ [] ∧ Lexical rest ∧
      readInput [] lines = some (Bytes.join [10] used, rest) ∧
      parse (Bytes.join [10] used) = .ok xs ∧ parse (Bytes.join [10] rest) = .ok ys ∧
      ts = xs ++ ys := by
  have hdone : isIncomplete (Bytes.join [10] lines) = false := by simp [isIncomplete, h]
  obtain ⟨⟨src, rest⟩, hread⟩ := Option.ne_none_iff_exists'.mp (readInput_ne_none hne hdone)
  obtain ⟨used, rfl, hused, rfl, hfull⟩ := readInput_some hread
  cases rest with
  | nil =>
    rw [List.append_nil] at h hlex hread ⊢
    exact ⟨used, [], ts, [], by simp, hused, fun k => ⟨[], by simp; rfl⟩, hread, h, rfl, by simp⟩
  | cons l ls =>
    rw [join_append hused (by simp)] at h
    -- the input is no malformed one, or the whole would be malformed as well
    obtain ⟨xs, hxs⟩ : ∃ xs, parse (Bytes.join [10] used) = .ok xs := by
      obtain ⟨tokens, htokens⟩ := hlex.first
      have hno : ∀ e, tokenize (Bytes.join [10] used) = .error e →
          e.fault ≠ .unterminatedString := by
        intro e he
        rw [htokens] at he
        cases he
      cases hp : parse (Bytes.join [10] used) with
      | ok xs => exact ⟨xs, rfl⟩
      | error e =>
        cases e with
        | incomplete => rw [isIncomplete_iff.mpr hp] at hfull; cases hfull
        | malformed e =>
          obtain ⟨e', he'⟩ := malformed_newline hp hno (Bytes.join [10] (l :: ls))
          rw [h] at he'
          cases he'
    obtain ⟨ys, hys, rfl⟩ := parse_second hxs h
    exact ⟨used, l :: ls, xs, ys, rfl, hused, hlex.second hused, hread, hxs, hys, rfl⟩

/-- The inputs are the lines in groups, and are read to the terms of the whole. -/
theorem inputs_groups {lines : List Bytes} {ts : List Term} (hlex : Lexical lines)
    (h : parse (Bytes.join [10] lines) = .ok ts) :
    ∃ (groups : List (List Bytes)) (terms : List (List Term)),
      groups.flatten = lines ∧ (∀ g ∈ groups, g ≠ []) ∧
      inputs lines = (groups.map (Bytes.join [10]), []) ∧
      (groups.map (Bytes.join [10])).map parse = terms.map .ok ∧ terms.flatten = ts := by
  generalize hn : lines.length = n
  induction n using Nat.strongRecOn generalizing lines ts with
  | ind n ih =>
    by_cases hne : lines = []
    · subst hne
      obtain rfl : [] = ts := Except.ok.inj h
      exact ⟨[], [], rfl, by simp, inputs_nil, rfl, rfl⟩
    · obtain ⟨used, rest, xs, ys, rfl, hused, hrest, hread, hxs, hys, rfl⟩ :=
        readInput_of_parse hne hlex h
      have hlt : rest.length < n := hn ▸ readInput_shorter hread
      obtain ⟨groups, terms, rfl, hgroups, hinputs, hparse, rfl⟩ := ih _ hlt hrest hys rfl
      refine ⟨used :: groups, xs :: terms, rfl, ?_, ?_, ?_, rfl⟩
      · intro g hg
        rcases List.mem_cons.mp hg with rfl | hg
        · exact hused
        · exact hgroups g hg
      · rw [inputs_cons hread, hinputs]
        rfl
      · rw [List.map_cons, List.map_cons, hxs, hparse]
        rfl

/-- Lines that can be read as a whole, without a string that goes on over the end of a line, are
read as inputs none of which is left unfinished: joined they are the whole text, each of them can be
read, and their terms in order are those of the whole. -/
theorem inputs_agree_with_parse {lines : List Bytes} {ts : List Term}
    (hlex : ∀ k, ∃ tokens, tokenize (Bytes.join [10] (lines.take k)) = .ok tokens)
    (h : parse (Bytes.join [10] lines) = .ok ts) :
    ∃ (srcs : List Bytes) (terms : List (List Term)), inputs lines = (srcs, []) ∧
      Bytes.join [10] srcs = Bytes.join [10] lines ∧
      srcs.map parse = terms.map .ok ∧ terms.flatten = ts := by
  obtain ⟨groups, terms, rfl, hgroups, hinputs, hparse, hterms⟩ := inputs_groups hlex h
  exact ⟨groups.map (Bytes.join [10]), terms, hinputs, join_flatten hgroups, hparse, hterms⟩

/-- An empty line, and a form over several lines, with a comment and another empty line in it, that
ends where a second form follows. -/
def typedLines : List Bytes :=
  ["", "(f ; (", "", "'", "x) y"].map Bytes.ofString

theorem typedLines_lexical (k : Nat) :
    ∃ tokens, tokenize (Bytes.join [10] (typedLines.take k)) = .ok tokens := by
  match k with
  | 0 | 1 | 2 | 3 | 4 => exact ⟨_, rfl⟩
  | k + 5 =>
    rw [List.take_of_length_le (by simp [typedLines])]
    exact ⟨_, rfl⟩

theorem typedLines_inputs :
    ∃ (srcs : List Bytes) (terms : List (List Term)), inputs typedLines = (srcs, []) ∧
      Bytes.join [10] srcs = Bytes.ofString "\n(f ; (\n\n'\nx) y" ∧
      srcs.map parse = terms.map .ok ∧
      terms.flatten = [.list [.sym "f", .list [.sym "quote", .sym "x"]], .sym "y"] :=
  inputs_agree_with_parse typedLines_lexical rfl

end Repl

/-! ## The interactive loop -/

namespace Shell

theorem print_pending (prompts : List Bytes) (sh : Shell) (pending : Bytes) :
    prompts.foldl print { sh with pending := pending } =
      { prompts.foldl print sh with pending := pending } := by
  induction prompts generalizing sh with
  | nil => rfl
  | cons p prompts ih => exact ih (sh.print p)

theorem ask_eq {sh : Shell} (hp : Repl.isPrompt sh.config.prompt = true)
    (hc : Repl.isPrompt sh.config.continuation = true) : sh.ask = some (sh.print sh.prompt) := by
  have hprompt : Repl.isPrompt sh.prompt = true := by
    unfold prompt
    split
    · exact hp
    · exact hc
  simp [ask, hprompt]

/-- The loop writes prompts until the next input is read, and takes it; or it ends because the lines
do. -/
theorem loop_takes_input (disk : Disk) (lines : List Bytes) {sh : Shell}
    (hp : Repl.isPrompt sh.config.prompt = true)
    (hc : Repl.isPrompt sh.config.continuation = true) :
    ∃ prompts : List Bytes,
      match Repl.readInput sh.pending lines with
      | some (src, rest) =>
        loop disk lines sh =
          match onInput disk src { prompts.foldl print sh with pending := [] } with
          | (.more, sh) => loop disk rest sh
          | r => r
      | none =>
        ∃ pending, loop disk lines sh =
          { prompts.foldl print sh with pending := pending }.onEnd := by
  induction lines generalizing sh with
  | nil =>
    refine ⟨[sh.prompt], sh.pending, ?_⟩
    rw [loop.eq_2 _ _ _ (ask_eq hp hc)]
    rfl
  | cons line lines ih =>
    have hpending : (sh.print sh.prompt).pending = sh.pending := rfl
    rw [loop.eq_3 _ _ _ _ _ (ask_eq hp hc), Repl.readInput, onLine, hpending]
    cases Repl.addLine sh.pending line with
    | complete src => exact ⟨[sh.prompt], rfl⟩
    | waiting src =>
      -- the shell goes on as before, after one more prompt and with the line pending
      obtain ⟨prompts, h⟩ := @ih { sh.print sh.prompt with pending := src } hp hc
      simp only [print_pending] at h
      exact ⟨sh.prompt :: prompts, h⟩

end Shell

end SmallLisp
