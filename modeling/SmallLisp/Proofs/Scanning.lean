import SmallLisp.Proofs.Decoding
import SmallLisp.Token.Scanner

/-! What holds along every run of the scanner. One character takes it to the next place, and a flaw
is where it stands or at a place it remembers (`step_passes`); so a flaw is at a character of the
text other than a blank (`scan_shows`). It reads no empty symbol (`tokenize_symbol_ne_nil`). -/
namespace SmallLisp

/-! ## Folds that can fail -/

section

variable {ε α σ : Type} {f : σ → α → Except ε σ} {s s' : σ}

theorem foldlM_cons_of_ok {a : α} (h : f s a = .ok s') (as : List α) :
    (a :: as).foldlM f s = as.foldlM f s' := by
  rw [List.foldlM_cons, h]
  rfl

theorem foldlM_append_of_ok {as : List α} (h : as.foldlM f s = .ok s') (bs : List α) :
    (as ++ bs).foldlM f s = bs.foldlM f s' := by
  rw [List.foldlM_append, h]
  rfl

theorem foldlM_cons_ok {a : α} {as : List α} (h : (a :: as).foldlM f s = .ok s') :
    ∃ s₁, f s a = .ok s₁ ∧ as.foldlM f s₁ = .ok s' := by
  rw [List.foldlM_cons] at h
  cases ha : f s a with
  | error e => rw [ha] at h; cases h
  | ok s₁ => rw [ha] at h; exact ⟨s₁, rfl, h⟩

end

/-! ## Scanning a text -/

theorem scan_eq_ok {gs : List Glyph} {ts : List Token} (h : scan gs = .ok ts) :
    ∃ s, gs.foldlM Scanner.step Scanner.start = .ok s ∧ s.finish = .ok ts := by
  unfold scan at h
  cases hs : gs.foldlM Scanner.step Scanner.start with
  | error f => rw [hs] at h; cases h
  | ok s => rw [hs] at h; exact ⟨s, rfl, h⟩

theorem tokenize_eq_ok {src : Bytes} {ts : List Token} (h : tokenize src = .ok ts) :
    scan (Glyph.ofBytes src) = .ok ts := by
  unfold tokenize at h
  cases hs : scan (Glyph.ofBytes src) with
  | error f => rw [hs] at h; cases h
  | ok us => rw [hs] at h; exact congrArg Except.ok (Except.ok.inj h)

theorem tokenize_eq_error {src : Bytes} {e : SyntaxError} (h : tokenize src = .error e) :
    ∃ f, scan (Glyph.ofBytes src) = .error f ∧ f.locate src = e := by
  unfold tokenize at h
  cases hs : scan (Glyph.ofBytes src) with
  | error f => rw [hs] at h; exact ⟨f, rfl, Except.error.inj h⟩
  | ok us => rw [hs] at h; cases h

/-! ## Places -/

def newlines (gs : List Glyph) : Nat := gs.countP fun g => g.char == '\n'

namespace Position

def after (p : Position) (gs : List Glyph) : Position := gs.foldl (fun p g => p.next g.char) p

theorem after_append (p : Position) (gs hs : List Glyph) :
    p.after (gs ++ hs) = (p.after gs).after hs :=
  List.foldl_append

theorem line_next (p : Position) (g : Glyph) (gs : List Glyph) :
    (p.next g.char).line + newlines gs = p.line + newlines (g :: gs) := by
  unfold newlines next
  cases hg : g.char == '\n' with
  | true => simp [hg]; omega
  | false => simp [hg]

theorem after_line (p : Position) (gs : List Glyph) :
    (p.after gs).line = p.line + newlines gs := by
  induction gs generalizing p with
  | nil => rfl
  | cons g gs ih => exact (ih (p.next g.char)).trans (p.line_next g gs)

end Position

namespace Place

def after (p : Place) (gs : List Glyph) : Place := gs.foldl next p

theorem after_append (p : Place) (gs hs : List Glyph) : p.after (gs ++ hs) = (p.after gs).after hs :=
  List.foldl_append

theorem after_pos (p : Place) (gs : List Glyph) : (p.after gs).pos = p.pos.after gs := by
  induction gs generalizing p with
  | nil => rfl
  | cons g gs ih => exact ih (p.next g)

/-- The place is that of a character of the text, and this is no blank. -/
def IsShown (gs : List Glyph) (p : Place) : Prop :=
  ∃ (before rest : List Glyph) (g : Glyph), gs = before ++ g :: rest ∧
    p = start.after before ∧ CharClass.isSpace g.char = false

end Place

def Mode.places : Mode → List Place
  | .blank | .comment => []
  | .run start _ | .string start _ => [start]
  | .escape start _ esc | .hexHigh start _ esc | .hexLow start _ esc _ => [start, esc]

namespace Scanner

/-- The places worth remembering at a character: its own if it is no blank, and those from
before. -/
def marks (s : Scanner) (c : Char) : List Place :=
  (if CharClass.isSpace c then [] else [s.here]) ++ s.mode.places

theorem marks_mono {s t : Scanner} (hhere : s.here = t.here) (hsub : s.mode.places ⊆ t.mode.places)
    (c : Char) : s.marks c ⊆ t.marks c := by
  unfold marks
  rw [hhere]
  exact List.append_subset.mpr
    ⟨List.subset_append_left _ _, List.subset_append_of_subset_right _ hsub⟩

/-- What one character leads to: the next place, or a flaw, which is here or at a place that was
remembered. -/
def Passes (s : Scanner) (g : Glyph) : Except LexicalFlaw Scanner → Prop
  | .ok s' => s'.here = s.here.next g ∧ s'.mode.places ⊆ s.marks g.char
  | .error f => f.place ∈ s.marks g.char

theorem Passes.mono {s t : Scanner} {g : Glyph} {r : Except LexicalFlaw Scanner} (h : s.Passes g r)
    (hhere : s.here = t.here) (hsub : s.mode.places ⊆ t.mode.places) : t.Passes g r := by
  have hmarks := marks_mono hhere hsub g.char
  cases r with
  | ok s' => exact ⟨hhere ▸ h.1, List.Subset.trans h.2 hmarks⟩
  | error f => exact hmarks h

theorem stepBlank_passes (s : Scanner) (g : Glyph) : s.Passes g (s.stepBlank g) := by
  unfold stepBlank
  dsimp only
  repeat' split
  all_goals simp_all [Passes, marks, move, emit, Mode.places]

theorem endRun_passes {s : Scanner} {start : Place} {g : Glyph} (h : start ∈ s.mode.places)
    (seen : List Glyph) :
    s.Passes g ((s.endRun start seen).bind fun s => s.stepBlank g) := by
  unfold endRun
  split
  case h_1 l hl =>
    -- A flaw after the run is where the scanner stands; a new lexeme starts there.
    exact (stepBlank_passes { s.emit l start with mode := .blank } g).mono rfl (List.nil_subset _)
  case h_2 f hl => exact List.mem_append_right _ h

theorem step_passes (s : Scanner) (g : Glyph) : s.Passes g (s.step g) := by
  obtain ⟨mode, here, tokens⟩ := s
  cases mode with
  | blank => exact stepBlank_passes _ g
  | comment => exact ⟨rfl, by simp only [move]; split <;> simp [Mode.places]⟩
  | run start seen =>
    simp only [step]
    split
    · simp [Passes, move, Mode.places, marks]
    · exact endRun_passes (List.mem_singleton_self start) seen
  | string start seen =>
    simp only [step]
    split
    · exact ⟨rfl, List.nil_subset _⟩
    split
    · next hb =>
      have hvisible : CharClass.isSpace g.char = false := by
        rw [eq_of_beq hb]
        rfl
      simp [Passes, move, Mode.places, marks, hvisible]
    · simp [Passes, move, Mode.places, marks]
  | escape start seen esc =>
    simp only [step, stepEscape]
    repeat' split
    all_goals simp [Passes, move, Mode.places, marks]
  | hexHigh start seen esc =>
    simp only [step]
    split <;> simp [Passes, move, Mode.places, marks]
  | hexLow start seen esc high =>
    simp only [step]
    split <;> simp [Passes, move, Mode.places, marks]

/-- A flaw at the end of the text is at a remembered place. -/
theorem finish_error_mem {s : Scanner} {f : LexicalFlaw} (h : s.finish = .error f) :
    f.place ∈ s.mode.places := by
  obtain ⟨mode, here, tokens⟩ := s
  cases mode with
  | blank | comment => simp [Scanner.finish] at h
  | run start seen =>
    simp only [Scanner.finish, endRun] at h
    split at h
    · cases h
    · obtain rfl := Except.error.inj h
      exact List.mem_singleton_self start
  | string | escape | hexHigh | hexLow =>
    obtain rfl := Except.error.inj h
    simp [Mode.places]

/-- The scanner has read `before` of the text `gs`, and all it remembers are places of characters
other than blanks. -/
structure Reads (gs before : List Glyph) (s : Scanner) : Prop where
  here : s.here = Place.start.after before
  places : ∀ p ∈ s.mode.places, p.IsShown gs

theorem Reads.marks {gs before rest : List Glyph} {g : Glyph} {s : Scanner}
    (h : s.Reads gs before) (hgs : gs = before ++ g :: rest) :
    ∀ p ∈ s.marks g.char, p.IsShown gs := by
  intro p hp
  rcases List.mem_append.mp hp with hp | hp
  · cases hg : CharClass.isSpace g.char with
    | true => simp [hg] at hp
    | false =>
      obtain rfl : p = s.here := by simpa [hg] using hp
      exact ⟨before, rest, g, hgs, h.here, hg⟩
  · exact h.places p hp

theorem Reads.steps {gs before rest : List Glyph} {s : Scanner} (h : s.Reads gs before)
    (hgs : gs = before ++ rest) :
    match rest.foldlM Scanner.step s with
    | .ok s' => s'.Reads gs gs
    | .error f => f.place.IsShown gs := by
  induction rest generalizing before s with
  | nil =>
    rw [List.append_nil] at hgs
    exact hgs ▸ h
  | cons g rest ih =>
    have hp := step_passes s g
    rw [List.foldlM_cons]
    cases hs : s.step g with
    | error f =>
      rw [hs] at hp
      exact h.marks hgs _ hp
    | ok s' =>
      rw [hs] at hp
      have hreads : s'.Reads gs (before ++ [g]) := by
        refine ⟨?_, fun p hp' => h.marks hgs p (hp.2 hp')⟩
        rw [hp.1, h.here, Place.after_append]
        rfl
      exact ih hreads (by rw [hgs, List.append_assoc]; rfl)

theorem start_reads (gs : List Glyph) : start.Reads gs [] := ⟨rfl, List.forall_mem_nil _⟩

end Scanner

theorem scan_shows {gs : List Glyph} {f : LexicalFlaw} (h : scan gs = .error f) :
    f.place.IsShown gs := by
  have hsteps := (Scanner.start_reads gs).steps (List.nil_append gs).symm
  unfold scan at h
  cases hs : gs.foldlM Scanner.step Scanner.start with
  | error f' =>
    rw [hs] at h hsteps
    obtain rfl : f' = f := Except.error.inj h
    exact hsteps
  | ok s =>
    rw [hs] at h hsteps
    exact hsteps.places _ (Scanner.finish_error_mem h)

/-! ## Newlines -/

/-- A newline character is the newline byte, and no other character has that byte. -/
def Glyph.NewlineExact (g : Glyph) : Prop :=
  g.char = '\n' ∧ g.raw = [10] ∨ g.char ≠ '\n' ∧ (10 : UInt8) ∉ g.raw

theorem newlineExact_ofBytes (s : Bytes) : ∀ g ∈ Glyph.ofBytes s, g.NewlineExact := by
  have hother {c : Char} {raw : Bytes} (hchar : c.toNat ≠ 10) (hraw : (10 : UInt8) ∉ raw) :
      Glyph.NewlineExact ⟨c, raw⟩ := .inr ⟨fun h => hchar (congrArg Char.toNat h), hraw⟩
  induction s using Glyph.byGlyphs with
  | nil => exact List.forall_mem_nil _
  | ascii b s hb ih =>
    rw [Glyph.ofBytes_ascii hb]
    refine List.forall_mem_cons.mpr ⟨?_, ih⟩
    by_cases h10 : b = 10
    · subst h10
      exact .inl ⟨rfl, rfl⟩
    · have hchar : (Glyph.ascii b).char.toNat ≠ 10 := by
        rw [Glyph.toNat_ascii hb]
        exact fun h => h10 (UInt8.toNat_inj.mp h)
      exact hother hchar (by simpa using Ne.symm h10)
  | invalid b s hb hd ih =>
    have h10 : (10 : UInt8) ≠ b := by rintro rfl; exact absurd hb (by decide)
    have hr : Glyph.replacement.toNat ≠ 10 := by decide
    rw [Glyph.ofBytes_invalid hd]
    exact List.forall_mem_cons.mpr ⟨hother hr (by simpa using h10), ih⟩
  | encoded b more c s h ih =>
    have hchar : c.toNat ≠ 10 := by have := h.high; omega
    have hraw : (10 : UInt8) ∉ b :: more := fun hm => absurd (h.bytes_high 10 hm) (by decide)
    rw [h.ofBytes]
    exact List.forall_mem_cons.mpr ⟨hother hchar hraw, ih⟩

theorem newlines_eq_count {gs : List Glyph} (h : ∀ g ∈ gs, g.NewlineExact) :
    newlines gs = (Glyph.toBytes gs).count 10 := by
  induction gs with
  | nil => rfl
  | cons g gs ih =>
    obtain ⟨hg, hgs⟩ := List.forall_mem_cons.mp h
    have hbytes : Glyph.toBytes (g :: gs) = g.raw ++ Glyph.toBytes gs := List.flatMap_cons
    rw [newlines, List.countP_cons, ← newlines, ih hgs, hbytes, List.count_append, Nat.add_comm]
    rcases hg with ⟨hchar, hraw⟩ | ⟨hchar, hraw⟩
    · simp [hchar, hraw]
    · simp [hchar, List.count_eq_zero.mpr hraw]

theorem newlines_ofBytes (s : Bytes) : newlines (Glyph.ofBytes s) = s.count 10 := by
  rw [newlines_eq_count (newlineExact_ofBytes s), Glyph.toBytes_ofBytes]

/-! ## The symbols of a text are not empty -/

namespace Scanner

/-- No symbol is empty, neither those found nor the one that is being read. -/
def Named (s : Scanner) : Prop :=
  (∀ t ∈ s.tokens, t.lexeme ≠ .symbol []) ∧
    ∀ start seen, s.mode = .run start seen → Glyph.toBytes seen ≠ []

/-- The scanner, if there is one, has read no empty symbol. -/
def KeepsNamed : Except LexicalFlaw Scanner → Prop
  | .ok s => s.Named
  | .error _ => True

theorem toBytes_cons_ne_nil {g : Glyph} (hg : g.raw ≠ []) (gs : List Glyph) :
    Glyph.toBytes (g :: gs) ≠ [] := by
  intro h
  exact hg (List.append_eq_nil_iff.mp h).1

theorem toBytes_reverse_ne_nil {gs : List Glyph} (h : Glyph.toBytes gs ≠ []) :
    Glyph.toBytes gs.reverse ≠ [] := by
  simpa [Glyph.toBytes] using h

theorem stepBlank_named {s : Scanner} (h : s.Named) {g : Glyph} (hg : g.raw ≠ []) :
    KeepsNamed (s.stepBlank g) := by
  have hrun := toBytes_cons_ne_nil hg []
  unfold stepBlank
  dsimp only
  repeat' split
  all_goals simp [KeepsNamed, Named, move, emit, hrun]
  all_goals exact h.1

theorem ofRun_ne_symbol_nil {gs : List Glyph} (h : Glyph.toBytes gs ≠ []) {l : Lexeme}
    (hl : Lexeme.ofRun gs = .ok l) : l ≠ .symbol [] := by
  rintro rfl
  simp only [Lexeme.ofRun] at hl
  repeat' split at hl
  · cases hl
  · cases hl
  · injection hl with hl
    injection hl with hl
    exact h hl

theorem endRun_named {s : Scanner} (h : s.Named) (start : Place) {seen : List Glyph}
    (hseen : Glyph.toBytes seen ≠ []) : KeepsNamed (s.endRun start seen) := by
  unfold endRun
  split
  case h_1 l hl =>
    refine ⟨fun t ht => ?_, by simp⟩
    rcases List.mem_cons.mp ht with rfl | ht
    · exact ofRun_ne_symbol_nil (toBytes_reverse_ne_nil hseen) hl
    · exact h.1 t ht
  case h_2 => trivial

theorem step_named {s : Scanner} (h : s.Named) {g : Glyph} (hg : g.raw ≠ []) :
    KeepsNamed (s.step g) := by
  obtain ⟨mode, here, tokens⟩ := s
  cases mode with
  | blank => exact stepBlank_named h hg
  | comment =>
    refine ⟨h.1, fun start seen hm => ?_⟩
    simp only [move] at hm
    split at hm <;> cases hm
  | run start seen =>
    simp only [step]
    split
    · have hrun := toBytes_cons_ne_nil hg seen
      exact ⟨h.1, by rintro _ _ ⟨⟩; exact hrun⟩
    · have hend := endRun_named h start (h.2 start seen rfl)
      cases he : endRun ⟨.run start seen, here, tokens⟩ start seen with
      | error f => trivial
      | ok s' =>
        rw [he] at hend
        exact stepBlank_named hend hg
  | string | escape | hexHigh | hexLow =>
    simp only [step, stepEscape]
    repeat' split
    all_goals simp [KeepsNamed, Named, move, emit]
    all_goals exact h.1

theorem steps_named {s s' : Scanner} {gs : List Glyph} (h : s.Named)
    (hgs : ∀ g ∈ gs, g.raw ≠ []) (hs : gs.foldlM step s = .ok s') : s'.Named := by
  induction gs generalizing s with
  | nil =>
    obtain rfl := Except.ok.inj hs
    exact h
  | cons g gs ih =>
    obtain ⟨s₁, hg, hs⟩ := foldlM_cons_ok hs
    have hstep := step_named h (hgs g List.mem_cons_self)
    rw [hg] at hstep
    exact ih hstep (fun g hg => hgs g (List.mem_cons_of_mem _ hg)) hs

theorem finish_named {s : Scanner} {ts : List Token} (h : s.Named) (hs : s.finish = .ok ts) :
    ∀ t ∈ ts, t.lexeme ≠ .symbol [] := by
  unfold finish at hs
  split at hs
  case h_1 | h_2 =>
    obtain rfl := Except.ok.inj hs
    simpa using h.1
  case h_3 start seen hm =>
    have hend := endRun_named h start (h.2 start seen hm)
    cases he : s.endRun start seen with
    | error f => rw [he] at hs; cases hs
    | ok s' =>
      rw [he] at hs hend
      obtain rfl := Except.ok.inj hs
      simpa using hend.1
  all_goals cases hs

end Scanner

theorem tokenize_symbol_ne_nil {src : Bytes} {ts : List Token} (h : tokenize src = .ok ts) :
    ∀ t ∈ ts, t.lexeme ≠ .symbol [] := by
  obtain ⟨s, hs, hf⟩ := scan_eq_ok (tokenize_eq_ok h)
  have hstart : Scanner.start.Named := by simp [Scanner.Named, Scanner.start]
  have hnamed := Scanner.steps_named hstart (Glyph.ofBytes_raw_ne_nil src) hs
  exact Scanner.finish_named hnamed hf

end SmallLisp
