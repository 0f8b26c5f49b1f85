import Mathlib.Data.List.TakeWhile
import SmallLisp.Proofs.Scanning

/-! The line that a syntax error quotes. The scanner remembers the offset at which it starts, the
reader finds it by its number. What the scanner counts along the way fits together
(`Place.Counts`), so the line that starts there is the one that has that number (`scan_locate`). -/
namespace SmallLisp

/-! ## Lines by number -/

theorem sourceLine_append_left {a : Bytes} {n : Nat} (hlo : 1 ≤ n) (hhi : n ≤ a.count 10 + 1)
    (b : Bytes) : sourceLine (a ++ 10 :: b) n = sourceLine a n := by
  have hl := Bytes.length_lines a
  unfold sourceLine
  rw [Bytes.lines_append, List.getElem?_append_left (by omega)]

theorem sourceLine_append_right (a b : Bytes) {n : Nat} (hn : 1 ≤ n) :
    sourceLine (a ++ 10 :: b) (n + (a.count 10 + 1)) = sourceLine b n := by
  have hl := Bytes.length_lines a
  have hsub : n + (a.count 10 + 1) - 1 - (a.count 10 + 1) = n - 1 := by omega
  unfold sourceLine
  rw [Bytes.lines_append, List.getElem?_append_right (by omega), hl, hsub]

/-- The first line ends with the first newline, or with the text. -/
theorem sourceLine_one {line : Bytes} (hline : (10 : UInt8) ∉ line) (after : Bytes)
    (hafter : ∀ b ∈ after.head?, b = 10) :
    sourceLine (line ++ after) 1 = Bytes.dropReturn line := by
  have halone : sourceLine line 1 = Bytes.dropReturn line := by
    rw [sourceLine, Bytes.lines_of_not_mem hline]
    rfl
  match after, hafter with
  | [], _ => rw [List.append_nil, halone]
  | b :: after, hafter =>
    obtain rfl : b = 10 := hafter b rfl
    rw [sourceLine_append_left (Nat.le_refl 1) (by omega), halone]

theorem eq_newline_of_head_dropWhile {s : Bytes} {b : UInt8}
    (h : b ∈ (s.dropWhile (· != 10)).head?) : b = 10 := by
  have hnot := List.head?_dropWhile_not (· != 10) s
  rw [h] at hnot
  simpa using hnot

theorem lineFrom_zero (s : Bytes) : lineFrom s 0 = sourceLine s 1 := by
  have hline : (10 : UInt8) ∉ s.takeWhile (· != 10) :=
    fun h => absurd (List.mem_takeWhile_imp h) (by decide)
  have hone := sourceLine_one hline (s.dropWhile (· != 10)) fun _ => eq_newline_of_head_dropWhile
  rw [List.takeWhile_append_dropWhile] at hone
  exact hone.symm

/-! ## Lines by offset -/

theorem lineFrom_append_left {a : Bytes} {start : Nat} (h : start ≤ a.length) (b : Bytes) :
    lineFrom (a ++ 10 :: b) start = lineFrom a start := by
  unfold lineFrom
  rw [List.drop_append_of_le_length h]
  congr 1
  induction a.drop start with
  | nil => rfl
  | cons c cs ih => simp only [List.cons_append, List.takeWhile_cons, ih]

theorem lineFrom_append_right (a b : Bytes) (start : Nat) :
    lineFrom (a ++ b) (start + a.length) = lineFrom b start := by
  unfold lineFrom
  rw [Nat.add_comm, ← List.drop_drop, List.drop_left]

/-! ## Both ways to a line -/

/-- The place behind the bytes `front`: these are whole lines, behind which its own line starts, and
a part of that. -/
structure Place.Counts (front : Bytes) (p : Place) : Prop where
  offset : p.offset = front.length
  line : p.pos.line = 1 + front.count 10
  cut : ∃ lines part, front = lines ++ part ∧ p.lineStart = lines.length ∧
    (10 : UInt8) ∉ part ∧ (lines = [] ∨ ∃ before, lines = before ++ [10])

namespace Place.Counts

theorem start : Counts [] Place.start := ⟨rfl, rfl, [], [], rfl, rfl, nofun, .inl rfl⟩

theorem next {front : Bytes} {p : Place} (h : Counts front p) {g : Glyph} (hg : g.NewlineExact) :
    Counts (front ++ g.raw) (p.next g) := by
  have hoffset : (p.next g).offset = (front ++ g.raw).length := by
    rw [List.length_append, ← h.offset]
    rfl
  rcases hg with ⟨hchar, hraw⟩ | ⟨hchar, hraw⟩
  · refine ⟨hoffset, ?_, front ++ [10], [], ?_, ?_, nofun, .inr ⟨front, rfl⟩⟩
    · simp [Place.next, Position.next, hchar, hraw, h.line, Nat.add_assoc]
    · rw [hraw, List.append_nil]
    · simpa [Place.next, hchar, hraw] using hoffset
  · obtain ⟨lines, part, rfl, hstart, hpart, hlines⟩ := h.cut
    refine ⟨hoffset, ?_, lines, part ++ g.raw, List.append_assoc .., ?_, ?_, hlines⟩
    · simp [Place.next, Position.next, hchar, h.line, List.count_eq_zero.mpr hraw]
    · simpa [Place.next, hchar] using hstart
    · simpa using ⟨hpart, hraw⟩

/-- Behind any characters of a text, what has been counted fits together. -/
theorem after {front : Bytes} {p : Place} (h : Counts front p) {gs : List Glyph}
    (hgs : ∀ g ∈ gs, g.NewlineExact) : Counts (front ++ Glyph.toBytes gs) (p.after gs) := by
  induction gs generalizing front p with
  | nil => simpa [Glyph.toBytes, Place.after] using h
  | cons g gs ih =>
    obtain ⟨hg, hgs⟩ := List.forall_mem_cons.mp hgs
    have hrest := ih (h.next hg) hgs
    rwa [List.append_assoc] at hrest

theorem of_ofBytes_eq {src : Bytes} {gs hs : List Glyph} (h : Glyph.ofBytes src = gs ++ hs) :
    Counts (Glyph.toBytes gs) (Place.start.after gs) :=
  start.after fun g hg => newlineExact_ofBytes src g (h ▸ List.mem_append_left hs hg)

theorem ofBytes (s : Bytes) : Counts s (Place.start.after (Glyph.ofBytes s)) := by
  have h := of_ofBytes_eq (List.append_nil (Glyph.ofBytes s)).symm
  rwa [Glyph.toBytes_ofBytes] at h

theorem lineStart_le {front : Bytes} {p : Place} (h : Counts front p) :
    p.lineStart ≤ front.length := by
  obtain ⟨lines, part, rfl, hstart, -⟩ := h.cut
  rw [hstart, List.length_append]
  exact Nat.le_add_right ..

/-- The line that starts at the offset is the line with the number. -/
theorem lineFrom_eq {front : Bytes} {p : Place} (h : Counts front p) (back : Bytes) :
    lineFrom (front ++ back) p.lineStart = sourceLine (front ++ back) p.pos.line := by
  obtain ⟨lines, part, rfl, hstart, hpart, hlines⟩ := h.cut
  have hzero := lineFrom_append_right lines (part ++ back) 0
  rw [Nat.zero_add, lineFrom_zero] at hzero
  have hcount : (lines ++ part).count 10 = lines.count 10 := by
    rw [List.count_append, List.count_eq_zero.mpr hpart, Nat.add_zero]
  rw [hstart, h.line, hcount, List.append_assoc, hzero]
  rcases hlines with rfl | ⟨before, rfl⟩
  · rfl
  · have hnumber := sourceLine_append_right before (part ++ back) (Nat.le_refl 1)
    simpa using hnumber.symm

end Place.Counts

/-- A flaw is at a place behind a part of the text. -/
theorem scan_counts {src : Bytes} {f : LexicalFlaw} (h : scan (Glyph.ofBytes src) = .error f) :
    ∃ front back, src = front ++ back ∧ f.place.Counts front := by
  obtain ⟨before, rest, g, hsrc, hplace, -⟩ := scan_shows h
  exact ⟨_, _, Glyph.bytes_of_ofBytes_eq hsrc, hplace ▸ .of_ofBytes_eq hsrc⟩

theorem lineStart_le {src : Bytes} {f : LexicalFlaw} (h : scan (Glyph.ofBytes src) = .error f) :
    f.place.lineStart ≤ src.length := by
  obtain ⟨front, back, rfl, hcounts⟩ := scan_counts h
  rw [List.length_append]
  exact Nat.le_trans hcounts.lineStart_le (Nat.le_add_right ..)

/-- The error that the scanner makes of a flaw, with the line that starts at the remembered offset,
is the one that the reader would make of it, with the line of that number. -/
theorem scan_locate {src : Bytes} {f : LexicalFlaw} (h : scan (Glyph.ofBytes src) = .error f) :
    f.locate src = (⟨f.fault, f.place.pos⟩ : Flaw).locate src := by
  obtain ⟨front, back, rfl, hcounts⟩ := scan_counts h
  exact congrArg (SyntaxError.mk _ _) (hcounts.lineFrom_eq back)

end SmallLisp
