import MmapCursor.LineIndex
import MmapCursor.Lib.Segments

/-!
# Where lines begin

What a line index is about, without scans and words: which bytes end a line, and the offsets at
which lines begin.

* `EndsLine` — the byte at an offset ends a line; it looks one byte ahead.
* `lineStarts` — the starts of all lines, as the segments (`MmapCursor.Lib.Segments`) cut after
  those bytes; `lines` — the bytes of each.
* `lineStarts_append`, `lineStarts_append_seam` — the line starts of a concatenation, without and
  with a CR LF pair split by the cut.
* `LineIndex.ofLines` — the index that holds these starts.  Both builds of `LineIndex::new` compute
  it (`MmapCursor.Scan`).
-/

set_option autoImplicit false

namespace MmapCursor

variable {w : Nat}

/-- The byte at offset `i` ends a line: an LF, or a CR with no LF behind it. -/
def EndsLine (l : List UInt8) (i : Nat) : Prop :=
  l[i]? = some LF ∨ (l[i]? = some CR ∧ l[i + 1]? ≠ some LF)

instance (l : List UInt8) : DecidablePred (EndsLine l) := fun i =>
  inferInstanceAs (Decidable (l[i]? = some LF ∨ (l[i]? = some CR ∧ l[i + 1]? ≠ some LF)))

theorem LF_ne_CR : LF ≠ CR := by decide

theorem EndsLine.lt {l : List UInt8} {i : Nat} (h : EndsLine l i) : i < l.length := by
  rcases h with h | ⟨h, _⟩ <;> exact (List.getElem?_eq_some_iff.mp h).1

theorem endsLine_of_LF {l : List UInt8} {i : Nat} (h : l[i]? = some LF) : EndsLine l i := Or.inl h

theorem endsLine_of_CR {l : List UInt8} {i : Nat} (h : l[i]? = some CR) :
    EndsLine l i ↔ l[i + 1]? ≠ some LF := by
  unfold EndsLine
  rw [h, Option.some.injEq]
  exact ⟨fun h' => h'.elim (fun he => absurd he (Ne.symm LF_ne_CR)) And.right,
    fun h' => Or.inr ⟨rfl, h'⟩⟩

theorem not_endsLine {l : List UInt8} {i : Nat} {b : UInt8} (h : l[i]? = some b) (hcr : b ≠ CR)
    (hlf : b ≠ LF) : ¬ EndsLine l i := by
  unfold EndsLine
  rw [h, Option.some.injEq, Option.some.injEq]
  exact fun h' => h'.elim hlf fun h' => hcr h'.1

theorem starts_pair {l : List UInt8} {i : Nat} (hcr : l[i]? = some CR) (hlf : l[i + 1]? = some LF) :
    Segments.starts (EndsLine l) (i + 2) = Segments.starts (EndsLine l) i ++ [i + 2] := by
  rw [Segments.starts_succ, Segments.starts_succ, if_neg fun h => (endsLine_of_CR hcr).mp h hlf,
    List.append_nil, if_pos (endsLine_of_LF hlf)]

/-- The offsets at which lines begin. -/
def lineStarts (l : List UInt8) : List Nat := Segments.starts (EndsLine l) l.length

/-- The bytes of every line, its terminator included. -/
def lines (l : List UInt8) : List (List UInt8) := Segments.pieces l (lineStarts l)

@[simp] theorem length_lines (l : List UInt8) : (lines l).length = (lineStarts l).length :=
  Segments.length_pieces l _

theorem length_lineStarts (l : List UInt8) :
    (lineStarts l).length = Nat.count (EndsLine l) l.length + 1 := Segments.length_starts _ _

theorem length_lineStarts_le (l : List UInt8) : (lineStarts l).length ≤ l.length + 1 := by
  have := Nat.count_le (p := EndsLine l) (n := l.length)
  rw [length_lineStarts]; omega

theorem lineStarts_le {l : List UInt8} {c : Nat} (h : c ∈ lineStarts l) : c ≤ l.length :=
  Segments.starts_le _ h

theorem next_le (l : List UInt8) (i : Nat) : (lineStarts l)[i]?.getD l.length ≤ l.length := by
  cases h : (lineStarts l)[i]? with
  | none => exact Nat.le_refl _
  | some c => exact lineStarts_le (List.mem_of_getElem? h)

/-! ## Concatenation -/

/-- A CR LF pair lies across the cut between `a` and `b`. -/
def Seam (a b : List UInt8) : Prop := a.getLast? = some CR ∧ b.head? = some LF

instance (a b : List UInt8) : Decidable (Seam a b) :=
  inferInstanceAs (Decidable (a.getLast? = some CR ∧ b.head? = some LF))

theorem seam_cons (x : UInt8) {a b : List UInt8} (h : Seam a b) : Seam (x :: a) b := by
  obtain ⟨hlast, hhead⟩ := h
  refine ⟨?_, hhead⟩
  rw [List.getLast?_cons, hlast]
  rfl

theorem endsLine_append_right (a b : List UInt8) (i : Nat) :
    EndsLine (a ++ b) (a.length + i) ↔ EndsLine b i := by
  unfold EndsLine
  rw [List.getElem?_append_right (by omega), List.getElem?_append_right (by omega),
    Nat.add_sub_cancel_left, Nat.add_assoc, Nat.add_sub_cancel_left]

/-- Away from the cut the lookahead stays within the first part. -/
theorem endsLine_append_left {a : List UInt8} (b : List UInt8) {i : Nat} (hi : i + 1 < a.length) :
    EndsLine (a ++ b) i ↔ EndsLine a i := by
  unfold EndsLine
  rw [List.getElem?_append_left (by omega), List.getElem?_append_left hi]

/-- At the cut the lookahead sees the first byte of the second part. -/
theorem endsLine_append_last {a : List UInt8} (b : List UInt8) {i : Nat} (hi : i + 1 = a.length) :
    EndsLine (a ++ b) i ↔ EndsLine a i ∧ ¬ Seam a b := by
  have hlast : a.getLast? = a[i]? := by rw [List.getLast?_eq_getElem?, ← hi, Nat.add_sub_cancel]
  have hhead : (a ++ b)[i + 1]? = b.head? := by
    rw [List.getElem?_append_right (by omega), hi, Nat.sub_self, List.head?_eq_getElem?]
  have hnone : a[i + 1]? = none := List.getElem?_eq_none (by omega)
  have hne := LF_ne_CR
  unfold EndsLine Seam
  rw [List.getElem?_append_left (by omega), hnone, hhead, hlast]
  by_cases hcr : a[i]? = some CR
  · simp [hcr, Ne.symm hne]
  · simp [hcr]

/-- No pair across the cut: the second part is not seen from the first. -/
theorem endsLine_append {a b : List UInt8} (h : ¬ Seam a b) {i : Nat} (hi : i < a.length) :
    EndsLine (a ++ b) i ↔ EndsLine a i := by
  rcases Nat.lt_or_ge (i + 1) a.length with hlt | hge
  · exact endsLine_append_left b hlt
  · rw [endsLine_append_last b (by omega)]
    exact and_iff_left h

private theorem starts_append (a b : List UInt8) :
    lineStarts (a ++ b) = Segments.starts (EndsLine (a ++ b)) a.length ++
      (lineStarts b).tail.map (· + a.length) := by
  unfold lineStarts
  rw [List.length_append, Segments.starts_add]
  congr 3
  exact Segments.starts_congr _ fun i _ => endsLine_append_right a b i

/-- **Concatenation without a pair across the cut.** -/
theorem lineStarts_append {a b : List UInt8} (h : ¬ Seam a b) :
    lineStarts (a ++ b) = lineStarts a ++ (lineStarts b).tail.map (· + a.length) := by
  rw [starts_append]
  congr 1
  exact Segments.starts_congr _ fun i => endsLine_append h

/-- **Concatenation with a pair across the cut.**  The line that the CR ended at the end of the
first part goes on. -/
theorem lineStarts_append_seam {a b : List UInt8} (h : Seam a b) :
    lineStarts a = (lineStarts a).dropLast ++ [a.length] ∧
      lineStarts (a ++ b) = (lineStarts a).dropLast ++ (lineStarts b).tail.map (· + a.length) := by
  obtain ⟨n, hn⟩ : ∃ n, n + 1 = a.length := by
    cases a with
    | nil => cases h.1
    | cons b bs => exact ⟨bs.length, rfl⟩
  have hend : EndsLine a n := by
    refine Or.inr ⟨?_, by rw [List.getElem?_eq_none (by omega)]; simp⟩
    rw [← h.1, List.getLast?_eq_getElem?, ← hn, Nat.add_sub_cancel]
  have ha : lineStarts a = Segments.starts (EndsLine a) n ++ [a.length] := by
    rw [lineStarts, ← hn, Segments.starts_succ, if_pos hend]
  rw [starts_append, ha, List.dropLast_concat, ← hn, Segments.starts_succ,
    if_neg (fun he => ((endsLine_append_last b hn).mp he).2 h), List.append_nil]
  refine ⟨rfl, ?_⟩
  congr 1
  exact Segments.starts_congr _ fun i hi => endsLine_append_left b (by omega)

theorem lines_append {a b : List UInt8} (ha : lineStarts a = [0, a.length]) (h : ¬ Seam a b) :
    lines (a ++ b) = a :: lines b := by
  obtain ⟨cs, hb⟩ : ∃ cs, lineStarts b = 0 :: cs := ⟨_, rfl⟩
  unfold lines
  rw [lineStarts_append h, ha, hb, ← Segments.pieces_cons_shift]
  simp only [List.tail_cons, List.map_cons, List.cons_append, List.nil_append, Nat.zero_add]

/-! ## The index of these starts -/

/-- The index that holds the line starts of `s`. -/
def LineIndex.ofLines (s : Slice w) : LineIndex w :=
  { lineStarts := (MmapCursor.lineStarts s.toList).map (BitVec.ofNat w), len := s.len }

end MmapCursor
