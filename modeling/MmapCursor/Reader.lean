import MmapCursor.Cursor

/-!
# The abstract reader, and the cursor as its implementation

What a cursor is for, without positions, clamps and panics: a byte string of which a suffix is
still *unread*.  `Reader.step` says what every operation returns and what it leaves unread, in
terms of `drop`, `take` and `dropWhile` alone.

* `Cursor.Inv` — the fields of a cursor are consistent; `Cursor.unread` — its abstraction.
* `Cursor.step` — one operation of the modelled cursor.
* `step_refines` — from a consistent cursor every operation returns, with the output and the
  unread bytes of `Reader.step`, and leaves a consistent cursor over the same source.

The results on whole runs (`MmapCursor.CursorRuns`) use `step_refines` only.
-/

set_option autoImplicit false

namespace MmapCursor

variable {w : Nat}

/-- The operations of a cursor. -/
inductive Op (w : Nat) where
  | seek (pos : BytePos w)
  | advance
  | advanceNAhead (n : Usize w)
  | sliceNAhead (n : Usize w)
  | advanceIfStartsWith (pre : List UInt8)
  | advanceUntil (f : UInt8 → Bool)
  | advanceTo (stop : UInt8)
  | advanceThrough (stop : UInt8)
  | peek
  | peekNAhead (n : Usize w)
  | slice (range : ByteRange w)
  | rest
  | remainingLen
  | isEof

/-- What an operation returns. -/
inductive Output (w : Nat) where
  | unit
  | byte (b : Option UInt8)
  | bytes (b : Option (List UInt8))
  | flag (b : Bool)
  | count (n : Usize w)
  deriving DecidableEq, Repr

/-- One operation on a cursor. -/
def Cursor.step (c : Cursor w) : Op w → Res (Output w × Cursor w)
  | .seek pos => .ok (.unit, c.seek pos)
  | .advance => .ok (.unit, c.advance)
  | .advanceNAhead n => .ok (.unit, c.advanceNAhead n)
  | .sliceNAhead n => (c.sliceNAhead n).map fun r => (.bytes r.1, r.2)
  | .advanceIfStartsWith pre => (c.advanceIfStartsWith pre).map fun r => (.flag r.1, r.2)
  | .advanceUntil f => (c.advanceUntil f).map fun c => (.unit, c)
  | .advanceTo stop => (c.advanceTo stop).map fun c => (.unit, c)
  | .advanceThrough stop => (c.advanceThrough stop).map fun c => (.unit, c)
  | .peek => .ok (.byte c.peek, c)
  | .peekNAhead n => .ok (.byte (c.peekNAhead n), c)
  | .slice range => (c.slice range).map fun r => (.bytes r, c)
  | .rest => c.rest.map fun r => (.bytes r, c)
  | .remainingLen => .ok (.count c.remainingLen, c)
  | .isEof => .ok (.flag c.isEof, c)

/-- One operation of a reader of `source` that has `unread` left. -/
def Reader.step (source unread : List UInt8) : Op w → Output w × List UInt8
  | .seek pos => (.unit, source.drop pos.toNat)
  | .advance => (.unit, unread.drop 1)
  | .advanceNAhead n => (.unit, unread.drop n.toNat)
  | .sliceNAhead n => (.bytes (if unread = [] then none else some (unread.take n.toNat)),
      unread.drop n.toNat)
  | .advanceIfStartsWith pre =>
      if unread ≠ [] ∧ pre <+: unread then (.flag true, unread.drop pre.length)
      else (.flag false, unread)
  | .advanceUntil f => (.unit, unread.dropWhile f)
  | .advanceTo stop => (.unit, unread.dropWhile (· != stop))
  | .advanceThrough stop => (.unit, (unread.dropWhile (· != stop)).drop 1)
  | .peek => (.byte unread.head?, unread)
  | .peekNAhead n => (.byte unread[n.toNat]?, unread)
  | .slice range => (.bytes (if range.end_.toNat ≤ source.length then
      some (source.extract range.start.toNat range.end_.toNat) else none), unread)
  | .rest => (.bytes (if unread = [] then none else some unread), unread)
  | .remainingLen => (.count (BitVec.ofNat w unread.length), unread)
  | .isEof => (.flag unread.isEmpty, unread)

namespace Cursor

/-- The fields of the cursor are consistent. -/
structure Inv (c : Cursor w) : Prop where
  eof_eq : c.eof.toNat = c.source.toList.length
  pos_le : c.pos.toNat ≤ c.eof.toNat

/-- The bytes between the cursor and EOF. -/
def unread (c : Cursor w) : List UInt8 := c.source.toList.drop c.pos.toNat

theorem new_inv (s : Slice w) : (new s).Inv := ⟨by simp [new], by simp [new]⟩

@[simp] theorem new_unread (s : Slice w) : (new s).unread = s.toList := by simp [new, unread]

theorem length_unread {c : Cursor w} (h : c.Inv) :
    c.unread.length = c.eof.toNat - c.pos.toNat := by
  rw [unread, List.length_drop, h.eof_eq]

theorem Inv.pos_le_length {c : Cursor w} (h : c.Inv) : c.pos.toNat ≤ c.source.toList.length := by
  rw [← h.eof_eq]
  exact h.pos_le

/-- The bytes a scan has passed, and those in front of it. -/
theorem unread_of_dropWhile {c c' : Cursor w} {f : UInt8 → Bool}
    (hu : c'.unread = c.unread.dropWhile f) : c.unread = c.unread.takeWhile f ++ c'.unread := by
  rw [hu]
  exact List.takeWhile_append_dropWhile.symm

theorem pos_add_unread {c : Cursor w} (h : c.Inv) :
    c.pos.toNat + c.unread.length = c.source.toList.length := by
  have := h.pos_le
  rw [length_unread h, ← h.eof_eq]; omega

theorem unread_eq_nil {c : Cursor w} (h : c.Inv) : c.unread = [] ↔ c.eof.toNat ≤ c.pos.toNat := by
  rw [← List.length_eq_zero_iff, length_unread h]; omega

theorem eq_of_pos {c c' : Cursor w} (h : c.Inv) (h' : c'.Inv) (hs : c'.source = c.source)
    (hp : c'.pos.toNat = c.pos.toNat) : c' = c := by
  have hpos : c'.pos = c.pos := BytePos.ext_toNat hp
  have heof : c'.eof = c.eof := BytePos.ext_toNat (by rw [h'.eof_eq, h.eof_eq, hs])
  cases c
  cases c'
  simp only at hs hpos heof
  rw [hs, hpos, heof]

theorem pos_of_append {c c' : Cursor w} (h : c.Inv) (h' : c'.Inv) (hs : c'.source = c.source)
    {chunk : List UInt8} (hu : c.unread = chunk ++ c'.unread) :
    c'.pos.toNat = c.pos.toNat + chunk.length := by
  have h1 := pos_add_unread h
  have h2 := pos_add_unread h'
  rw [hu, List.length_append] at h1
  rw [hs] at h2
  omega

/-- Consistent cursors over one source are told apart by what they have unread. -/
theorem eq_of_unread {c c' : Cursor w} (h : c.Inv) (h' : c'.Inv) (hs : c'.source = c.source)
    (hu : c'.unread = c.unread) : c' = c := by
  apply eq_of_pos h h' hs
  have hnil : c.unread = [] ++ c'.unread := hu.symm
  exact pos_of_append h h' hs hnil

theorem isEof_iff {c : Cursor w} (h : c.Inv) : c.isEof = true ↔ c.unread = [] := by
  rw [unread_eq_nil h, isEof, decide_eq_true_iff]; exact Iff.rfl

theorem not_isEof {c : Cursor w} (h : c.Inv) {b : UInt8} {bs : List UInt8}
    (hu : c.unread = b :: bs) : ¬ c.isEof = true := by
  rw [isEof_iff h, hu]
  exact List.cons_ne_nil b bs

/-! ## Moves -/

/-- Moving to the offset `k`, clamped at EOF, leaves what follows that offset unread. -/
theorem moveTo_spec {c : Cursor w} (h : c.Inv) {p : BytePos w} {k : Nat}
    (hp : p.toNat = min k c.eof.toNat) :
    ({ c with pos := p } : Cursor w).Inv ∧
      ({ c with pos := p } : Cursor w).unread = c.source.toList.drop k := by
  have h1 := h.eof_eq
  refine ⟨⟨h.eof_eq, by simp only [hp]; exact Nat.min_le_right _ _⟩, ?_⟩
  simp only [unread, hp]
  rcases Nat.le_total k c.eof.toNat with hle | hle
  · rw [Nat.min_eq_left hle]
  · rw [Nat.min_eq_right hle, h1, List.drop_length, List.drop_eq_nil_of_le (by omega)]

/-- A clamped step of `k` bytes drops `k` unread bytes. -/
theorem move_spec {c : Cursor w} (h : c.Inv) {p : BytePos w} {k : Nat}
    (hp : p.toNat = min (c.pos.toNat + k) c.eof.toNat) :
    ({ c with pos := p } : Cursor w).Inv ∧
      ({ c with pos := p } : Cursor w).unread = c.unread.drop k := by
  rw [unread.eq_1 c, List.drop_drop]
  exact moveTo_spec h hp

theorem seek_spec {c : Cursor w} (h : c.Inv) (pos : BytePos w) :
    (c.seek pos).Inv ∧ (c.seek pos).unread = c.source.toList.drop pos.toNat :=
  moveTo_spec h (BytePos.toNat_min _ _)

theorem advanceNAhead_spec {c : Cursor w} (h : c.Inv) (n : Usize w) :
    (c.advanceNAhead n).Inv ∧ (c.advanceNAhead n).unread = c.unread.drop n.toNat :=
  move_spec h (BytePos.toNat_saturatingAdd_min _ _ _)

theorem advance_spec {c : Cursor w} (h : c.Inv) :
    c.advance.Inv ∧ c.advance.unread = c.unread.drop 1 := by
  refine move_spec h ?_
  rw [BytePos.toNat_saturatingAdd_min, BytePos.toNat_new]
  rcases Nat.eq_zero_or_pos c.eof.toNat with h0 | hpos
  · rw [h0]; exact (Nat.min_zero _).trans (Nat.min_zero _).symm
  · rw [Usize.toNat_literal (k := 1) hpos c.eof.toNat_lt]

/-! ## Reads -/

theorem peekNAhead_eq {c : Cursor w} (n : Usize w) : c.peekNAhead n = c.unread[n.toNat]? := by
  have hfits := c.source.fits
  rw [unread, List.getElem?_drop, peekNAhead, Slice.get, Usize.toNat_saturatingAdd]
  rcases Nat.lt_or_ge (c.pos.toNat + n.toNat) (2 ^ w) with hlt | hge
  · rw [BytePos.toNat_toUsize, Nat.min_eq_left (by omega)]
  · rw [BytePos.toNat_toUsize, List.getElem?_eq_none (by omega), List.getElem?_eq_none (by omega)]

theorem peek_eq {c : Cursor w} : c.peek = c.unread.head? := by
  rw [unread, List.head?_drop]; rfl

theorem remainingLen_eq {c : Cursor w} (h : c.Inv) :
    c.remainingLen = BitVec.ofNat w c.unread.length := by
  apply Words.eq_of_toNat
  rw [remainingLen, Usize.toNat_saturatingSub, Words.toNat_ofNat_of_lt, length_unread h]
  · rfl
  · have := c.eof.toNat_lt
    rw [length_unread h]; omega

theorem slice_eq {c : Cursor w} (h : c.Inv) (range : ByteRange w) :
    c.slice range = .ok (if range.end_.toNat ≤ c.source.toList.length then
      some (c.source.toList.extract range.start.toNat range.end_.toNat) else none) := by
  have hle : range.start.toNat ≤ range.end_.toNat := range.start_le_end
  unfold slice
  by_cases hend : range.end_.toNat ≤ c.source.toList.length
  · rw [if_neg (by rw [gt_iff_lt, BytePos.lt_iff, h.eof_eq]; omega), if_pos hend,
      Slice.range_eq hle hend]
    rfl
  · rw [if_pos (by rw [gt_iff_lt, BytePos.lt_iff, h.eof_eq]; omega), if_neg hend]

theorem rest_eq {c : Cursor w} (h : c.Inv) :
    c.rest = .ok (if c.unread = [] then none else some c.unread) := by
  unfold rest
  by_cases he : c.unread = []
  · rw [if_pos ((isEof_iff h).mpr he), if_pos he]
  · rw [if_neg (fun hc => he ((isEof_iff h).mp hc)), if_neg he, Slice.rangeFrom_eq h.pos_le_length]
    rfl

/-! ## Reads that move -/

theorem sliceNAhead_spec {c : Cursor w} (h : c.Inv) (n : Usize w) :
    ∃ c', c.sliceNAhead n =
        .ok (if c.unread = [] then none else some (c.unread.take n.toNat), c') ∧
      c'.Inv ∧ c'.source = c.source ∧ c'.eof = c.eof ∧ c'.unread = c.unread.drop n.toNat := by
  unfold sliceNAhead
  by_cases he : c.unread = []
  · rw [if_pos ((isEof_iff h).mpr he), if_pos he]
    exact ⟨c, rfl, h, rfl, rfl, by rw [he, List.drop_nil]⟩
  · rw [if_neg (fun hc => he ((isEof_iff h).mp hc)), if_neg he]
    have hlt : c.pos.toNat < c.eof.toNat := by
      rw [unread_eq_nil h] at he; omega
    obtain ⟨end_, hend⟩ : ∃ e, e = (c.pos.saturatingAdd (BytePos.new n)).min c.eof := ⟨_, rfl⟩
    have hval : end_.toNat = min (c.pos.toNat + n.toNat) c.eof.toNat := by
      rw [hend, BytePos.toNat_saturatingAdd_min, BytePos.toNat_new]
    have hle : c.pos ≤ end_ := by
      rw [BytePos.le_iff, hval]; exact Nat.le_min.mpr ⟨Nat.le_add_right _ _, h.pos_le⟩
    have hbound : end_.toNat ≤ c.source.toList.length := by
      rw [hval, ← h.eof_eq]; exact Nat.min_le_right _ _
    have hext : c.source.toList.extract c.pos.toNat end_.toNat = c.unread.take n.toNat := by
      rw [List.extract_eq_take_drop, ← unread, List.take_eq_take_iff, length_unread h, hval]
      omega
    obtain ⟨hinv, hun⟩ := move_spec h hval
    refine ⟨{ c with pos := end_ }, ?_, hinv, rfl, rfl, hun⟩
    simp only [← hend, ByteRange.new_eq hle, bind, Except.bind, slice_eq h, if_pos hbound, hext]

theorem advanceIfStartsWith_spec {c : Cursor w} (h : c.Inv) (pre : List UInt8) :
    ∃ c', c.advanceIfStartsWith pre = .ok (decide (c.unread ≠ [] ∧ pre <+: c.unread), c') ∧
      c'.Inv ∧ c'.source = c.source ∧ c'.eof = c.eof ∧
      c'.unread = if c.unread ≠ [] ∧ pre <+: c.unread then c.unread.drop pre.length
        else c.unread := by
  unfold advanceIfStartsWith
  simp only [rest_eq h, bind, Except.bind]
  by_cases he : c.unread = []
  · refine ⟨c, ?_, h, rfl, rfl, ?_⟩ <;> simp [he]
  · by_cases hp : pre <+: c.unread
    · have hlen : pre.length < 2 ^ w := by
        have h1 := hp.length_le
        have h2 := c.eof.toNat_lt
        rw [length_unread h] at h1; omega
      have hmove := move_spec h
        (p := (c.pos.saturatingAdd (BytePos.new (BitVec.ofNat w pre.length))).min c.eof)
        (k := pre.length) (by
          rw [BytePos.toNat_saturatingAdd_min, BytePos.toNat_new, Words.toNat_ofNat_of_lt hlen])
      refine ⟨_, ?_, hmove.1, rfl, rfl, ?_⟩
      · simp [he, List.isPrefixOf_iff_prefix, hp]
      · rw [hmove.2, if_pos ⟨he, hp⟩]
    · refine ⟨c, ?_, h, rfl, rfl, ?_⟩ <;> simp [he, hp, List.isPrefixOf_iff_prefix]

/-! ## Scans -/

/-- The scan keeps what is left after the bytes that satisfy `f`, and stops in front of it. -/
theorem advanceUntil_spec {c : Cursor w} (h : c.Inv) (f : UInt8 → Bool) :
    ∃ c', c.advanceUntil f = .ok c' ∧
      c'.Inv ∧ c'.source = c.source ∧ c'.eof = c.eof ∧ c'.unread = c.unread.dropWhile f := by
  refine Loops.loop_total _ _
    (fun d => d.Inv ∧ d.source = c.source ∧ d.eof = c.eof ∧
      d.unread.dropWhile f = c.unread.dropWhile f)
    (fun d => d.unread.length) _ ?_ _ c ⟨h, rfl, rfl, rfl⟩ ?_
  · rintro d ⟨hd, hs, he, hu⟩
    obtain ⟨hinv, hdrop⟩ := advance_spec hd
    unfold advanceUntilRound
    rw [peek_eq]
    cases hun : d.unread with
    | nil => exact Or.inl ⟨d, by simp, hd, hs, he, by rw [← hu, hun]; rfl⟩
    | cons b bs =>
      rw [hun] at hdrop hu
      by_cases hf : f b = true
      · refine Or.inr ⟨d.advance, by simp [hf], ⟨hinv, hs, he, ?_⟩, ?_⟩
        · rw [hdrop, ← hu]; simp [List.dropWhile, hf]
        · rw [hdrop]; simp
      · refine Or.inl ⟨d, by simp [hf], hd, hs, he, ?_⟩
        rw [← hu, hun]; simp [List.dropWhile, hf]
  · have := pos_add_unread h
    omega

theorem advanceThrough_spec {c : Cursor w} (h : c.Inv) (stop : UInt8) :
    ∃ c', c.advanceThrough stop = .ok c' ∧ c'.Inv ∧ c'.source = c.source ∧ c'.eof = c.eof ∧
      c'.unread = (c.unread.dropWhile (· != stop)).drop 1 := by
  obtain ⟨d, hd, hinv, hs, he, hu⟩ := advanceUntil_spec h (· != stop)
  unfold advanceThrough advanceTo
  simp only [hd, bind, Except.bind, peek_eq]
  by_cases hp : d.unread.head? = some stop
  · obtain ⟨hinv', hu'⟩ := advance_spec hinv
    exact ⟨d.advance, by rw [if_pos hp], hinv', hs, he, by rw [hu', hu]⟩
  · refine ⟨d, by rw [if_neg hp], hinv, hs, he, ?_⟩
    rw [← hu]
    have hnot := List.head?_dropWhile_not (· != stop) c.unread
    rw [← hu] at hnot
    cases hun : d.unread with
    | nil => rfl
    | cons b bs =>
      rw [hun] at hnot hp
      exact absurd (by simpa using hnot) hp

/-! ## Refinement -/

/-- **The cursor implements the reader.** -/
theorem step_refines {c : Cursor w} (h : c.Inv) (op : Op w) :
    ∃ c', c.step op = .ok ((Reader.step c.source.toList c.unread op).1, c') ∧
      c'.Inv ∧ c'.source = c.source ∧ c'.eof = c.eof ∧
      c'.unread = (Reader.step c.source.toList c.unread op).2 := by
  cases op with
  | seek pos => exact ⟨_, rfl, (seek_spec h pos).1, rfl, rfl, (seek_spec h pos).2⟩
  | advance => exact ⟨_, rfl, (advance_spec h).1, rfl, rfl, (advance_spec h).2⟩
  | advanceNAhead n =>
    exact ⟨_, rfl, (advanceNAhead_spec h n).1, rfl, rfl, (advanceNAhead_spec h n).2⟩
  | sliceNAhead n =>
    obtain ⟨c', heq, hrest⟩ := sliceNAhead_spec h n
    exact ⟨c', by rw [step, heq]; rfl, hrest⟩
  | advanceIfStartsWith pre =>
    obtain ⟨c', heq, hinv, hs, he, hu⟩ := advanceIfStartsWith_spec h pre
    refine ⟨c', ?_, hinv, hs, he, ?_⟩
    · rw [step, heq, Reader.step]
      split <;> rename_i hc <;> simp [hc, Except.map]
    · rw [hu, Reader.step]; split <;> rfl
  | advanceUntil f =>
    obtain ⟨c', heq, hrest⟩ := advanceUntil_spec h f
    exact ⟨c', by rw [step, heq]; rfl, hrest⟩
  | advanceTo stop =>
    obtain ⟨c', heq, hrest⟩ := advanceUntil_spec h (· != stop)
    exact ⟨c', by rw [step, advanceTo, heq]; rfl, hrest⟩
  | advanceThrough stop =>
    obtain ⟨c', heq, hrest⟩ := advanceThrough_spec h stop
    exact ⟨c', by rw [step, heq]; rfl, hrest⟩
  | peek => exact ⟨c, by rw [step, peek_eq]; rfl, h, rfl, rfl, rfl⟩
  | peekNAhead n => exact ⟨c, by rw [step, peekNAhead_eq]; rfl, h, rfl, rfl, rfl⟩
  | slice range => exact ⟨c, by rw [step, slice_eq h]; rfl, h, rfl, rfl, rfl⟩
  | rest => exact ⟨c, by rw [step, rest_eq h]; rfl, h, rfl, rfl, rfl⟩
  | remainingLen => exact ⟨c, by rw [step, remainingLen_eq h]; rfl, h, rfl, rfl, rfl⟩
  | isEof =>
    refine ⟨c, ?_, h, rfl, rfl, rfl⟩
    have : c.isEof = c.unread.isEmpty := by
      rw [Bool.eq_iff_iff, isEof_iff h, List.isEmpty_iff]
    rw [step, this]; rfl

end Cursor

end MmapCursor
