import MmapCursor.Scan

/-!
# The lookups

What the lookups of `LineIndex::new` return, for every snapshot, in terms of the line starts of its
bytes.  One specification for each of them:

* `toNat_numLines`, `lineStart_eq_some_iff`, `lineRange_spec`, `lineRange_none`;
* `lineForOffset_spec` — the binary search finds the number of line ends in front of the offset,
  whichever search that meets the contract is used;
* `lineColumn_spec` — both numbers of `Segments.locate`, counted from 1.

Every `+`, every index and every `ByteRange::new` of `line_index.rs` faults in the model when it
would panic in the source.  `lookups_total`: within Rust's limit on slices none of them does, in
either build, for any argument up to `usize::MAX`; and which arguments get an answer.  An index
below the number of lines is at most the length of the snapshot, and that is below `usize::MAX`, so
no `+ 1` overflows.
-/

set_option autoImplicit false

namespace MmapCursor

variable {w : Nat}

namespace LineIndex

variable (s : Snapshot w)

theorem length_lineStarts_lt : (MmapCursor.lineStarts s.toList).length < 2 ^ w :=
  Nat.lt_of_le_of_lt (length_lineStarts_le s.toList) s.length_succ_lt

theorem toNat_numLines :
    (ofLines s.toSlice).numLines.toNat = (MmapCursor.lineStarts s.toList).length := by
  unfold numLines ofLines
  rw [List.length_map]
  exact Words.toNat_ofNat_of_lt (length_lineStarts_lt s)

theorem getElem?_ofLines (i : Nat) :
    (ofLines s.toSlice).lineStarts[i]? =
      (MmapCursor.lineStarts s.toList)[i]?.map (BitVec.ofNat w) := List.getElem?_map

variable {s}

theorem toNat_ofNat_start {c : Nat} (h : c ∈ MmapCursor.lineStarts s.toList) :
    (BitVec.ofNat w c).toNat = c := by
  have hlt := s.length_succ_lt
  have hle := lineStarts_le h
  exact Words.toNat_ofNat_of_lt (by omega)

theorem toNat_ofNat_line {i : Nat} (h : i < (MmapCursor.lineStarts s.toList).length) :
    (BitVec.ofNat w i).toNat = i :=
  Words.toNat_ofNat_of_lt (Nat.lt_trans h (length_lineStarts_lt s))

theorem pairwise_ofLines : (ofLines s.toSlice).lineStarts.Pairwise (· < ·) := by
  show ((MmapCursor.lineStarts s.toList).map (BitVec.ofNat w)).Pairwise (· < ·)
  rw [List.pairwise_map]
  apply List.Pairwise.imp_of_mem _ (Segments.starts_pairwise (EndsLine s.toList) s.toList.length)
  intro a b ha hb hab
  show (BitVec.ofNat w a).toNat < (BitVec.ofNat w b).toNat
  rw [toNat_ofNat_start ha, toNat_ofNat_start hb]
  exact hab

/-! ## From a line to its bytes -/

theorem lineStart_spec (line : Usize w) {c : Nat}
    (h : (MmapCursor.lineStarts s.toList)[line.toNat]? = some c) :
    ∃ start, (ofLines s.toSlice).lineStart line = some start ∧ start.toNat = c := by
  refine ⟨BytePos.new (BitVec.ofNat w c), ?_, toNat_ofNat_start (List.mem_of_getElem? h)⟩
  rw [lineStart, getElem?_ofLines, h]; rfl

theorem lineStart_eq_some_iff {line : Usize w} {start : BytePos w} :
    (ofLines s.toSlice).lineStart line = some start ↔
      (MmapCursor.lineStarts s.toList)[line.toNat]? = some start.toNat := by
  constructor
  · intro h
    rw [lineStart, getElem?_ofLines, Option.map_map, Option.map_eq_some_iff] at h
    obtain ⟨c, hc, rfl⟩ := h
    rw [hc]
    exact congrArg some (toNat_ofNat_start (List.mem_of_getElem? hc)).symm
  · intro h
    obtain ⟨start', hstart, hval⟩ := lineStart_spec line h
    rw [hstart, BytePos.ext_toNat hval]

theorem lineStart_none {line : Usize w}
    (h : (MmapCursor.lineStarts s.toList).length ≤ line.toNat) :
    (ofLines s.toSlice).lineStart line = none := by
  rw [lineStart, getElem?_ofLines, List.getElem?_eq_none h]; rfl

theorem lineStart_eq_none_iff {line : Usize w} :
    (ofLines s.toSlice).lineStart line = none ↔ (ofLines s.toSlice).numLines ≤ line := by
  rw [lineStart, getElem?_ofLines, Option.map_map, Option.map_eq_none_iff,
    List.getElem?_eq_none_iff, ← toNat_numLines]
  exact Iff.rfl

theorem map_lineStart (s : Snapshot w) :
    ((List.range (ofLines s.toSlice).numLines.toNat).map fun i =>
        (ofLines s.toSlice).lineStart (BitVec.ofNat w i)) =
      (MmapCursor.lineStarts s.toList).map fun c => some (BytePos.new (BitVec.ofNat w c)) := by
  have hlines := toNat_numLines s
  apply List.ext_getElem
  · rw [List.length_map, List.length_map, List.length_range, hlines]
  · intro i hi hi'
    rw [List.length_map] at hi'
    rw [List.getElem_map, List.getElem_map, List.getElem_range, lineStart, toNat_ofNat_line hi',
      getElem?_ofLines, List.getElem?_eq_getElem hi']
    rfl

theorem lineRange_none {line : Usize w}
    (h : (MmapCursor.lineStarts s.toList).length ≤ line.toNat) :
    (ofLines s.toSlice).lineRange line = .ok none := by
  rw [lineRange, lineStart_none h]

theorem lineRange_spec (line : Usize w) {c : Nat}
    (h : (MmapCursor.lineStarts s.toList)[line.toNat]? = some c) :
    ∃ r, (ofLines s.toSlice).lineRange line = .ok (some r) ∧ r.start.toNat = c ∧
      r.end_.toNat = (MmapCursor.lineStarts s.toList)[line.toNat + 1]?.getD s.toList.length := by
  obtain ⟨start, hstart, hval⟩ := lineStart_spec line h
  have hlines := length_lineStarts_lt s
  have hline := (List.getElem?_eq_some_iff.mp h).1
  have hnext : line.toNat + 1 < 2 ^ w := by omega
  unfold lineRange
  simp only [hstart, Usize.plus_literal (k := 1) hnext, bind, Except.bind, pure, Except.pure,
    Words.toNat_ofNat_of_lt hnext, getElem?_ofLines]
  cases hn : (MmapCursor.lineStarts s.toList)[line.toNat + 1]? with
  | none =>
    have hrange : start ≤ BytePos.new (ofLines s.toSlice).len := by
      show start.toNat ≤ s.toSlice.len.toNat
      rw [hval, Slice.toNat_len]
      exact lineStarts_le (List.mem_of_getElem? h)
    refine ⟨⟨start, _, hrange⟩, ?_, hval, Slice.toNat_len _⟩
    simp only [Option.map_none, ByteRange.new_eq hrange]
  | some d =>
    have hd := toNat_ofNat_start (List.mem_of_getElem? hn)
    have hcd : c < d := BinarySearch.lt_of_index_lt
      (Segments.starts_pairwise (EndsLine s.toList) s.toList.length) h hn (Nat.lt_succ_self _)
    have hrange : start ≤ BytePos.new (BitVec.ofNat w d) := by
      show start.toNat ≤ (BitVec.ofNat w d).toNat
      rw [hval, hd]; omega
    refine ⟨⟨start, _, hrange⟩, ?_, hval, hd⟩
    simp only [Option.map_some, ByteRange.new_eq hrange]

theorem bounds_of_lineRange {line : Usize w} {r : ByteRange w} {c : Nat}
    (hr : (ofLines s.toSlice).lineRange line = .ok (some r))
    (h : (MmapCursor.lineStarts s.toList)[line.toNat]? = some c) :
    r.start.toNat = c ∧
      r.end_.toNat = (MmapCursor.lineStarts s.toList)[line.toNat + 1]?.getD s.toList.length := by
  obtain ⟨r', hr', hbounds⟩ := lineRange_spec line h
  rw [hr, Except.ok.injEq, Option.some.injEq] at hr'
  subst hr'
  exact hbounds

/-! ## From an offset to its line -/

theorem lineForOffset_isSome_iff (search : BinarySearch (Usize w)) (idx : LineIndex w)
    (offset : BytePos w) :
    (idx.lineForOffset search offset).isSome ↔ offset.toUsize ≤ idx.len := by
  unfold lineForOffset
  by_cases h : offset.toUsize > idx.len
  · simp [h]
  · rw [if_neg h]
    cases search.run idx.lineStarts offset.toUsize <;> simpa using h

theorem lineForOffset_eq_none_iff (search : BinarySearch (Usize w)) {offset : BytePos w} :
    (ofLines s.toSlice).lineForOffset search offset = none ↔ s.toList.length < offset.toNat := by
  rw [← Option.not_isSome_iff_eq_none, lineForOffset_isSome_iff, ← Slice.toNat_len, ← Nat.not_le]
  exact Iff.rfl

theorem lineForOffset_none (search : BinarySearch (Usize w)) {offset : BytePos w}
    (h : s.toList.length < offset.toNat) :
    (ofLines s.toSlice).lineForOffset search offset = none :=
  (lineForOffset_eq_none_iff search).mpr h

/-- The answer of the search, as `line_for_offset` reads it. -/
theorem lineForOffset_eq_floorIndex (search : BinarySearch (Usize w)) {offset : BytePos w}
    (h : offset.toNat ≤ s.toList.length) :
    (ofLines s.toSlice).lineForOffset search offset =
      some (BitVec.ofNat w
        (search.floorIndex (ofLines s.toSlice).lineStarts offset.toUsize)) := by
  have hle : ¬ offset.toUsize > (ofLines s.toSlice).len := by
    show ¬ s.toSlice.len.toNat < offset.toNat
    rw [Slice.toNat_len]; omega
  unfold lineForOffset BinarySearch.floorIndex
  rw [if_neg hle]
  cases hr : search.run (ofLines s.toSlice).lineStarts offset.toUsize with
  | ok i => rfl
  | error i =>
    -- an insertion point is at most the number of lines, so it is exact as a word
    have hbound := (search.error_spec (BinarySearch.pairwise_le_of_lt pairwise_ofLines) hr).1
    have hlen : (ofLines s.toSlice).lineStarts.length = (MmapCursor.lineStarts s.toList).length :=
      List.length_map _
    have hlines := length_lineStarts_lt s
    simp only [Option.some.injEq]
    apply Words.eq_of_toNat
    rw [Usize.toNat_saturatingSub, Usize.toNat_literal (k := 1) (Nat.succ_pos _) s.length_succ_lt,
      Words.toNat_ofNat_of_lt (by omega), Words.toNat_ofNat_of_lt (by omega)]

/-- The search for an offset never inserts it in front of line 0, and finds the last start that is
not above it. -/
theorem floorIndex_ofLines (search : BinarySearch (Usize w)) (offset : BytePos w) :
    search.run (ofLines s.toSlice).lineStarts offset.toUsize ≠ .error 0 ∧
      BinarySearch.IsFloor (ofLines s.toSlice).lineStarts offset.toUsize
        (search.floorIndex (ofLines s.toSlice).lineStarts offset.toUsize) := by
  have h0 : (ofLines s.toSlice).lineStarts[0]? = some 0 := rfl
  have hzero : (0 : Usize w) ≤ offset.toUsize := by
    show (BitVec.ofNat w 0).toNat ≤ offset.toNat
    rw [BitVec.toNat_ofNat, Nat.zero_mod]; exact Nat.zero_le _
  exact search.floorIndex_spec pairwise_ofLines h0 hzero

/-- **The line of an offset** is the number of line ends in front of it. -/
theorem lineForOffset_spec (search : BinarySearch (Usize w)) {offset : BytePos w}
    (h : offset.toNat ≤ s.toList.length) :
    (ofLines s.toSlice).lineForOffset search offset =
      some (BitVec.ofNat w (Nat.count (EndsLine s.toList) offset.toNat)) := by
  rw [lineForOffset_eq_floorIndex search h]
  obtain ⟨-, y, hy, hle, hnext⟩ := floorIndex_ofLines search offset
  rw [getElem?_ofLines, Option.map_eq_some_iff] at hy
  obtain ⟨c, hc, rfl⟩ := hy
  have hle' : (BitVec.ofNat w c).toNat ≤ offset.toNat := hle
  rw [toNat_ofNat_start (List.mem_of_getElem? hc)] at hle'
  have hbetween := Segments.count_eq_of_between (EndsLine s.toList) hc hle' h fun d hd => by
    have hword : offset.toUsize < BitVec.ofNat w d := by
      refine hnext _ _ ?_ (Nat.lt_succ_self _)
      rw [getElem?_ofLines]
      exact Option.map_eq_some_iff.mpr ⟨d, hd, rfl⟩
    have hlt : offset.toNat < (BitVec.ofNat w d).toNat := hword
    rwa [toNat_ofNat_start (List.mem_of_getElem? hd)] at hlt
  rw [hbetween.1]

theorem le_of_lineForOffset (search : BinarySearch (Usize w)) {offset : BytePos w} {line : Usize w}
    (h : (ofLines s.toSlice).lineForOffset search offset = some line) :
    offset.toNat ≤ s.toList.length := by
  rw [← Nat.not_lt, ← lineForOffset_eq_none_iff search, h]
  exact Option.some_ne_none line

theorem lineColumn_none (search : BinarySearch (Usize w)) {offset : BytePos w}
    (h : s.toList.length < offset.toNat) :
    (ofLines s.toSlice).lineColumn search offset = .ok none := by
  rw [lineColumn, lineForOffset_none search h]

theorem toNat_count {offset : BytePos w} (h : offset.toNat ≤ s.toList.length) :
    (BitVec.ofNat w (Nat.count (EndsLine s.toList) offset.toNat)).toNat =
      Nat.count (EndsLine s.toList) offset.toNat := by
  have hlt := s.length_succ_lt
  have hcount : Nat.count (EndsLine s.toList) offset.toNat ≤ offset.toNat := Nat.count_le _
  exact Words.toNat_ofNat_of_lt (by omega)

theorem lineStarts_getElem?_count {l : List UInt8} {o : Nat} (h : o ≤ l.length) :
    (MmapCursor.lineStarts l)[Nat.count (EndsLine l) o]? = some (Segments.startOf (EndsLine l) o) :=
  Segments.starts_getElem?_count (EndsLine l) h

theorem lt_next {l : List UInt8} {o d : Nat} (h : o ≤ l.length)
    (hd : (MmapCursor.lineStarts l)[Nat.count (EndsLine l) o + 1]? = some d) : o < d := by
  apply Nat.lt_of_not_le
  intro hdo
  have hcount := (Segments.start_le_iff (EndsLine l) hd h).mp hdo
  omega

theorem lt_next_getD {l : List UInt8} {o : Nat} (h : o < l.length) :
    o < (MmapCursor.lineStarts l)[Nat.count (EndsLine l) o + 1]?.getD l.length := by
  cases hd : (MmapCursor.lineStarts l)[Nat.count (EndsLine l) o + 1]? with
  | none => exact h
  | some d => exact lt_next (Nat.le_of_lt h) hd

/-- Indexing with a line that was looked up does not fault. -/
theorem lineStartAt_spec {offset : BytePos w} (h : offset.toNat ≤ s.toList.length) :
    (ofLines s.toSlice).lineStartAt
        (BitVec.ofNat w (Nat.count (EndsLine s.toList) offset.toNat)) =
      .ok (BitVec.ofNat w (Segments.startOf (EndsLine s.toList) offset.toNat)) := by
  rw [lineStartAt, getElem?_ofLines, toNat_count h, lineStarts_getElem?_count h]
  rfl

/-- **The line and the column of an offset**: its segment, and its distance from the start of the
segment, both counted from 1. -/
theorem lineColumn_spec (search : BinarySearch (Usize w)) {offset : BytePos w}
    (h : offset.toNat ≤ s.toList.length) :
    ∃ line column, (ofLines s.toSlice).lineColumn search offset = .ok (some (line, column)) ∧
      line.toNat = (Segments.locate (EndsLine s.toList) offset.toNat).1 + 1 ∧
      column.toNat = (Segments.locate (EndsLine s.toList) offset.toNat).2 + 1 := by
  have hlt := s.length_succ_lt
  have hline := toNat_count h
  have hcount : Nat.count (EndsLine s.toList) offset.toNat ≤ offset.toNat := Nat.count_le _
  have hcol : (Usize.saturatingSub offset.toUsize
      (BitVec.ofNat w (Segments.startOf (EndsLine s.toList) offset.toNat))).toNat =
        offset.toNat - Segments.startOf (EndsLine s.toList) offset.toNat := by
    rw [Usize.toNat_saturatingSub,
      toNat_ofNat_start (List.mem_of_getElem? (lineStarts_getElem?_count h))]
    rfl
  unfold lineColumn
  simp only [lineForOffset_spec search h, lineStartAt_spec h, bind, Except.bind, pure, Except.pure,
    Usize.plus_literal (k := 1) (show _ < 2 ^ w by rw [hline]; omega),
    Usize.plus_literal (k := 1) (show _ < 2 ^ w by rw [hcol]; omega)]
  refine ⟨_, _, rfl, ?_, ?_⟩
  · rw [Words.toNat_ofNat_of_lt (by rw [hline]; omega), hline]; rfl
  · rw [Words.toNat_ofNat_of_lt (by rw [hcol]; omega), hcol]; rfl

end LineIndex

/-! ## No lookup panics -/

namespace LineIndex

variable {s : Snapshot w}

/-- `line + 1` is computed only for a line that there is, and the range is in order. -/
theorem lineRange_total (line : Usize w) :
    ∃ range, (ofLines s.toSlice).lineRange line = .ok range ∧
      (range = none ↔ (ofLines s.toSlice).numLines ≤ line) := by
  rw [← lineStart_eq_none_iff]
  rcases Nat.lt_or_ge line.toNat (MmapCursor.lineStarts s.toList).length with hlt | hge
  · have hget := List.getElem?_eq_getElem hlt
    obtain ⟨start, hstart, -⟩ := lineStart_spec line hget
    obtain ⟨range, hrange, -⟩ := lineRange_spec line hget
    refine ⟨some range, hrange, ?_⟩
    rw [hstart]
    simp
  · exact ⟨none, lineRange_none hge, by simp [lineStart_none hge]⟩

/-- The index and both `+ 1` are computed only for a line that was found. -/
theorem lineColumn_total (search : BinarySearch (Usize w)) (offset : BytePos w) :
    ∃ pair, (ofLines s.toSlice).lineColumn search offset = .ok pair ∧
      (pair = none ↔ s.toList.length < offset.toNat) := by
  rcases Nat.lt_or_ge s.toList.length offset.toNat with hlt | hge
  · exact ⟨none, lineColumn_none search hlt, by simp [hlt]⟩
  · obtain ⟨line, column, heq, -⟩ := lineColumn_spec search hge
    refine ⟨some (line, column), heq, ?_⟩
    simpa using hge

theorem lineStartAt_le (search : BinarySearch (Usize w)) {offset : BytePos w} {line : Usize w}
    (h : (ofLines s.toSlice).lineForOffset search offset = some line) :
    ∃ start, (ofLines s.toSlice).lineStartAt line = .ok start ∧ start ≤ offset.toUsize := by
  have hle := le_of_lineForOffset search h
  rw [lineForOffset_spec search hle, Option.some.injEq] at h
  subst h
  refine ⟨_, lineStartAt_spec hle, ?_⟩
  show (BitVec.ofNat w _).toNat ≤ offset.toNat
  rw [toNat_ofNat_start (List.mem_of_getElem? (lineStarts_getElem?_count hle))]
  exact Segments.startOf_le _ _

/-- **No lookup panics**, and which of them have an answer. -/
theorem lookups_total (build : Build w) (search : BinarySearch (Usize w)) (bytes : Slice w)
    (hw : 0 < w) (hlen : bytes.toList.length ≤ 2 ^ (w - 1) - 1) :
    ∃ idx, new build bytes = .ok idx ∧
      (∀ line : Usize w, (idx.lineStart line = none ↔ idx.numLines ≤ line) ∧
        ∃ range, idx.lineRange line = .ok range ∧ (range = none ↔ idx.numLines ≤ line)) ∧
      ∀ offset : BytePos w,
        (idx.lineForOffset search offset = none ↔ bytes.toList.length < offset.toNat) ∧
        (∃ pair, idx.lineColumn search offset = .ok pair ∧
          (pair = none ↔ bytes.toList.length < offset.toNat)) ∧
        ∀ line, idx.lineForOffset search offset = some line →
          ∃ start, idx.lineStartAt line = .ok start ∧ start ≤ offset.toUsize := by
  obtain ⟨s, rfl⟩ : ∃ s : Snapshot w, s.toSlice = bytes :=
    ⟨⟨bytes, (Snapshot.isize_bound_iff hw).mpr hlen⟩, rfl⟩
  refine ⟨_, new_eq build s.toSlice, fun line => ⟨lineStart_eq_none_iff, lineRange_total line⟩,
    fun offset => ⟨lineForOffset_eq_none_iff search, lineColumn_total search offset,
      fun line => lineStartAt_le search⟩⟩

/-- The largest arguments, on a 64-bit target. -/
theorem lookups_total_max :
    ∃ idx, new .fallback (⟨[97, 13, 10], by decide⟩ : Slice 64) = .ok idx ∧
      (∃ range, idx.lineRange Usize.MAX = .ok range) ∧
      ∃ pair, idx.lineColumn BinarySearch.halving ⟨Usize.MAX⟩ = .ok pair ∧ pair = none := by
  obtain ⟨idx, hnew, hlines, hoffsets⟩ := lookups_total .fallback BinarySearch.halving
    (⟨[97, 13, 10], by decide⟩ : Slice 64) (by decide) (by decide)
  obtain ⟨range, hrange, -⟩ := (hlines Usize.MAX).2
  obtain ⟨pair, hpair, hnone⟩ := (hoffsets ⟨Usize.MAX⟩).2.1
  exact ⟨idx, hnew, ⟨range, hrange⟩, pair, hpair, hnone.mpr (by decide)⟩

end LineIndex

end MmapCursor
