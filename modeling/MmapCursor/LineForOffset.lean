import MmapCursor.Lookup

/-!
# The line of an offset

`LineIndex::line_for_offset` searches the recorded starts.  Two independent descriptions of the
line it returns:

* `lineForOffset_eq_linear` — the one line that the offset is on (`LineIndex.OnLine`), the line a
  linear scan over the starts finds; the search never asks for the line in front of the first.
* `lines_eq_counts` — numbers of LF and CR bytes, of the whole snapshot for `num_lines` and in
  front of the offset for `line_for_offset`.
-/

set_option autoImplicit false

namespace MmapCursor

variable {w : Nat}

namespace LineIndex

/-- `line` begins at or before `offset`, and is the last line or the next one begins after it. -/
def OnLine (idx : LineIndex w) (offset : BytePos w) (line : Usize w) : Prop :=
  line < idx.numLines ∧ (∃ start, idx.lineStart line = some start ∧ start ≤ offset) ∧
    (line.toNat + 1 = idx.numLines.toNat ∨
      ∃ next, idx.lineStart (BitVec.ofNat w (line.toNat + 1)) = some next ∧ offset < next)

variable {s : Snapshot w}

theorem OnLine.toNat_eq {offset : BytePos w} (h : offset.toNat ≤ s.toList.length) {line : Usize w}
    (hon : (ofLines s.toSlice).OnLine offset line) :
    line.toNat = Nat.count (EndsLine s.toList) offset.toNat := by
  have hlines := toNat_numLines s
  obtain ⟨-, ⟨start, hstart, hle⟩, hnext⟩ := hon
  rw [lineStart_eq_some_iff] at hstart
  refine (Segments.count_eq_of_between (EndsLine s.toList) hstart hle h fun d hd => ?_).1.symm
  have hmore : line.toNat + 1 < (MmapCursor.lineStarts s.toList).length :=
    (List.getElem?_eq_some_iff.mp hd).1
  rcases hnext with hlast | ⟨next, hnext, hlt⟩
  · omega
  · rw [lineStart_eq_some_iff, toNat_ofNat_line hmore] at hnext
    have hval : d = next.toNat := Option.some.inj (hd.symm.trans hnext)
    rw [hval]
    exact hlt

theorem onLine_count {offset : BytePos w} (h : offset.toNat ≤ s.toList.length) :
    (ofLines s.toSlice).OnLine offset
      (BitVec.ofNat w (Nat.count (EndsLine s.toList) offset.toNat)) := by
  have hlines := toNat_numLines s
  have hline := toNat_count h
  have hget := lineStarts_getElem?_count h
  obtain ⟨start, hstart, hval⟩ := lineStart_spec
    (BitVec.ofNat w (Nat.count (EndsLine s.toList) offset.toNat)) (by rw [hline]; exact hget)
  have hlt := (List.getElem?_eq_some_iff.mp hget).1
  refine ⟨?_, ⟨start, hstart, ?_⟩, ?_⟩
  · show BitVec.toNat _ < (ofLines s.toSlice).numLines.toNat
    rw [hlines, hline]
    exact hlt
  · show start.toNat ≤ offset.toNat
    rw [hval]
    exact Segments.startOf_le _ _
  · rw [hline]
    rcases Nat.lt_or_ge (Nat.count (EndsLine s.toList) offset.toNat + 1)
      (MmapCursor.lineStarts s.toList).length with hmore | hlast
    · have hnext := List.getElem?_eq_getElem hmore
      obtain ⟨next, hnext', hval'⟩ := lineStart_spec (s := s)
        (BitVec.ofNat w (Nat.count (EndsLine s.toList) offset.toNat + 1))
        (by rw [toNat_ofNat_line hmore]; exact hnext)
      refine Or.inr ⟨next, hnext', ?_⟩
      show offset.toNat < next.toNat
      rw [hval']
      exact lt_next h hnext
    · exact Or.inl (by omega)

theorem isFloor_count (search : BinarySearch (Usize w)) {offset : BytePos w}
    (h : offset.toNat ≤ s.toList.length) :
    (∀ i, search.run (ofLines s.toSlice).lineStarts offset.toUsize = .error i →
        1 ≤ BitVec.ofNat w i) ∧
      BinarySearch.IsFloor (ofLines s.toSlice).lineStarts offset.toUsize
        (Nat.count (EndsLine s.toList) offset.toNat) := by
  obtain ⟨hne, hfloor⟩ := floorIndex_ofLines (s := s) search offset
  have hlen : (ofLines s.toSlice).lineStarts.length = (MmapCursor.lineStarts s.toList).length :=
    List.length_map _
  have hword := length_lineStarts_lt s
  constructor
  · intro i hi
    have hbound := (search.error_spec (BinarySearch.pairwise_le_of_lt pairwise_ofLines) hi).1
    have hpos : i ≠ 0 := by
      rintro rfl
      exact hne hi
    show (1 : Usize w).toNat ≤ (BitVec.ofNat w i).toNat
    rw [Usize.toNat_literal (k := 1) (Nat.succ_pos _) s.length_succ_lt,
      Words.toNat_ofNat_of_lt (by omega)]
    omega
  · have hline := lineForOffset_eq_floorIndex search h
    rw [lineForOffset_spec search h, Option.some.injEq] at hline
    obtain ⟨y, hy, -⟩ := id hfloor
    have hlt := (List.getElem?_eq_some_iff.mp hy).1
    rw [← toNat_count h, hline, Words.toNat_ofNat_of_lt (by omega)]
    exact hfloor

theorem mem_lineRange_count {offset : BytePos w} (h : offset.toNat < s.toList.length) :
    ∃ r, (ofLines s.toSlice).lineRange
        (BitVec.ofNat w (Nat.count (EndsLine s.toList) offset.toNat)) = .ok (some r) ∧
      r.start ≤ offset ∧ offset < r.end_ := by
  have hle := Nat.le_of_lt h
  have hval := toNat_count hle
  obtain ⟨r, hr, hstart, hend⟩ := lineRange_spec
    (BitVec.ofNat w (Nat.count (EndsLine s.toList) offset.toNat))
    (by rw [hval]; exact lineStarts_getElem?_count hle)
  refine ⟨r, hr, ?_, ?_⟩
  · show r.start.toNat ≤ offset.toNat
    rw [hstart]
    exact Segments.startOf_le _ _
  · show offset.toNat < r.end_.toNat
    rw [hend, hval]
    exact lt_next_getD h

/-- **The binary search finds the line that the offset is on**, which a linear scan finds too. -/
theorem lineForOffset_eq_linear (build : Build w) (search : BinarySearch (Usize w))
    (bytes : Snapshot w) :
    ∃ idx, new build bytes.toSlice = .ok idx ∧
      (∀ o : BytePos w, idx.lineForOffset search o = none ↔ bytes.toList.length < o.toNat) ∧
      (∀ o : BytePos w, o.toNat ≤ bytes.toList.length → ∃ line,
        idx.lineForOffset search o = some line ∧
        (∀ line', idx.OnLine o line' ↔ line' = line) ∧
        BinarySearch.linearFloor o.toUsize idx.lineStarts = some line.toNat ∧
        (∀ i, search.run idx.lineStarts o.toUsize = .error i → 1 ≤ BitVec.ofNat w i) ∧
        (o.toNat < bytes.toList.length → ∃ r, idx.lineRange line = .ok (some r) ∧
          r.start ≤ o ∧ o < r.end_)) ∧
      ∀ (o o' : BytePos w) (line line' : Usize w), o ≤ o' →
        idx.lineForOffset search o = some line → idx.lineForOffset search o' = some line' →
        line ≤ line' := by
  refine ⟨_, new_eq build bytes.toSlice, fun o => lineForOffset_eq_none_iff search,
    fun o ho => ?_, ?_⟩
  · obtain ⟨hclamp, hfloor⟩ := isFloor_count search ho
    refine ⟨_, lineForOffset_spec search ho, fun line' => ?_, ?_, hclamp, mem_lineRange_count⟩
    · constructor
      · intro hon
        apply Words.eq_of_toNat
        rw [hon.toNat_eq ho, toNat_count ho]
      · rintro rfl
        exact onLine_count ho
    · rw [BinarySearch.linearFloor_eq_some_iff, toNat_count ho]
      exact hfloor
  · intro o o' line line' hle hline hline'
    have ho' := le_of_lineForOffset search hline'
    have hoo : o.toNat ≤ o'.toNat := hle
    have ho : o.toNat ≤ bytes.toList.length := Nat.le_trans hoo ho'
    rw [lineForOffset_spec search ho, Option.some.injEq] at hline
    rw [lineForOffset_spec search ho', Option.some.injEq] at hline'
    show line.toNat ≤ line'.toNat
    rw [← hline, ← hline', toNat_count ho, toNat_count ho']
    exact Nat.count_monotone _ hoo

/-! ## Lines by counting bytes -/

/-- A CR at `i` with an LF directly behind it. -/
def PairAt (l : List UInt8) (i : Nat) : Prop := l[i]? = some CR ∧ l[i + 1]? = some LF

/-- A CR at `i` with no LF directly behind it. -/
def LoneCRAt (l : List UInt8) (i : Nat) : Prop := l[i]? = some CR ∧ l[i + 1]? ≠ some LF

instance (l : List UInt8) : DecidablePred (PairAt l) := fun i =>
  inferInstanceAs (Decidable (l[i]? = some CR ∧ l[i + 1]? = some LF))

instance (l : List UInt8) : DecidablePred (LoneCRAt l) := fun i =>
  inferInstanceAs (Decidable (l[i]? = some CR ∧ l[i + 1]? ≠ some LF))

theorem count_endsLine (l : List UInt8) (n : Nat) :
    Nat.count (EndsLine l) n = (l.take n).count LF + Nat.count (LoneCRAt l) n := by
  rw [← Segments.count_getElem?]
  refine Segments.count_of_iff_or (fun i => Iff.rfl) (fun i hlf hcr => ?_) n
  exact LF_ne_CR (Option.some.inj (hlf.symm.trans hcr.1))

theorem count_CR (l : List UInt8) (n : Nat) :
    (l.take n).count CR = Nat.count (PairAt l) n + Nat.count (LoneCRAt l) n := by
  rw [← Segments.count_getElem?]
  refine Segments.count_of_iff_or (fun i => ?_) (fun i hpair hlone => hlone.2 hpair.2) n
  by_cases hlf : l[i + 1]? = some LF
  · simp [PairAt, LoneCRAt, hlf]
  · simp [PairAt, LoneCRAt, hlf]

/-- **Lines are counted by their terminators.** -/
theorem lines_eq_counts (build : Build w) (search : BinarySearch (Usize w)) (bytes : Snapshot w) :
    ∃ idx, new build bytes.toSlice = .ok idx ∧
      idx.numLines.toNat + Nat.count (PairAt bytes.toList) bytes.toList.length =
        1 + bytes.toList.count LF + bytes.toList.count CR ∧
      ∀ p : BytePos w, p.toNat ≤ bytes.toList.length → ∃ line,
        idx.lineForOffset search p = some line ∧
          line.toNat = (bytes.toList.take p.toNat).count LF +
            Nat.count (LoneCRAt bytes.toList) p.toNat := by
  refine ⟨_, new_eq build bytes.toSlice, ?_, fun p hp => ⟨_, lineForOffset_spec search hp, ?_⟩⟩
  · have hends := count_endsLine bytes.toList bytes.toList.length
    have hcrs := count_CR bytes.toList bytes.toList.length
    rw [List.take_length] at hends hcrs
    rw [toNat_numLines, length_lineStarts]
    omega
  · rw [toNat_count hp, count_endsLine]

end LineIndex

end MmapCursor
