import MmapCursor.LineColumn
import MmapCursor.LineForOffset
import MmapCursor.Lookahead

/-!
# A cursor and an index over one snapshot

Both keep the length of the snapshot for themselves and compare with it in their own way.
`cursor_index_agree`: from every reachable cursor they agree on which positions there are, on the
line that a position is in, and on the bytes of every line.
-/

set_option autoImplicit false

namespace MmapCursor

variable {w : Nat}

namespace Cursor

/-- A position stays where `seek` puts it exactly when it is not past EOF. -/
theorem seek_position_iff (c : Cursor w) (p : BytePos w) :
    (c.seek p).position = p ↔ p.toNat ≤ c.eof.toNat := by
  have hval : (c.seek p).position.toNat = min p.toNat c.eof.toNat := BytePos.toNat_min p c.eof
  constructor
  · intro h
    rw [h] at hval
    omega
  · intro h
    apply BytePos.ext_toNat
    rw [hval]
    exact Nat.min_eq_left h

theorem extract_eq_nil_iff {l : List UInt8} {a b : Nat} (hb : b ≤ l.length) :
    l.extract a b = [] ↔ b ≤ a := by
  rw [List.extract_eq_take_drop, ← List.length_eq_zero_iff, List.length_take, List.length_drop]
  omega

theorem seek_sliceNAhead {c : Cursor w} (h : c.Inv) {range : ByteRange w}
    (hend : range.end_.toNat ≤ c.source.toList.length) :
    ∃ c', (c.seek range.start).sliceNAhead range.len =
        .ok (if range.start.toNat = c.source.toList.length then none
          else some (c.source.toList.extract range.start.toNat range.end_.toNat), c') ∧
      c'.position = range.end_ := by
  obtain ⟨hinv, hu⟩ := seek_spec h range.start
  have hle : range.start.toNat ≤ range.end_.toNat := range.start_le_end
  have hempty : (c.seek range.start).unread = [] ↔
      range.start.toNat = c.source.toList.length := by
    rw [hu, List.drop_eq_nil_iff]
    omega
  refine ⟨(c.seek range.start).advanceNAhead range.len, ?_, ?_⟩
  · rw [sliceNAhead_eq hinv, if_congr hempty rfl rfl, hu, ByteRange.toNat_len,
      ← List.extract_eq_take_drop]
  · apply BytePos.ext_toNat
    have hpos : (c.seek range.start).pos.toNat = min range.start.toNat c.eof.toNat :=
      BytePos.toNat_min _ _
    show (((c.seek range.start).pos.saturatingAdd (BytePos.new range.len)).min c.eof).toNat = _
    rw [BytePos.toNat_saturatingAdd_min, hpos, BytePos.toNat_new, ByteRange.toNat_len, h.eof_eq]
    omega

end Cursor

namespace LineIndex

variable {s : Snapshot w}

theorem lineColumn_line (search : BinarySearch (Usize w)) {offset : BytePos w}
    (h : offset.toNat ≤ s.toList.length) :
    ∃ line column, (ofLines s.toSlice).lineColumn search offset = .ok (some (line, column)) ∧
      ((∃ r, (ofLines s.toSlice).lineRange (Usize.saturatingSub line 1) = .ok (some r) ∧
          r.start ≤ offset ∧ offset < r.end_) ∨
        offset.toNat = s.toList.length ∧ line = (ofLines s.toSlice).numLines) := by
  obtain ⟨line, column, heq, hline, -⟩ := lineColumn_spec search h
  have hcount : line.toNat = Nat.count (EndsLine s.toList) offset.toNat + 1 := hline
  refine ⟨line, column, heq, ?_⟩
  rcases Nat.lt_or_ge offset.toNat s.toList.length with hlt | hge
  · obtain ⟨r, hr, hmem⟩ := mem_lineRange_count hlt
    refine Or.inl ⟨r, ?_, hmem⟩
    rw [← hr]
    congr 1
    apply Words.eq_of_toNat
    rw [toNat_pred (s := s), toNat_count h]
    omega
  · have hend : offset.toNat = s.toList.length := by omega
    refine Or.inr ⟨hend, ?_⟩
    apply Words.eq_of_toNat
    rw [toNat_numLines, length_lineStarts, hcount, hend]

/-- A line ends where the next one starts, or is the last one and ends at EOF; only the last one
may be empty. -/
theorem lineRange_next {line : Usize w} (h : line < (ofLines s.toSlice).numLines) :
    ∃ start r, (ofLines s.toSlice).lineStart line = some start ∧
      (ofLines s.toSlice).lineRange line = .ok (some r) ∧ r.start = start ∧
      r.end_.toNat ≤ s.toList.length ∧
      ((ofLines s.toSlice).lineStart (BitVec.ofNat w (line.toNat + 1)) = some r.end_ ∧
          r.start < r.end_ ∨
        line.toNat + 1 = (ofLines s.toSlice).numLines.toNat ∧
          r.end_.toNat = s.toList.length) := by
  have hlt : line.toNat < (MmapCursor.lineStarts s.toList).length := by
    rw [← toNat_numLines]
    exact h
  have hget := List.getElem?_eq_getElem hlt
  obtain ⟨start, hstart, hval⟩ := lineStart_spec line hget
  obtain ⟨r, hr, hrs, hre⟩ := lineRange_spec line hget
  refine ⟨start, r, hstart, hr, BytePos.ext_toNat (hrs.trans hval.symm),
    by rw [hre]; exact next_le s.toList _, ?_⟩
  rw [toNat_numLines]
  rcases Nat.lt_or_ge (line.toNat + 1) (MmapCursor.lineStarts s.toList).length with hmore | hlast
  · have hnext := List.getElem?_eq_getElem hmore
    rw [hnext, Option.getD_some] at hre
    refine Or.inl ⟨?_, ?_⟩
    · rw [lineStart_eq_some_iff, toNat_ofNat_line hmore, hnext, hre]
    · show r.start.toNat < r.end_.toNat
      rw [hrs, hre]
      exact BinarySearch.lt_of_index_lt
        (Segments.starts_pairwise (EndsLine s.toList) s.toList.length) hget hnext
        (Nat.lt_succ_self _)
  · rw [List.getElem?_eq_none hlast, Option.getD_none] at hre
    exact Or.inr ⟨by omega, hre⟩

end LineIndex

namespace Cursor

/-- **A cursor and the index over the same bytes agree**, on bounds and contents. -/
theorem cursor_index_agree (build : Build w) (search : BinarySearch (Usize w))
    (bytes : Snapshot w) :
    ∃ idx, LineIndex.new build bytes.toSlice = .ok idx ∧ ∀ c, Reachable bytes.toSlice c →
      (∃ line column, idx.lineColumn search c.position = .ok (some (line, column)) ∧
        ((∃ r, idx.lineRange (Usize.saturatingSub line 1) = .ok (some r) ∧
            r.start ≤ c.position ∧ c.position < r.end_) ∨
          c.position = c.eof ∧ line = idx.numLines)) ∧
      (∀ p : BytePos w, (idx.lineForOffset search p).isSome ↔ (c.seek p).position = p) ∧
      ∀ line : Usize w, line < idx.numLines → ∃ start r text c',
        idx.lineStart line = some start ∧ idx.lineRange line = .ok (some r) ∧
        c.slice r = .ok (some text) ∧
        (c.seek start).sliceNAhead r.len = .ok (if text = [] then none else some text, c') ∧
        c'.position = r.end_ ∧
        (idx.lineStart (BitVec.ofNat w (line.toNat + 1)) = some r.end_ ∨
          line.toNat + 1 = idx.numLines.toNat ∧ r.end_ = c.eof) ∧
        (text = [] → line.toNat + 1 = idx.numLines.toNat ∧ start = c.eof ∧ r.end_ = c.eof) := by
  refine ⟨_, LineIndex.new_eq build bytes.toSlice, fun c hc => ?_⟩
  obtain ⟨h, hs⟩ := hc.inv
  have heof : c.eof.toNat = bytes.toList.length := by rw [h.eof_eq, hs]
  refine ⟨?_, fun p => ?_, fun line hline => ?_⟩
  · have hle : c.position.toNat ≤ bytes.toList.length := by
      rw [← hs]
      exact h.pos_le_length
    obtain ⟨line, column, heq, hmem⟩ := LineIndex.lineColumn_line search hle
    refine ⟨line, column, heq, hmem.imp_right fun hend => ⟨?_, hend.2⟩⟩
    exact BytePos.ext_toNat (hend.1.trans heof.symm)
  · rw [seek_position_iff, heof, ← Nat.not_lt, ← LineIndex.lineForOffset_eq_none_iff search,
      Option.isSome_iff_ne_none]
  · obtain ⟨start, r, hstart, hr, rfl, hend, hnext⟩ := LineIndex.lineRange_next hline
    have hend' : r.end_.toNat ≤ c.source.toList.length := by rw [hs]; exact hend
    obtain ⟨c', hread, hpos⟩ := seek_sliceNAhead h hend'
    have hle : r.start.toNat ≤ r.end_.toNat := r.start_le_end
    have hempty : c.source.toList.extract r.start.toNat r.end_.toNat = [] ↔
        r.start.toNat = c.source.toList.length := by
      rw [extract_eq_nil_iff hend', hs]
      rcases hnext with ⟨-, hlt⟩ | ⟨-, hlast⟩
      · have hlt' : r.start.toNat < r.end_.toNat := hlt
        omega
      · omega
    refine ⟨r.start, r, _, c', hstart, hr, by rw [slice_eq h, if_pos hend'], ?_, hpos, ?_, ?_⟩
    · rw [hread, if_congr hempty rfl rfl]
    · exact hnext.imp And.left fun hlast => ⟨hlast.1, BytePos.ext_toNat (hlast.2.trans heof.symm)⟩
    · intro hnil
      have hend := hempty.mp hnil
      rw [hs] at hend
      rcases hnext with ⟨-, hlt⟩ | ⟨hlines, hlast⟩
      · have hlt' : r.start.toNat < r.end_.toNat := hlt
        omega
      · exact ⟨hlines, BytePos.ext_toNat (hend.trans heof.symm),
          BytePos.ext_toNat (hlast.trans heof.symm)⟩

end Cursor

end MmapCursor
