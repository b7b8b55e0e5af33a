import MmapCursor.Document
import MmapCursor.Lookup
import MmapCursor.Reader

/-!
# The lines that an index reports

`Reports idx bytes ls`: the line ranges of `idx`, sliced out of the snapshot by a cursor, are the
texts `ls`, and there are no others.

* `reports_lines` — the index of a snapshot reports the lines of its bytes;
* `lines_follow_grammar` — these are the lines of the grammar: nothing lost, one terminator each,
  no pair split;
* `index_undoes_join` — the index built over a rendered document reports the document's lines, up
  to the pairs that read as one line.
-/

set_option autoImplicit false

namespace MmapCursor

variable {w : Nat}

namespace LineIndex

/-- The line ranges of `idx` are ranges of `bytes` that hold the texts `ls`. -/
structure Reports (idx : LineIndex w) (bytes : Slice w) (ls : List (List UInt8)) : Prop where
  numLines_eq : idx.numLines.toNat = ls.length
  lineRange_none : ∀ line : Usize w, ls.length ≤ line.toNat → idx.lineRange line = .ok none
  slice_eq : ∀ (line : Usize w) (text : List UInt8), ls[line.toNat]? = some text →
    ∃ r, idx.lineRange line = .ok (some r) ∧ (Cursor.new bytes).slice r = .ok (some text)

theorem reports_lines (s : Snapshot w) :
    Reports (ofLines s.toSlice) s.toSlice (lines s.toList) where
  numLines_eq := by rw [toNat_numLines, length_lines]
  lineRange_none line h := by
    rw [length_lines] at h
    exact LineIndex.lineRange_none h
  slice_eq line text h := by
    have hlt := (List.getElem?_eq_some_iff.mp h).1
    rw [length_lines] at hlt
    have hget := List.getElem?_eq_getElem hlt
    obtain ⟨r, hr, hstart, hend⟩ := lineRange_spec line hget
    have hpiece := Segments.pieces_getElem? s.toList hget
    rw [← hstart, ← hend] at hpiece
    have htext : s.toList.extract r.start.toNat r.end_.toNat = text :=
      Option.some.inj (hpiece.symm.trans h)
    have hbound : r.end_.toNat ≤ s.toList.length := by
      rw [hend]
      exact next_le s.toList _
    refine ⟨r, hr, ?_⟩
    rw [Cursor.slice_eq (Cursor.new_inv s.toSlice)]
    show Except.ok (if r.end_.toNat ≤ s.toList.length then _ else _) = _
    rw [if_pos hbound, ← htext]
    rfl

theorem flatten_lines (l : List UInt8) : (lines l).flatten = l := by
  rw [Document.lines_eq_parse]
  exact Document.render_parse l

/-- A CR and its LF lie on the two sides of the offset. -/
def InsidePair (l : List UInt8) (o : Nat) : Prop :=
  ∃ i, i + 1 = o ∧ l[i]? = some CR ∧ l[o]? = some LF

theorem not_insidePair {l : List UInt8} {c : Nat} (h : c ∈ MmapCursor.lineStarts l) :
    ¬ InsidePair l c := by
  rintro ⟨i, rfl, hcr, hlf⟩
  rcases (Segments.mem_starts (EndsLine l)).mp h with h0 | ⟨j, -, hend, hj⟩
  · omega
  · have hij : j = i := by omega
    subst hij
    exact (endsLine_of_CR hcr).mp hend hlf

theorem lineRange_bounds {s : Snapshot w} {line : Usize w} {r : ByteRange w}
    (h : (ofLines s.toSlice).lineRange line = .ok (some r)) :
    r.start.toNat ∈ MmapCursor.lineStarts s.toList ∧
      (r.end_.toNat ∈ MmapCursor.lineStarts s.toList ∨ r.end_.toNat = s.toList.length) := by
  rcases Nat.lt_or_ge line.toNat (MmapCursor.lineStarts s.toList).length with hlt | hge
  · have hget := List.getElem?_eq_getElem hlt
    obtain ⟨hstart, hend⟩ := bounds_of_lineRange h hget
    refine ⟨by rw [hstart]; exact List.mem_of_getElem? hget, ?_⟩
    rw [hend]
    cases hn : (MmapCursor.lineStarts s.toList)[line.toNat + 1]? with
    | none => exact Or.inr rfl
    | some d => exact Or.inl (List.mem_of_getElem? hn)
  · rw [LineIndex.lineRange_none hge] at h
    cases h

/-- **The reported lines are those of the grammar.** -/
theorem lines_follow_grammar (build : Build w) (bytes : Snapshot w) :
    ∃ idx, new build bytes.toSlice = .ok idx ∧ ∃ slices : List (List UInt8),
      -- a range for exactly the lines below `num_lines`, and each of them slices
      slices.length = idx.numLines.toNat ∧
      (∀ line : Usize w, idx.numLines.toNat ≤ line.toNat → idx.lineRange line = .ok none) ∧
      (∀ line : Usize w, line.toNat < idx.numLines.toNat → ∃ r text,
        idx.lineRange line = .ok (some r) ∧
          (Cursor.new bytes.toSlice).slice r = .ok (some text) ∧
          slices[line.toNat]? = some text) ∧
      slices.flatten = bytes.toList ∧
      (∀ i text, slices[i]? = some text → i + 1 < slices.length →
        ∃ (body : List UInt8) (t : Terminator), Clean body ∧ text = body ++ t.bytes) ∧
      (∃ last, slices.getLast? = some last ∧ Clean last) ∧
      ∀ (line : Usize w) (r : ByteRange w), idx.lineRange line = .ok (some r) →
        ¬ InsidePair bytes.toList r.start.toNat ∧ ¬ InsidePair bytes.toList r.end_.toNat := by
  have hR := reports_lines bytes
  refine ⟨_, new_eq build bytes.toSlice, lines bytes.toList, hR.numLines_eq.symm, ?_, ?_,
    flatten_lines bytes.toList, ?_, ?_, ?_⟩
  · intro line h
    rw [hR.numLines_eq] at h
    exact hR.lineRange_none line h
  · intro line h
    rw [hR.numLines_eq] at h
    have hget := List.getElem?_eq_getElem h
    obtain ⟨r, hr, hs⟩ := hR.slice_eq line _ hget
    exact ⟨r, _, hr, hs, hget⟩
  · intro i text h hi
    rw [Document.lines_eq_parse] at h hi
    rw [Document.length_texts] at hi
    rw [Document.texts_getElem?_line (by omega), Option.map_eq_some_iff] at h
    obtain ⟨ln, -, rfl⟩ := h
    exact ⟨ln.body, ln.terminator, ln.clean, rfl⟩
  · refine ⟨(Document.parse bytes.toList).last, ?_, (Document.parse bytes.toList).clean⟩
    rw [Document.lines_eq_parse, Document.getLast?_texts]
  · intro line r h
    obtain ⟨hstart, hend⟩ := lineRange_bounds h
    refine ⟨not_insidePair hstart, ?_⟩
    rcases hend with hend | hend
    · exact not_insidePair hend
    · rintro ⟨i, -, -, hlf⟩
      rw [hend, List.getElem?_eq_none (Nat.le_refl _)] at hlf
      cases hlf

/-! ## Documents -/

theorem reports_render {d : Document} {bytes : Snapshot w} (h : bytes.toList = d.render) :
    Reports (ofLines bytes.toSlice) bytes.toSlice d.merge.texts := by
  rw [← Document.lines_render, ← h]
  exact reports_lines bytes

theorem Reports.exists_line {idx : LineIndex w} {bytes : Slice w} {ls : List (List UInt8)}
    (hR : Reports idx bytes ls) {i : Nat} {text : List UInt8} (h : ls[i]? = some text) :
    ∃ (line : Usize w) (r : ByteRange w), line.toNat = i ∧ idx.lineRange line = .ok (some r) ∧
      (Cursor.new bytes).slice r = .ok (some text) := by
  have hlt := (List.getElem?_eq_some_iff.mp h).1
  rw [← hR.numLines_eq] at hlt
  have hval : (BitVec.ofNat w i).toNat = i :=
    Words.toNat_ofNat_of_lt (Nat.lt_trans hlt idx.numLines.isLt)
  obtain ⟨r, hr, hs⟩ := hR.slice_eq (BitVec.ofNat w i) text (by rw [hval]; exact h)
  exact ⟨_, r, hval, hr, hs⟩

/-- **The index undoes joining lines**, and reads each pair that splits as one CR LF line. -/
theorem index_undoes_join (build : Build w) (d : Document) (bytes : Snapshot w)
    (h : bytes.toList = d.render) :
    ∃ idx, new build bytes.toSlice = .ok idx ∧
      ((∀ i a b, d.lines[i]? = some a → d.lines[i + 1]? = some b → ¬ Splits a b) →
        idx.numLines.toNat = d.lines.length + 1 ∧
        (∀ (line : Usize w) (ln : Line), d.lines[line.toNat]? = some ln →
          ∃ r, idx.lineRange line = .ok (some r) ∧ (Cursor.new bytes.toSlice).slice r =
            .ok (some (ln.body ++ ln.terminator.bytes))) ∧
        ∀ line : Usize w, line.toNat = d.lines.length →
          ∃ r, idx.lineRange line = .ok (some r) ∧
            (Cursor.new bytes.toSlice).slice r = .ok (some d.last)) ∧
      (∀ pre a b post, d.lines = pre ++ a :: b :: post → Splits a b →
        ∃ (line : Usize w) (r : ByteRange w), line.toNat = (mergeLines pre).length ∧
          idx.lineRange line = .ok (some r) ∧
          (Cursor.new bytes.toSlice).slice r = .ok (some (a.body ++ [CR, LF]))) ∧
      Reports idx bytes.toSlice ((mergeLines d.lines).map Line.bytes ++ [d.last]) := by
  have hR := reports_render h
  refine ⟨_, new_eq build bytes.toSlice, fun hun => ?_, fun pre a b post hlines hsplit => ?_, hR⟩
  · have hchain : d.Unambiguous := by
      apply List.isChain_iff_getElem.mpr
      intro i hi
      exact hun i _ _ (List.getElem?_eq_getElem (by omega)) (List.getElem?_eq_getElem hi)
    rw [Document.merge_of_unambiguous hchain] at hR
    refine ⟨?_, ?_, ?_⟩
    · rw [hR.numLines_eq, Document.length_texts]
    · intro line ln hln
      apply hR.slice_eq
      rw [Document.texts_getElem?_line (List.getElem?_eq_some_iff.mp hln).1, hln]
      rfl
    · intro line hline
      apply hR.slice_eq
      rw [hline, Document.texts_getElem?_last]
  · exact hR.exists_line (Document.texts_merge_pair hlines hsplit)

/-- `a CR`, an empty line with LF, `b CR LF` and `c`: the first two read as one line. -/
theorem index_undoes_join_pair :
    ∃ idx : LineIndex 64,
      new .fallback (Snapshot.ofList 64 [97, 13, 10, 98, 13, 10, 99] (by decide)).toSlice =
        .ok idx ∧
      Reports idx (Snapshot.ofList 64 [97, 13, 10, 98, 13, 10, 99] (by decide)).toSlice
        [[97, 13, 10], [98, 13, 10], [99]] := by
  obtain ⟨idx, hidx, -, -, hR⟩ := index_undoes_join .fallback
    ⟨[⟨[97], by decide, .cr⟩, ⟨[], by decide, .lf⟩, ⟨[98], by decide, .crlf⟩], [99], by decide⟩
    (Snapshot.ofList 64 [97, 13, 10, 98, 13, 10, 99] (by decide)) rfl
  exact ⟨idx, hidx, hR⟩

end LineIndex

end MmapCursor
