import MmapCursor.CursorRuns
import MmapCursor.Lookup

/-!
# Scanning lines with a cursor

A client that finds the lines itself: it moves a cursor to the next CR or LF, over the terminator,
and records where it then stands.  `lineScan_records_lineStarts`: the scan terminates, and records
the line starts of `LineIndex::new` over the same bytes.

The loop invariant (`ScanInv`) is that the recorded positions are the starts up to the position of
the cursor; `scanRound_spec` is one round.
-/

set_option autoImplicit false

namespace MmapCursor

variable {w : Nat}

namespace Cursor

/-- One round: to the terminator and over it. -/
def scanRound (st : Cursor w × List (BytePos w)) :
    Res (ForInStep (Cursor w × List (BytePos w))) :=
  if st.1.isEof then .ok (.done st)
  else do
    let c ← st.1.advanceUntil fun b => b != CR && b != LF
    if c.isEof then .ok (.done (c, st.2))
    else do
      let (isPair, c) ← c.advanceIfStartsWith [CR, LF]
      let c := if isPair then c else c.advance
      .ok (.yield (c, st.2 ++ [c.position]))

/-- The scan of all lines: the cursor at the end, and the recorded positions. -/
def lineScan (fuel : Nat) (bytes : Slice w) : Res (Cursor w × List (BytePos w)) :=
  Loops.loop .outOfFuel scanRound fuel (new bytes, [BytePos.ZERO])

/-- The starts up to the cursor have been recorded. -/
structure ScanInv (bytes : Slice w) (st : Cursor w × List (BytePos w)) : Prop where
  inv : st.1.Inv
  source_eq : st.1.source = bytes
  recorded : st.2.map BytePos.toNat = Segments.starts (EndsLine bytes.toList) st.1.pos.toNat

theorem getElem?_pos_add (c : Cursor w) (i : Nat) :
    c.source.toList[c.pos.toNat + i]? = c.unread[i]? := by
  rw [unread, List.getElem?_drop]

theorem pos_of_unread {c c' : Cursor w} (h : c.Inv) (h' : c'.Inv) (hs : c'.source = c.source)
    {n : Nat} (hu : c'.unread = c.unread.drop n) (hn : n ≤ c.unread.length) :
    c'.pos.toNat = c.pos.toNat + n := by
  have hsplit : c.unread = c.unread.take n ++ c'.unread := by
    rw [hu, List.take_append_drop]
  rw [pos_of_append h h' hs hsplit, List.length_take_of_le hn]

theorem starts_dropWhile {c c' : Cursor w} (h : c.Inv) (h' : c'.Inv) (hs : c'.source = c.source)
    (hu : c'.unread = c.unread.dropWhile fun b => b != CR && b != LF) :
    Segments.starts (EndsLine c.source.toList) c'.pos.toNat =
      Segments.starts (EndsLine c.source.toList) c.pos.toNat := by
  obtain ⟨hle, hext⟩ := extract_eq_of_unread h h' hs (unread_of_dropWhile hu)
  apply Segments.starts_of_none_between _ hle
  intro i hi hlt hend
  obtain ⟨b, hget⟩ : ∃ b, c.source.toList[i]? = some b := ⟨_, List.getElem?_eq_getElem hend.lt⟩
  obtain ⟨d, rfl⟩ : ∃ d, i = c.pos.toNat + d := ⟨i - c.pos.toNat, by omega⟩
  have hmem : b ∈ c.unread.takeWhile fun b => b != CR && b != LF := by
    refine List.mem_of_getElem? (i := d) ?_
    rw [← hext, List.extract_eq_take_drop, List.getElem?_take_of_lt (by omega),
      List.getElem?_drop]
    exact hget
  have hplain := List.all_eq_true.mp List.all_takeWhile b hmem
  simp only [Bool.and_eq_true, bne_iff_ne] at hplain
  exact not_endsLine hget hplain.1 hplain.2 hend

theorem ScanInv.record {bytes : Slice w} {c c' : Cursor w} {recorded : List (BytePos w)}
    (h : ScanInv bytes (c, recorded)) (h' : c'.Inv) (hs : c'.source = bytes)
    (hstarts : Segments.starts (EndsLine bytes.toList) c'.pos.toNat =
      Segments.starts (EndsLine bytes.toList) c.pos.toNat ++ [c'.pos.toNat]) :
    ScanInv bytes (c', recorded ++ [c'.position]) := by
  refine ⟨h', hs, ?_⟩
  have hrec : recorded.map BytePos.toNat = _ := h.recorded
  rw [List.map_append, hrec, hstarts]
  rfl

theorem getElem?_pos {bytes : Slice w} {c : Cursor w} (hs : c.source = bytes) {b : UInt8}
    {bs : List UInt8} (hun : c.unread = b :: bs) :
    bytes.toList[c.pos.toNat]? = some b ∧ bytes.toList[c.pos.toNat + 1]? = bs[0]? := by
  have h0 := getElem?_pos_add c 0
  have h1 := getElem?_pos_add c 1
  rw [hs, hun] at h0 h1
  exact ⟨h0, h1⟩

theorem endsLine_pos {bytes : Slice w} {c : Cursor w} (hs : c.source = bytes) {b : UInt8}
    {bs : List UInt8} (hun : c.unread = b :: bs) (hb : b = CR ∨ b = LF)
    (hp : ¬ [CR, LF] <+: c.unread) : EndsLine bytes.toList c.pos.toNat := by
  obtain ⟨h0, h1⟩ := getElem?_pos hs hun
  rcases hb with rfl | rfl
  · apply (endsLine_of_CR h0).mpr
    intro hlf
    rw [h1] at hlf
    cases bs with
    | nil => cases hlf
    | cons b' bs =>
      cases hlf
      exact hp (by rw [hun]; exact ⟨bs, rfl⟩)
  · exact endsLine_of_LF h0

theorem scanTerminator_spec {bytes : Slice w} {c : Cursor w} {recorded : List (BytePos w)}
    (h : ScanInv bytes (c, recorded)) {b : UInt8} {bs : List UInt8} (hun : c.unread = b :: bs)
    (hb : b = CR ∨ b = LF) :
    ∃ isPair c₁, c.advanceIfStartsWith [CR, LF] = .ok (isPair, c₁) ∧
      ScanInv bytes (if isPair then c₁ else c₁.advance,
        recorded ++ [(if isPair then c₁ else c₁.advance).position]) ∧
      (if isPair then c₁ else c₁.advance).unread.length < c.unread.length := by
  have hinv : c.Inv := h.inv
  have hsrc : c.source = bytes := h.source_eq
  have hpos : 0 < c.unread.length := by rw [hun]; exact Nat.succ_pos _
  obtain ⟨c₁, heq, hinv₁, hsrc₁, -, hu₁⟩ := advanceIfStartsWith_spec hinv [CR, LF]
  refine ⟨_, c₁, heq, ?_⟩
  by_cases hp : c.unread ≠ [] ∧ [CR, LF] <+: c.unread
  · rw [if_pos hp] at hu₁
    rw [decide_eq_true hp]
    obtain ⟨t, ht⟩ := hp.2
    have hlen := congrArg List.length ht
    rw [List.length_append] at hlen
    obtain ⟨h0, h1⟩ := getElem?_pos hsrc ht.symm
    have hmoved := pos_of_unread hinv hinv₁ hsrc₁ hu₁ (by omega)
    refine ⟨h.record hinv₁ (hsrc₁.trans hsrc) ?_, ?_⟩
    · rw [if_pos rfl, hmoved]
      exact starts_pair h0 h1
    · rw [if_pos rfl, hu₁, List.length_drop]
      exact Nat.sub_lt hpos (Nat.succ_pos _)
  · rw [if_neg hp] at hu₁
    rw [decide_eq_false hp]
    obtain ⟨hinv₂, hu₂⟩ := advance_spec hinv₁
    rw [hu₁] at hu₂
    have hmoved := pos_of_unread hinv hinv₂ hsrc₁ hu₂ hpos
    have hend : EndsLine bytes.toList c.pos.toNat :=
      endsLine_pos hsrc hun hb fun hpre => hp ⟨List.length_pos_iff.mp hpos, hpre⟩
    refine ⟨h.record hinv₂ (hsrc₁.trans hsrc) ?_, ?_⟩
    · simp only [Bool.false_eq_true, if_false, hmoved]
      rw [Segments.starts_succ, if_pos hend]
    · simp only [Bool.false_eq_true, if_false, hu₂, List.length_drop]
      exact Nat.sub_lt hpos Nat.one_pos

/-- **One round** keeps the invariant; it leaves the loop at EOF, or goes on with fewer bytes
unread. -/
theorem scanRound_spec {bytes : Slice w} {st : Cursor w × List (BytePos w)}
    (h : ScanInv bytes st) :
    (∃ st', scanRound st = .ok (.done st') ∧ ScanInv bytes st' ∧ st'.1.unread = []) ∨
      ∃ st', scanRound st = .ok (.yield st') ∧ ScanInv bytes st' ∧
        st'.1.unread.length < st.1.unread.length := by
  obtain ⟨c, recorded⟩ := st
  have hinv : c.Inv := h.inv
  unfold scanRound
  by_cases hnil : c.unread = []
  · exact Or.inl ⟨(c, recorded), by rw [if_pos ((isEof_iff hinv).mpr hnil)], h, hnil⟩
  · simp only [if_neg fun he => hnil ((isEof_iff hinv).mp he)]
    obtain ⟨d, hd, hdinv, hsrc, -, hu⟩ := advanceUntil_spec hinv fun b => b != CR && b != LF
    have hstarts := starts_dropWhile hinv hdinv hsrc hu
    have hscan : ScanInv bytes (d, recorded) := by
      refine ⟨hdinv, hsrc.trans h.source_eq, ?_⟩
      have hrec : recorded.map BytePos.toNat = _ := h.recorded
      have hsource : c.source = bytes := h.source_eq
      rw [hsource] at hstarts
      rw [hrec, ← hstarts]
    have hle : d.unread.length ≤ c.unread.length := by
      rw [hu]; exact (List.dropWhile_suffix _).length_le
    simp only [hd, bind, Except.bind]
    cases hun : d.unread with
    | nil =>
      exact Or.inl ⟨(d, recorded), by rw [if_pos ((isEof_iff hdinv).mpr hun)], hscan, hun⟩
    | cons b bs =>
      have hb : b = CR ∨ b = LF := by
        have hnot := List.head?_dropWhile_not (fun b => b != CR && b != LF) c.unread
        rw [← hu, hun] at hnot
        simpa [Decidable.or_iff_not_imp_left] using hnot
      obtain ⟨isPair, e, he, hE, hlt⟩ := scanTerminator_spec hscan hun hb
      refine Or.inr ⟨_, ?_, hE, by rw [hun] at hle hlt; exact Nat.lt_of_lt_of_le hlt hle⟩
      rw [if_neg fun heof => by rw [(isEof_iff hdinv).mp heof] at hun; cases hun]
      simp only [he]

/-- At EOF the invariant speaks of the whole source. -/
theorem ScanInv.recorded_eq {bytes : Slice w} {c : Cursor w} {recorded : List (BytePos w)}
    (h : ScanInv bytes (c, recorded)) (hnil : c.unread = []) :
    recorded = (lineStarts bytes.toList).map fun i => BytePos.new (BitVec.ofNat w i) := by
  have hpos := pos_add_unread h.inv
  have hrec : recorded.map BytePos.toNat = _ := h.recorded
  have hsource : c.source = bytes := h.source_eq
  simp only [hnil, hsource, List.length_nil, Nat.add_zero] at hpos hrec
  rw [hpos] at hrec
  calc recorded = recorded.map id := (List.map_id _).symm
    _ = recorded.map fun p => BytePos.new (BitVec.ofNat w p.toNat) :=
        List.map_congr_left fun p _ => BytePos.ext_toNat
          (Words.toNat_ofNat_of_lt p.toNat_lt).symm
    _ = (recorded.map BytePos.toNat).map fun i => BytePos.new (BitVec.ofNat w i) := by
        rw [List.map_map]; rfl
    _ = (lineStarts bytes.toList).map fun i => BytePos.new (BitVec.ofNat w i) := by
        rw [hrec]; rfl

/-- **The scan terminates and records the line starts** of the index over the same bytes. -/
theorem lineScan_records_lineStarts (build : Build w) (bytes : Snapshot w) :
    ∃ idx, LineIndex.new build bytes.toSlice = .ok idx ∧
      ∀ fuel, bytes.toList.length < fuel → ∃ c recorded,
        lineScan fuel bytes.toSlice = .ok (c, recorded) ∧ c.isEof = true ∧
          recorded.map some =
            (List.range idx.numLines.toNat).map fun i => idx.lineStart (BitVec.ofNat w i) := by
  refine ⟨_, LineIndex.new_eq build bytes.toSlice, fun fuel hfuel => ?_⟩
  have hstart : ScanInv bytes.toSlice (new bytes.toSlice, [BytePos.ZERO]) :=
    ⟨new_inv _, rfl, by simp [new]⟩
  obtain ⟨⟨c, recorded⟩, hrun, hI, hnil⟩ := Loops.loop_total Fault.outOfFuel scanRound
    (ScanInv bytes.toSlice) (fun st => st.1.unread.length)
    (fun st => ScanInv bytes.toSlice st ∧ st.1.unread = [])
    (fun st hst => scanRound_spec hst) fuel (new bytes.toSlice, [BytePos.ZERO]) hstart
    (by rw [new_unread]; exact hfuel)
  refine ⟨c, recorded, hrun, (isEof_iff hI.inv).mpr hnil, ?_⟩
  rw [LineIndex.map_lineStart, hI.recorded_eq hnil, List.map_map]
  rfl

end Cursor

end MmapCursor
