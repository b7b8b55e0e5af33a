import MmapCursor.Lookup

/-!
# Offsets and (line, column) pairs

`LineIndex::line_column` is a table lookup.  Two independent descriptions of its answers:

* `lineColumn_eq_lexer` — a lexer that counts lines and columns while it moves over the bytes one
  at a time is at the same pair;
* `lineColumn_bijection` — the offsets `0 … len` correspond one to one, in order, to the pairs that
  the line ranges allow (`LineIndex.positions`), and an offset is its line's start plus its column
  less one.

The scan looks one byte ahead, so the line starts of `a ++ b` are those of the parts except at a
CR LF pair split by the cut.  `concat_index` states both cases for `LineIndex::new`, and that bytes
appended to `a` never renumber a position inside `a`.
-/

set_option autoImplicit false

namespace MmapCursor

variable {w : Nat}

/-! ## The lexer -/

/-- The pair after the byte at `q`. -/
def lexerStep (l : List UInt8) (q : Nat) (pos : Nat × Nat) : Nat × Nat :=
  if l[q]? = some LF ∨ (l[q]? = some CR ∧ l[q + 1]? ≠ some LF) then (pos.1 + 1, 1)
  else (pos.1, pos.2 + 1)

/-- The pair a lexer is at when it has moved over the first bytes of `l`. -/
def lexerPosition (l : List UInt8) : Nat → Nat × Nat
  | 0 => (1, 1)
  | q + 1 => lexerStep l q (lexerPosition l q)

theorem lexerPosition_eq_locate (l : List UInt8) (q : Nat) :
    lexerPosition l q =
      ((Segments.locate (EndsLine l) q).1 + 1, (Segments.locate (EndsLine l) q).2 + 1) := by
  induction q with
  | zero => rw [Segments.locate_zero]; rfl
  | succ q ih =>
    rw [lexerPosition, ih, Segments.locate_succ]
    show (if EndsLine l q then _ else _) = _
    by_cases h : EndsLine l q
    · rw [if_pos h, if_pos h]
    · rw [if_neg h, if_neg h]

namespace LineIndex

/-- **The index agrees with the lexer** at every offset, and rejects the offsets past EOF. -/
theorem lineColumn_eq_lexer (build : Build w) (search : BinarySearch (Usize w))
    (bytes : Snapshot w) :
    ∃ idx, new build bytes.toSlice = .ok idx ∧ ∀ p : BytePos w,
      (p.toNat ≤ bytes.toList.length → ∃ line column,
        idx.lineColumn search p = .ok (some (line, column)) ∧
          (line.toNat, column.toNat) = lexerPosition bytes.toList p.toNat) ∧
      (bytes.toList.length < p.toNat → idx.lineColumn search p = .ok none) := by
  refine ⟨_, new_eq build bytes.toSlice, fun p => ⟨fun hp => ?_, lineColumn_none search⟩⟩
  obtain ⟨line, column, heq, hline, hcolumn⟩ := lineColumn_spec search hp
  refine ⟨line, column, heq, ?_⟩
  rw [lexerPosition_eq_locate, hline, hcolumn]

/-- `a CR LF b`: the CR and the LF are columns of the line they end. -/
example : (do
    let idx ← newFallback (⟨[97, 13, 10, 98], by decide⟩ : Slice 64)
    pure [← idx.lineColumn BinarySearch.halving ⟨1⟩, ← idx.lineColumn BinarySearch.halving ⟨3⟩]) =
      .ok [some (1, 2), some (2, 1)] := by decide

/-! ## The pairs that the line ranges allow -/

/-- The pairs `(l, c)` with `1 ≤ l ≤ num_lines` and `1 ≤ c ≤ line_range(l - 1).len()`; in the last
line one column more, which is EOF. -/
def positions (idx : LineIndex w) : Set (Usize w × Usize w) :=
  {x | 1 ≤ x.1.toNat ∧ x.1.toNat ≤ idx.numLines.toNat ∧ 1 ≤ x.2.toNat ∧
    ∃ r, idx.lineRange (Usize.saturatingSub x.1 1) = .ok (some r) ∧
      (x.1.toNat < idx.numLines.toNat → x.2.toNat ≤ r.len.toNat) ∧
      (x.1.toNat = idx.numLines.toNat → x.2.toNat ≤ r.len.toNat + 1)}

theorem toNat_pred {s : Snapshot w} (l : Usize w) :
    (Usize.saturatingSub l 1).toNat = l.toNat - 1 := by
  rw [Usize.toNat_saturatingSub, Usize.toNat_literal (k := 1) (Nat.succ_pos _) s.length_succ_lt]

theorem mem_pairs {l : List UInt8} {k d c : Nat} (h : (MmapCursor.lineStarts l)[k]? = some c) :
    (k, d) ∈ Segments.pairs (EndsLine l) l.length ↔
      (k + 1 < (MmapCursor.lineStarts l).length →
        c + d < (MmapCursor.lineStarts l)[k + 1]?.getD l.length) ∧
      (k + 1 = (MmapCursor.lineStarts l).length →
        c + d ≤ (MmapCursor.lineStarts l)[k + 1]?.getD l.length) :=
  Segments.mem_pairs _ h

theorem mem_positions {s : Snapshot w} {l c : Usize w} :
    (l, c) ∈ (ofLines s.toSlice).positions ↔ 1 ≤ l.toNat ∧ 1 ≤ c.toNat ∧
      (l.toNat - 1, c.toNat - 1) ∈ Segments.pairs (EndsLine s.toList) s.toList.length := by
  have hpred := toNat_pred (s := s) l
  simp only [positions, Set.mem_ofPred_eq, toNat_numLines]
  constructor
  · rintro ⟨hl, hlines, hc, r, hr, hmid, hlast⟩
    have hlt : l.toNat - 1 < (MmapCursor.lineStarts s.toList).length := by omega
    have hget := List.getElem?_eq_getElem hlt
    obtain ⟨hstart, hend⟩ := bounds_of_lineRange hr (by rw [hpred]; exact hget)
    rw [hpred] at hend
    rw [ByteRange.toNat_len] at hmid hlast
    have hle : r.start.toNat ≤ r.end_.toNat := r.start_le_end
    refine ⟨hl, hc, (mem_pairs hget).mpr ⟨fun h => ?_, fun h => ?_⟩⟩
    · have := hmid (by omega)
      rw [← hend, ← hstart]; omega
    · have := hlast (by omega)
      rw [← hend, ← hstart]; omega
  · rintro ⟨hl, hc, hpair⟩
    obtain ⟨start, hstart', -, -⟩ := id hpair
    have hget : (MmapCursor.lineStarts s.toList)[l.toNat - 1]? = some start := hstart'
    have hlt := (List.getElem?_eq_some_iff.mp hget).1
    obtain ⟨hmid, hlast⟩ := (mem_pairs hget).mp hpair
    obtain ⟨r, hr, hstart, hend⟩ := lineRange_spec (Usize.saturatingSub l 1)
      (by rw [hpred]; exact hget)
    rw [hpred] at hend
    refine ⟨hl, by omega, hc, r, hr, fun h => ?_, fun h => ?_⟩
    · have := hmid (by omega)
      rw [ByteRange.toNat_len]; omega
    · have := hlast (by omega)
      rw [ByteRange.toNat_len]; omega

/-- The pair of an offset up to the end of the snapshot. -/
def pairAt (s : Snapshot w) (o : BytePos w) : Usize w × Usize w :=
  (BitVec.ofNat w ((Segments.locate (EndsLine s.toList) o.toNat).1 + 1),
    BitVec.ofNat w ((Segments.locate (EndsLine s.toList) o.toNat).2 + 1))

theorem lineColumn_eq_pairAt {s : Snapshot w} (search : BinarySearch (Usize w)) {o : BytePos w}
    (h : o.toNat ≤ s.toList.length) :
    (ofLines s.toSlice).lineColumn search o = .ok (some (pairAt s o)) ∧
      (pairAt s o).1.toNat = (Segments.locate (EndsLine s.toList) o.toNat).1 + 1 ∧
      (pairAt s o).2.toNat = (Segments.locate (EndsLine s.toList) o.toNat).2 + 1 := by
  obtain ⟨line, column, heq, hline, hcolumn⟩ := lineColumn_spec search h
  have hpair : pairAt s o = (line, column) := by
    rw [pairAt, ← hline, ← hcolumn, Words.ofNat_toNat_self, Words.ofNat_toNat_self]
  rw [hpair]
  exact ⟨heq, hline, hcolumn⟩

theorem pairAt_mem_positions {s : Snapshot w} (search : BinarySearch (Usize w)) {o : BytePos w}
    (h : o.toNat ≤ s.toList.length) : pairAt s o ∈ (ofLines s.toSlice).positions := by
  obtain ⟨-, hline, hcolumn⟩ := lineColumn_eq_pairAt search h
  show ((pairAt s o).1, (pairAt s o).2) ∈ _
  refine mem_positions.mpr ⟨by omega, by omega, ?_⟩
  rw [hline, hcolumn]
  exact (Segments.locate_bijOn (EndsLine s.toList) s.toList.length).mapsTo h

theorem pairAt_lt {s : Snapshot w} (search : BinarySearch (Usize w)) {o o' : BytePos w}
    (hlt : o < o') (h' : o'.toNat ≤ s.toList.length) :
    toLex (pairAt s o) < toLex (pairAt s o') := by
  have hlt' : o.toNat < o'.toNat := hlt
  obtain ⟨-, hline, hcolumn⟩ := lineColumn_eq_pairAt search (s := s) (o := o) (by omega)
  obtain ⟨-, hline', hcolumn'⟩ := lineColumn_eq_pairAt search h'
  have hmono := Segments.locate_strictMono (EndsLine s.toList) hlt'
  rw [Prod.Lex.toLex_lt_toLex] at hmono ⊢
  rcases hmono with hmono | ⟨heq, hmono⟩
  · refine Or.inl ?_
    show (pairAt s o).1.toNat < (pairAt s o').1.toNat
    omega
  · refine Or.inr ⟨Words.eq_of_toNat (by omega), ?_⟩
    show (pairAt s o).2.toNat < (pairAt s o').2.toNat
    omega

theorem pairAt_inj {s : Snapshot w} (search : BinarySearch (Usize w)) {o o' : BytePos w}
    (h : o.toNat ≤ s.toList.length) (h' : o'.toNat ≤ s.toList.length)
    (hpair : pairAt s o = pairAt s o') : o = o' := by
  obtain ⟨-, hline, hcolumn⟩ := lineColumn_eq_pairAt search h
  obtain ⟨-, hline', hcolumn'⟩ := lineColumn_eq_pairAt search h'
  rw [hpair] at hline hcolumn
  apply BytePos.ext_toNat
  apply Segments.locate_inj (EndsLine s.toList) h h'
  apply Prod.ext
  · omega
  · omega

/-- A pair that the line ranges allow is the pair of its line's start plus its column less one. -/
theorem pairAt_of_mem_positions {s : Snapshot w} {l c : Usize w}
    (h : (l, c) ∈ (ofLines s.toSlice).positions) : ∃ start o : BytePos w,
      (ofLines s.toSlice).lineStart (Usize.saturatingSub l 1) = some start ∧
        o.toNat = start.toNat + (c.toNat - 1) ∧ o.toNat ≤ s.toList.length ∧
        pairAt s o = (l, c) := by
  obtain ⟨hl, hc, hpair⟩ := mem_positions.mp h
  obtain ⟨st, hget, -, -⟩ := id hpair
  obtain ⟨hloc, hle⟩ := Segments.locate_of_mem_pairs _ hget hpair
  obtain ⟨start, hstart, hval⟩ := lineStart_spec (Usize.saturatingSub l 1)
    (by rw [toNat_pred (s := s)]; exact hget)
  have hlt := s.length_succ_lt
  have ho : (BytePos.new (BitVec.ofNat w (st + (c.toNat - 1)))).toNat = st + (c.toNat - 1) :=
    Words.toNat_ofNat_of_lt (by omega)
  refine ⟨start, BytePos.new (BitVec.ofNat w (st + (c.toNat - 1))), hstart, ?_, ?_, ?_⟩
  · rw [ho, hval]
  · rw [ho]; exact hle
  · rw [pairAt, ho, hloc, Nat.sub_add_cancel hl, Nat.sub_add_cancel hc,
      Words.ofNat_toNat_self, Words.ofNat_toNat_self]

/-- **Offsets and pairs correspond one to one, in order.** -/
theorem lineColumn_bijection (build : Build w) (search : BinarySearch (Usize w))
    (bytes : Snapshot w) :
    ∃ idx, new build bytes.toSlice = .ok idx ∧ ∃ f : BytePos w → Usize w × Usize w,
      (∀ o : BytePos w, o.toNat ≤ bytes.toList.length →
        idx.lineColumn search o = .ok (some (f o))) ∧
      Set.BijOn f {o | o.toNat ≤ bytes.toList.length} idx.positions ∧
      (∀ o o' : BytePos w, o < o' → o'.toNat ≤ bytes.toList.length →
        toLex (f o) < toLex (f o')) ∧
      ∀ l c, (l, c) ∈ idx.positions → ∃ start o : BytePos w,
        idx.lineStart (Usize.saturatingSub l 1) = some start ∧
          o.toNat = start.toNat + (c.toNat - 1) ∧ o.toNat ≤ bytes.toList.length ∧
          f o = (l, c) := by
  refine ⟨_, new_eq build bytes.toSlice, pairAt bytes,
    fun o ho => (lineColumn_eq_pairAt search ho).1, ⟨?_, ?_, ?_⟩,
    fun o o' hlt ho' => pairAt_lt search hlt ho', fun l c => pairAt_of_mem_positions⟩
  · intro o ho
    exact pairAt_mem_positions search ho
  · intro o ho o' ho' hpair
    exact pairAt_inj search ho ho' hpair
  · rintro ⟨l, c⟩ hlc
    obtain ⟨-, o, -, -, ho, hpair⟩ := pairAt_of_mem_positions hlc
    exact ⟨o, ho, hpair⟩

end LineIndex

/-! ## The index of a concatenation -/

namespace LineIndex

/-- The line starts of an index as numbers. -/
def starts (idx : LineIndex w) : List Nat := idx.lineStarts.map BitVec.toNat

theorem starts_ofLines (s : Snapshot w) :
    (ofLines s.toSlice).starts = MmapCursor.lineStarts s.toList := by
  unfold starts ofLines
  rw [List.map_map]
  calc (MmapCursor.lineStarts s.toList).map (BitVec.toNat ∘ BitVec.ofNat w)
      = (MmapCursor.lineStarts s.toList).map id :=
        List.map_congr_left fun c hc => toNat_ofNat_start hc
    _ = MmapCursor.lineStarts s.toList := List.map_id _

theorem locate_append (a b : List UInt8) {o : Nat} (ho : o < a.length) :
    Segments.locate (EndsLine (a ++ b)) o = Segments.locate (EndsLine a) o := by
  apply Segments.locate_congr
  intro i hi
  exact endsLine_append_left b (by omega)

/-- **The index of a concatenation** of `a` and `b`: without and with a CR LF pair split by the cut,
and at the offsets inside `a`. -/
theorem concat_index (build : Build w) (search : BinarySearch (Usize w)) (a b ab : Snapshot w)
    (hab : ab.toList = a.toList ++ b.toList) :
    ∃ ia ib iab, new build a.toSlice = .ok ia ∧ new build b.toSlice = .ok ib ∧
      new build ab.toSlice = .ok iab ∧ ib.starts.head? = some 0 ∧
      ((a.toList.getLast? ≠ some CR ∨ b.toList.head? ≠ some LF) →
        iab.starts = ia.starts ++ ib.starts.tail.map (· + a.toList.length) ∧
        iab.numLines.toNat = ia.numLines.toNat + ib.numLines.toNat - 1) ∧
      (a.toList.getLast? = some CR ∧ b.toList.head? = some LF →
        ia.starts.getLast? = some a.toList.length ∧
        iab.starts = ia.starts.dropLast ++ ib.starts.tail.map (· + a.toList.length) ∧
        iab.numLines.toNat = ia.numLines.toNat + ib.numLines.toNat - 2) ∧
      ∀ o : BytePos w, o.toNat < a.toList.length →
        iab.lineColumn search o = ia.lineColumn search o := by
  refine ⟨_, _, _, new_eq build a.toSlice, new_eq build b.toSlice, new_eq build ab.toSlice, ?_⟩
  simp only [starts_ofLines, toNat_numLines, hab]
  refine ⟨rfl, fun hcut => ?_, fun hcut => ?_, fun o ho => ?_⟩
  · have happ := lineStarts_append (fun h : Seam a.toList b.toList =>
      hcut.elim (fun hne => hne h.1) fun hne => hne h.2)
    refine ⟨happ, ?_⟩
    have hb := length_lineStarts b.toList
    rw [happ, List.length_append, List.length_map, List.length_tail]
    omega
  · obtain ⟨hlast, happ⟩ := lineStarts_append_seam hcut
    refine ⟨by rw [hlast, List.getLast?_concat], happ, ?_⟩
    have ha := length_lineStarts a.toList
    have hb := length_lineStarts b.toList
    rw [happ, List.length_append, List.length_map, List.length_tail, List.length_dropLast]
    omega
  · have hle : o.toNat ≤ ab.toList.length := by
      rw [hab, List.length_append]; omega
    have hpair : pairAt ab o = pairAt a o := by
      unfold pairAt
      rw [hab, locate_append a.toList b.toList ho]
    rw [(lineColumn_eq_pairAt search hle).1, hpair,
      (lineColumn_eq_pairAt search (Nat.le_of_lt ho)).1]

/-- A pair split by the cut: `x CR` and `LF y` have two lines each, `x CR LF y` has two. -/
theorem concat_index_split_pair :
    ∃ ia ib iab : LineIndex 64,
      new .fallback (Snapshot.ofList 64 [120, 13] (by decide)).toSlice = .ok ia ∧
      new .fallback (Snapshot.ofList 64 [10, 121] (by decide)).toSlice = .ok ib ∧
      new .fallback (Snapshot.ofList 64 [120, 13, 10, 121] (by decide)).toSlice = .ok iab ∧
      ia.starts.getLast? = some 2 ∧
      iab.numLines.toNat = ia.numLines.toNat + ib.numLines.toNat - 2 := by
  obtain ⟨ia, ib, iab, ha, hb, hab, -, -, hsplit, -⟩ := concat_index .fallback BinarySearch.halving
    (Snapshot.ofList 64 [120, 13] (by decide)) (Snapshot.ofList 64 [10, 121] (by decide))
    (Snapshot.ofList 64 [120, 13, 10, 121] (by decide)) rfl
  obtain ⟨hlast, -, hlines⟩ := hsplit (by decide)
  exact ⟨ia, ib, iab, ha, hb, hab, hlast, hlines⟩

end LineIndex

end MmapCursor
