import MmapCursor.Lines

/-!
# The scans of the two builds

Both builds of `LineIndex::new` compute `LineIndex.ofLines`:

* `newSimd_eq` — the walk over the positions of LF and CR keeps those that end a line
  (`simdRound_eq`, one round; `foldlM_simdRound`, any list of positions);
* `newFallback_eq` — the loop with the two-byte jump.  `fallbackRound_spec` is one round: it moves
  to an offset `j` and records exactly the starts above the old offset and not above `j`.

Principal results: `new_eq`, on which all later modules rest, and `builds_agree`.
-/

set_option autoImplicit false

namespace MmapCursor

variable {w : Nat}

namespace LineIndex

theorem get_next {s : Slice w} {i : Nat} (hi : i + 1 < 2 ^ w) :
    s.get (BitVec.ofNat w (i + 1)) = s.toList[i + 1]? := by
  rw [Slice.get, Words.toNat_ofNat_of_lt hi]

theorem plus_one_ofNat {i : Nat} (hi : i + 1 < 2 ^ w) :
    Usize.plus (BitVec.ofNat w i) 1 = .ok (BitVec.ofNat w (i + 1)) := by
  have hval : (BitVec.ofNat w i).toNat = i := Words.toNat_ofNat_of_lt (by omega)
  rw [Usize.plus_literal (k := 1) (by rw [hval]; exact hi), hval]

/-! ## The walk over match positions -/

/-- One round, at a position that holds an LF or a CR. -/
theorem simdRound_eq {s : Slice w} {i : Nat} {b : UInt8} (hb : s.toList[i]? = some b)
    (hmatch : b = LF ∨ b = CR) (acc : List (Usize w)) :
    simdRound s acc (BitVec.ofNat w i) =
      .ok (if EndsLine s.toList i then acc ++ [BitVec.ofNat w (i + 1)] else acc) := by
  have hfits := s.fits
  have hlt : i < s.toList.length := (List.getElem?_eq_some_iff.mp hb).1
  have hidx : s.index (BitVec.ofNat w i) = .ok b := Slice.index_eq (by
    rw [Words.toNat_ofNat_of_lt (by omega)]; exact hb)
  have hplus := plus_one_ofNat (w := w) (i := i) (by omega)
  unfold simdRound
  simp only [hidx, hplus, bind, Except.bind, pure, Except.pure]
  rcases hmatch with rfl | rfl
  · simp only [if_neg LF_ne_CR, if_pos (endsLine_of_LF hb)]; rfl
  · simp only [if_true, get_next (s := s) (i := i) (by omega), endsLine_of_CR hb]
    by_cases hnext : s.toList[i + 1]? = some LF <;> simp [hnext]

theorem foldlM_simdRound {s : Slice w} : ∀ (is : List Nat) (acc : List (Usize w)),
    (∀ i ∈ is, s.toList[i]? = some LF ∨ s.toList[i]? = some CR) →
      (is.map (BitVec.ofNat w)).foldlM (simdRound s) acc =
        .ok (acc ++ ((is.filter fun i => decide (EndsLine s.toList i)).map (· + 1)).map
          (BitVec.ofNat w))
  | [], acc, _ => by simp [pure, Except.pure]
  | i :: is, acc, h => by
    have hround : simdRound s acc (BitVec.ofNat w i) =
        .ok (if EndsLine s.toList i then acc ++ [BitVec.ofNat w (i + 1)] else acc) := by
      rcases h i List.mem_cons_self with hb | hb
      · exact simdRound_eq hb (Or.inl rfl) acc
      · exact simdRound_eq hb (Or.inr rfl) acc
    rw [List.map_cons, List.foldlM_cons, hround]
    simp only [bind, Except.bind]
    rw [foldlM_simdRound is _ fun j hj => h j (List.mem_cons_of_mem _ hj)]
    by_cases hi : EndsLine s.toList i <;> simp [hi]

theorem newSimd_eq (m : Memchr2 w) (s : Slice w) : newSimd m s = .ok (ofLines s) := by
  unfold newSimd
  rw [Memchr2.iter_eq]
  simp only [Memchr2.scan]
  rw [foldlM_simdRound _ _ fun i hi => by simpa using (List.mem_filter.mp hi).2,
    List.filter_filter]
  -- a position that ends a line holds an LF or a CR
  have hends : (List.range s.toList.length).filter (fun i => decide (EndsLine s.toList i) &&
      decide (s.toList[i]? = some LF ∨ s.toList[i]? = some CR)) =
      (List.range s.toList.length).filter fun i => decide (EndsLine s.toList i) := by
    apply List.filter_congr
    intro i _
    by_cases hi : EndsLine s.toList i
    · rcases id hi with hb | ⟨hb, _⟩ <;> simp [hi, hb]
    · simp [hi]
  rw [hends]
  rfl

/-! ## The loop with the two-byte jump -/

/-- One round: the starts it records are those between the old offset and the new one. -/
theorem fallbackRound_spec {s : Slice w} {i : Nat} (hi : i < s.toList.length)
    (acc : List (Usize w)) :
    ∃ j new, i < j ∧ j ≤ s.toList.length ∧
      Segments.starts (EndsLine s.toList) j = Segments.starts (EndsLine s.toList) i ++ new ∧
      fallbackRound s (BitVec.ofNat w i, acc) =
        .ok (.yield (BitVec.ofNat w j, acc ++ new.map (BitVec.ofNat w))) := by
  have hfits := s.fits
  have hval : (BitVec.ofNat w i).toNat = i := Words.toNat_ofNat_of_lt (by omega)
  have hlt : BitVec.ofNat w i < s.len := by
    show (BitVec.ofNat w i).toNat < s.len.toNat
    rw [hval, Slice.toNat_len]; exact hi
  obtain ⟨b, hb⟩ : ∃ b, s.toList[i]? = some b := ⟨_, List.getElem?_eq_getElem hi⟩
  have hidx : s.index (BitVec.ofNat w i) = .ok b := Slice.index_eq (by rw [hval]; exact hb)
  have hplus := plus_one_ofNat (w := w) (i := i) (by omega)
  have hone := Segments.starts_succ (EndsLine s.toList) i
  unfold fallbackRound
  simp only [if_pos hlt, hidx, hplus, bind, Except.bind, pure, Except.pure]
  by_cases hcr : b = CR
  · subst hcr
    simp only [if_true, get_next (s := s) (i := i) (by omega)]
    by_cases hnext : s.toList[i + 1]? = some LF
    · have hlen := (List.getElem?_eq_some_iff.mp hnext).1
      have hplus2 : Usize.plus (BitVec.ofNat w i) 2 = .ok (BitVec.ofNat w (i + 2)) := by
        have hlt2 : i + 2 < 2 ^ w := by omega
        rw [Usize.plus_literal (k := 2) (by rw [hval]; exact hlt2), hval]
      refine ⟨i + 2, [i + 2], by omega, by omega, starts_pair hb hnext, ?_⟩
      simp only [if_pos hnext, hplus2]; rfl
    · rw [if_pos ((endsLine_of_CR hb).mpr hnext)] at hone
      refine ⟨i + 1, [i + 1], by omega, by omega, hone, ?_⟩
      simp only [if_neg hnext]; rfl
  · by_cases hlf : b = LF
    · subst hlf
      rw [if_pos (endsLine_of_LF hb)] at hone
      refine ⟨i + 1, [i + 1], by omega, by omega, hone, ?_⟩
      simp only [if_neg hcr, if_true]; rfl
    · rw [if_neg (not_endsLine hb hcr hlf)] at hone
      refine ⟨i + 1, [], by omega, by omega, hone, ?_⟩
      simp only [if_neg hcr, if_neg hlf, List.map_nil, List.append_nil]

/-- The starts up to the current offset have been recorded. -/
structure FallbackInv (s : Slice w) (st : Usize w × List (Usize w)) : Prop where
  le_len : st.1.toNat ≤ s.toList.length
  recorded : st.2 = (Segments.starts (EndsLine s.toList) st.1.toNat).map (BitVec.ofNat w)

theorem newFallback_eq (s : Slice w) : newFallback s = .ok (ofLines s) := by
  have hfits := s.fits
  obtain ⟨st, hst, hrec⟩ := Loops.loop_total Fault.outOfFuel (fallbackRound s)
    (FallbackInv s) (fun st => s.toList.length - st.1.toNat)
    (fun st => st.2 = (MmapCursor.lineStarts s.toList).map (BitVec.ofNat w)) (by
      rintro ⟨i, acc⟩ ⟨hle, hacc⟩
      simp only at hle hacc
      rcases Nat.lt_or_ge i.toNat s.toList.length with hi | hi
      · obtain ⟨j, new, hij, hj, hstarts, hround⟩ := fallbackRound_spec hi acc
        rw [Words.ofNat_toNat_self] at hround
        have hval : (BitVec.ofNat w j).toNat = j := Words.toNat_ofNat_of_lt (by omega)
        refine Or.inr ⟨_, hround, ⟨?_, ?_⟩, ?_⟩
        · simp only [hval]; exact hj
        · simp only [hval, hstarts, List.map_append, hacc]
        · simp only [hval]; omega
      · have hnot : ¬ i < s.len := by
          rw [BitVec.lt_def, Slice.toNat_len]; omega
        refine Or.inl ⟨(i, acc), by rw [fallbackRound, if_neg hnot]; rfl, ?_⟩
        have heq : i.toNat = s.toList.length := by omega
        show acc = _
        rw [hacc, heq]; rfl)
    (s.toList.length + 1) (0, [0]) ⟨by simp, by simp⟩ (by simp)
  unfold newFallback
  rw [hst]
  simp only [bind, Except.bind, pure, Except.pure, hrec]
  rfl

/-! ## Both builds -/

/-- **Either build computes the index of the line starts**, and never panics. -/
theorem new_eq (build : Build w) (s : Slice w) : new build s = .ok (ofLines s) := by
  cases build with
  | simd m => exact newSimd_eq m s
  | fallback => exact newFallback_eq s

/-- **The two builds produce the identical index**, so every lookup answers alike. -/
theorem builds_agree (m : Memchr2 w) (search : BinarySearch (Usize w)) (bytes : Slice w) :
    ∃ idx idx', new (.simd m) bytes = .ok idx ∧ new .fallback bytes = .ok idx' ∧
      idx.lineStarts = idx'.lineStarts ∧ idx.len = idx'.len ∧
      idx.numLines = idx'.numLines ∧
      (∀ line, idx.lineStart line = idx'.lineStart line) ∧
      (∀ line, idx.lineRange line = idx'.lineRange line) ∧
      (∀ offset, idx.lineForOffset search offset = idx'.lineForOffset search offset) ∧
      ∀ offset, idx.lineColumn search offset = idx'.lineColumn search offset :=
  ⟨_, _, new_eq (.simd m) bytes, new_eq .fallback bytes, rfl, rfl, rfl, fun _ => rfl,
    fun _ => rfl, fun _ => rfl, fun _ => rfl⟩

/-- CR CR LF: the lone CR ends a line, the pair ends the next one. -/
example : newFallback (⟨[13, 13, 10], by decide⟩ : Slice 64) = .ok ⟨[0, 1, 3], 3⟩ := by decide

end LineIndex

end MmapCursor
