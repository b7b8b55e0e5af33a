import MmapCursor.CursorRuns

/-!
# Lookahead, counted reads and counted moves

The operations of a cursor that take a count or a prefix, against each other:

* `prefix_match` — `advance_if_starts_with` compares byte by byte with `peek_n_ahead`, moves over
  the whole prefix or not at all, and a match of `p ++ q` is a match of `p` and then of `q`;
* `counted_moves` — `advance`, `advance_n_ahead`, `slice_n_ahead` and `peek_n_ahead` agree on where
  `n` bytes ahead is, up to `usize::MAX`, and two counts in a row are one saturated count.

Positions are compared through the unread bytes: `drop_saturatingAdd` says that the saturation of a
count shows no more than the end of the source does.
-/

set_option autoImplicit false

namespace MmapCursor

variable {w : Nat}

namespace Cursor

theorem length_unread_lt {c : Cursor w} (h : c.Inv) : c.unread.length < 2 ^ w := by
  have hlt := c.eof.toNat_lt
  rw [length_unread h]; omega

/-! ## Prefixes -/

theorem prefix_iff_words {u : List UInt8} (hu : u.length < 2 ^ w) (pre : List UInt8) :
    pre <+: u ↔ ∀ (i : Usize w) (b : UInt8), pre[i.toNat]? = some b → u[i.toNat]? = some b := by
  constructor
  · rintro ⟨t, rfl⟩ i b hb
    rw [List.getElem?_append_left (List.getElem?_eq_some_iff.mp hb).1]
    exact hb
  · intro hall
    -- a longer prefix would already fail at the end of `u`
    have hle : pre.length ≤ u.length := by
      apply Nat.le_of_not_lt
      intro hlt
      have hval : (BitVec.ofNat w u.length).toNat = u.length := Words.toNat_ofNat_of_lt hu
      have hend := hall (BitVec.ofNat w u.length) pre[u.length]
        (by rw [hval]; exact List.getElem?_eq_getElem hlt)
      rw [hval, List.getElem?_eq_none (Nat.le_refl _)] at hend
      cases hend
    apply List.prefix_iff_getElem?.mpr
    intro i hi
    have hval : (BitVec.ofNat w i).toNat = i := Words.toNat_ofNat_of_lt (by omega)
    have hget := hall (BitVec.ofNat w i) pre[i] (by rw [hval]; exact List.getElem?_eq_getElem hi)
    rwa [hval] at hget

theorem advanceIfStartsWith_true_iff {c : Cursor w} (h : c.Inv) {pre : List UInt8}
    {c' : Cursor w} :
    c.advanceIfStartsWith pre = .ok (true, c') ↔
      c'.Inv ∧ c'.source = c.source ∧ c.unread ≠ [] ∧ c.unread = pre ++ c'.unread := by
  obtain ⟨d, heq, hinv, hs, -, hu⟩ := advanceIfStartsWith_spec h pre
  rw [heq]
  constructor
  · intro hok
    simp only [Except.ok.injEq, Prod.mk.injEq, decide_eq_true_eq] at hok
    obtain ⟨hp, rfl⟩ := hok
    rw [if_pos hp] at hu
    refine ⟨hinv, hs, hp.1, ?_⟩
    obtain ⟨t, ht⟩ := hp.2
    rw [hu, ← ht, List.drop_left]
  · rintro ⟨hinv', hs', hne, happ⟩
    have hp : c.unread ≠ [] ∧ pre <+: c.unread := ⟨hne, by rw [happ]; exact List.prefix_append _ _⟩
    rw [if_pos hp] at hu
    have hd : c' = d := by
      apply eq_of_unread hinv hinv' (hs'.trans hs.symm)
      rw [hu, happ, List.drop_left]
    rw [decide_eq_true hp, hd]

theorem advanceIfStartsWith_append {c : Cursor w} (h : c.Inv) (p : List UInt8) {q : List UInt8}
    (hq : q ≠ []) (c' : Cursor w) :
    c.advanceIfStartsWith (p ++ q) = .ok (true, c') ↔
      ∃ c₁, c.advanceIfStartsWith p = .ok (true, c₁) ∧
        c₁.advanceIfStartsWith q = .ok (true, c') := by
  rw [advanceIfStartsWith_true_iff h]
  constructor
  · rintro ⟨hinv, hs, hne, happ⟩
    obtain ⟨c₁, heq, hinv₁, hs₁, -, hu₁⟩ := advanceIfStartsWith_spec h p
    have hp : c.unread ≠ [] ∧ p <+: c.unread :=
      ⟨hne, by rw [happ, List.append_assoc]; exact List.prefix_append _ _⟩
    rw [if_pos hp, happ, List.append_assoc, List.drop_left] at hu₁
    refine ⟨c₁, by rw [heq, decide_eq_true hp], ?_⟩
    apply (advanceIfStartsWith_true_iff hinv₁).mpr
    refine ⟨hinv, hs.trans hs₁.symm, ?_, hu₁⟩
    rw [hu₁]
    exact List.append_ne_nil_of_left_ne_nil hq _
  · rintro ⟨c₁, hfst, hsnd⟩
    obtain ⟨hinv₁, hs₁, hne, happ⟩ := (advanceIfStartsWith_true_iff h).mp hfst
    obtain ⟨hinv, hs, -, happ₁⟩ := (advanceIfStartsWith_true_iff hinv₁).mp hsnd
    exact ⟨hinv, hs.trans hs₁, hne, by rw [happ, happ₁, List.append_assoc]⟩

/-- **Prefix matching**, from any reachable cursor. -/
theorem prefix_match {s : Slice w} {c : Cursor w} (hc : Reachable s c) :
    (∀ pre : List UInt8, ∃ matched c', c.advanceIfStartsWith pre = .ok (matched, c') ∧
      (matched = true ↔ c.isEof = false ∧
        ∀ (i : Usize w) (b : UInt8), pre[i.toNat]? = some b → c.peekNAhead i = some b) ∧
      (matched = true → c'.pos.toNat = c.pos.toNat + pre.length ∧
        c.pos.toNat + pre.length ≤ c.eof.toNat) ∧
      (matched = false → c' = c)) ∧
    ∀ (p q : List UInt8), q ≠ [] → ∀ c', c.advanceIfStartsWith (p ++ q) = .ok (true, c') ↔
      ∃ c₁, c.advanceIfStartsWith p = .ok (true, c₁) ∧
        c₁.advanceIfStartsWith q = .ok (true, c') := by
  obtain ⟨h, -⟩ := hc.inv
  refine ⟨fun pre => ?_, fun p q hq c' => advanceIfStartsWith_append h p hq c'⟩
  obtain ⟨c', heq, hinv, hs, heof, hu⟩ := advanceIfStartsWith_spec h pre
  refine ⟨_, c', heq, ?_, ?_, ?_⟩
  · have hfalse : c.isEof = false ↔ c.unread ≠ [] := by
      rw [← Bool.not_eq_true, isEof_iff h]
    rw [decide_eq_true_eq, hfalse, prefix_iff_words (length_unread_lt h)]
    simp only [peekNAhead_eq]
  · intro hp
    rw [decide_eq_true_eq] at hp
    rw [if_pos hp] at hu
    have hsplit : c.unread = pre ++ c'.unread := by
      obtain ⟨t, ht⟩ := hp.2
      rw [hu, ← ht, List.drop_left]
    have hpos := pos_of_append h hinv hs hsplit
    have hle := hinv.pos_le
    rw [heof] at hle
    exact ⟨hpos, by omega⟩
  · intro hp
    rw [decide_eq_false_iff_not] at hp
    rw [if_neg hp] at hu
    exact eq_of_unread h hinv hs hu

/-- At the CR of `CR LF x`. -/
theorem prefix_match_pair :
    ∃ c', (new (⟨[13, 10, 120], by decide⟩ : Slice 64)).advanceIfStartsWith [13, 10] =
        .ok (true, c') ∧ c'.pos.toNat = 2 := by
  have hreach : Reachable (⟨[13, 10, 120], by decide⟩ : Slice 64)
      (new ⟨[13, 10, 120], by decide⟩) := ⟨[], [], rfl⟩
  obtain ⟨matched, c', heq, hmatch, hmoved, -⟩ := (prefix_match hreach).1 [13, 10]
  have hpeek : ∀ (i : Usize 64) (b : UInt8), [13, 10][i.toNat]? = some b →
      (new (⟨[13, 10, 120], by decide⟩ : Slice 64)).peekNAhead i = some b := by
    intro i b hb
    rw [peekNAhead_eq]
    exact (prefix_iff_words (by decide) [13, 10]).mp (by decide) i b hb
  obtain rfl := hmatch.mpr ⟨rfl, hpeek⟩
  exact ⟨c', heq, (hmoved rfl).1⟩

/-! ## Counts -/

/-- Two counts in a row, or one saturated count. -/
theorem drop_saturatingAdd {u : List UInt8} (hu : u.length < 2 ^ w) (m n : Usize w) :
    u.drop (Usize.saturatingAdd m n).toNat = (u.drop m.toNat).drop n.toNat := by
  rw [Usize.toNat_saturatingAdd, List.drop_drop]
  rcases Nat.lt_or_ge (m.toNat + n.toNat) (2 ^ w) with hlt | hge
  · rw [Nat.min_eq_left (by omega)]
  · rw [List.drop_eq_nil_of_le (by omega), List.drop_eq_nil_of_le (by omega)]

theorem take_saturatingAdd {u : List UInt8} (hu : u.length < 2 ^ w) (m n : Usize w) :
    u.take (Usize.saturatingAdd m n).toNat =
      u.take m.toNat ++ (u.drop m.toNat).take n.toNat := by
  rw [Usize.toNat_saturatingAdd, ← List.take_add, List.take_eq_take_iff]
  omega

theorem iterate_advance {c : Cursor w} (h : c.Inv) : ∀ n : Nat,
    (advance^[n] c).Inv ∧ (advance^[n] c).source = c.source ∧
      (advance^[n] c).unread = c.unread.drop n
  | 0 => ⟨h, rfl, rfl⟩
  | n + 1 => by
    obtain ⟨hinv, hs, hu⟩ := iterate_advance h n
    obtain ⟨hinv', hu'⟩ := advance_spec hinv
    rw [Function.iterate_succ_apply']
    exact ⟨hinv', hs, by rw [hu', hu, List.drop_drop]⟩

theorem advanceNAhead_advanceNAhead {c : Cursor w} (h : c.Inv) (m n : Usize w) :
    (c.advanceNAhead m).advanceNAhead n = c.advanceNAhead (Usize.saturatingAdd m n) := by
  obtain ⟨hm, hum⟩ := advanceNAhead_spec h m
  obtain ⟨hmn, humn⟩ := advanceNAhead_spec hm n
  obtain ⟨hsat, husat⟩ := advanceNAhead_spec h (Usize.saturatingAdd m n)
  apply eq_of_unread hsat hmn rfl
  rw [humn, hum, husat, drop_saturatingAdd (length_unread_lt h)]

/-- A counted read ends where the counted move ends. -/
theorem sliceNAhead_eq {c : Cursor w} (h : c.Inv) (n : Usize w) :
    c.sliceNAhead n = .ok (if c.unread = [] then none else some (c.unread.take n.toNat),
      c.advanceNAhead n) := by
  obtain ⟨c', heq, hinv, hs, -, hu⟩ := sliceNAhead_spec h n
  obtain ⟨hinv', hu'⟩ := advanceNAhead_spec h n
  rw [heq, eq_of_unread hinv' hinv hs (hu.trans hu'.symm)]

theorem peekNAhead_advanceNAhead {c : Cursor w} (h : c.Inv) (m n : Usize w) :
    (c.advanceNAhead m).peekNAhead n = c.peekNAhead (Usize.saturatingAdd m n) := by
  rw [peekNAhead_eq, peekNAhead_eq, (advanceNAhead_spec h m).2, ← List.head?_drop,
    ← drop_saturatingAdd (length_unread_lt h), List.head?_drop]

/-- **Counts agree**, from any reachable cursor and for all counts. -/
theorem counted_moves {s : Slice w} {c : Cursor w} (hc : Reachable s c) (m n : Usize w) :
    (c.advanceNAhead n).pos.toNat = min (c.pos.toNat + n.toNat) c.eof.toNat ∧
    advance^[n.toNat] c = c.advanceNAhead n ∧
    (∃ r, c.sliceNAhead n = .ok (r, c.advanceNAhead n) ∧
      (c.isEof = false → ∃ bytes, r = some bytes ∧
        bytes.length = min n.toNat c.remainingLen.toNat ∧
        ∀ i : Usize w, i.toNat < bytes.length → bytes[i.toNat]? = c.peekNAhead i)) ∧
    (c.advanceNAhead m).advanceNAhead n = c.advanceNAhead (Usize.saturatingAdd m n) ∧
    (c.advanceNAhead m).peekNAhead n = c.peekNAhead (Usize.saturatingAdd m n) ∧
    ∃ r₁ c₁ r₂ c₂ r, c.sliceNAhead m = .ok (r₁, c₁) ∧ c₁.sliceNAhead n = .ok (r₂, c₂) ∧
      c.sliceNAhead (Usize.saturatingAdd m n) = .ok (r, c₂) ∧
      r₁.getD [] ++ r₂.getD [] = r.getD [] := by
  obtain ⟨h, -⟩ := hc.inv
  refine ⟨BytePos.toNat_saturatingAdd_min _ _ _, ?_, ?_, advanceNAhead_advanceNAhead h m n,
    peekNAhead_advanceNAhead h m n, ?_⟩
  · obtain ⟨hinv, hs, hu⟩ := iterate_advance h n.toNat
    obtain ⟨hinv', hu'⟩ := advanceNAhead_spec h n
    exact eq_of_unread hinv' hinv hs (hu.trans hu'.symm)
  · refine ⟨_, sliceNAhead_eq h n, fun heof => ?_⟩
    have hne : c.unread ≠ [] := fun hnil => by
      rw [(isEof_iff h).mpr hnil] at heof
      cases heof
    refine ⟨c.unread.take n.toNat, by rw [if_neg hne], ?_, fun i hi => ?_⟩
    · rw [List.length_take, toNat_remainingLen, length_unread h]
    · rw [List.length_take] at hi
      rw [peekNAhead_eq, List.getElem?_take_of_lt (by omega)]
  · obtain ⟨hm, hum⟩ := advanceNAhead_spec h m
    have hgetD : ∀ (u : List UInt8) (k : Nat),
        (if u = [] then none else some (u.take k)).getD [] = u.take k := by
      intro u k
      by_cases hu : u = []
      · rw [if_pos hu, hu, List.take_nil]; rfl
      · rw [if_neg hu]; rfl
    refine ⟨_, _, _, _,
      if c.unread = [] then none else some (c.unread.take (Usize.saturatingAdd m n).toNat),
      sliceNAhead_eq h m, sliceNAhead_eq hm n, ?_, ?_⟩
    · rw [advanceNAhead_advanceNAhead h]
      exact sliceNAhead_eq h _
    · rw [hgetD, hgetD, hgetD, hum, take_saturatingAdd (length_unread_lt h)]

/-- Counts near `usize::MAX` from the second byte of `abc`. -/
theorem counted_moves_max :
    ((new (⟨[97, 98, 99], by decide⟩ : Slice 64)).advance.advanceNAhead Usize.MAX).advanceNAhead
        Usize.MAX =
      (new (⟨[97, 98, 99], by decide⟩ : Slice 64)).advance.advanceNAhead
        (Usize.saturatingAdd Usize.MAX Usize.MAX) := by
  have hreach : Reachable (⟨[97, 98, 99], by decide⟩ : Slice 64)
      (new ⟨[97, 98, 99], by decide⟩).advance := ⟨[.advance], _, rfl⟩
  exact (counted_moves hreach Usize.MAX Usize.MAX).2.2.2.1

end Cursor

end MmapCursor
