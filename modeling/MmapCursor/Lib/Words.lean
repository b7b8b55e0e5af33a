import Mathlib.Algebra.Order.Ring.Nat

/-!
# Unsigned machine words of any width

Saturating and overflow-checked arithmetic, and checked conversion, on the words `BitVec w` of an
arbitrary width `w`.  Every operation is specified through `BitVec.toNat`, i.e. by exact arithmetic
on `Nat`:

* `toNat_satAdd`, `toNat_satSub` — the exact result, clamped to `0 … 2 ^ w - 1`;
* `min_toNat_satAdd` — a saturated sum compares with any word as the exact sum does, so that a
  clamp applied after it never sees the saturation;
* `toNat_add_of_fits` — a sum that fits the width is exact;
* `checkedAdd_eq_some_iff`, `checkedSub_eq_some_iff` — the exact result, or none;
* `narrow_eq_some_iff`, `narrow_eq_none_iff` — a word of one width in another;
* `count_up`, `count_ne` — a counter that wraps, and when it comes back to the same word.
-/

set_option autoImplicit false

namespace Words

variable {w : Nat}

theorem toNat_ofNat_of_lt {n : Nat} (h : n < 2 ^ w) : (BitVec.ofNat w n).toNat = n := by
  rw [BitVec.toNat_ofNat, Nat.mod_eq_of_lt h]

theorem eq_of_toNat {a b : BitVec w} (h : a.toNat = b.toNat) : a = b := BitVec.eq_of_toNat_eq h

theorem ofNat_toNat_self (a : BitVec w) : BitVec.ofNat w a.toNat = a :=
  eq_of_toNat (toNat_ofNat_of_lt a.isLt)

/-- Words in their numeric order. -/
instance linearOrder : LinearOrder (BitVec w) where
  le_refl a := Nat.le_refl a.toNat
  le_trans _ _ _ h h' := Nat.le_trans (BitVec.le_def.mp h) (BitVec.le_def.mp h')
  lt_iff_le_not_ge a b := by rw [BitVec.lt_def, BitVec.le_def, BitVec.le_def]; omega
  le_antisymm _ _ h h' := eq_of_toNat (Nat.le_antisymm (BitVec.le_def.mp h) (BitVec.le_def.mp h'))
  le_total a b := Nat.le_total a.toNat b.toNat
  toDecidableLE := inferInstance
  toDecidableLT := inferInstance

/-- The largest word. -/
def maxWord (w : Nat) : BitVec w := BitVec.allOnes w

theorem toNat_maxWord : (maxWord w).toNat = 2 ^ w - 1 := BitVec.toNat_allOnes

/-- The sum of two words leaves the width. -/
def addOverflows (a b : BitVec w) : Prop := 2 ^ w ≤ a.toNat + b.toNat

instance (a b : BitVec w) : Decidable (addOverflows a b) :=
  inferInstanceAs (Decidable (2 ^ w ≤ a.toNat + b.toNat))

theorem toNat_add_of_fits {a b : BitVec w} (h : ¬ addOverflows a b) :
    (a + b).toNat = a.toNat + b.toNat := by
  unfold addOverflows at h
  rw [BitVec.toNat_add, Nat.mod_eq_of_lt (by omega)]

/-- Saturating addition: the exact sum, clamped at the largest word. -/
def satAdd (a b : BitVec w) : BitVec w := if addOverflows a b then maxWord w else a + b

theorem toNat_satAdd (a b : BitVec w) :
    (satAdd a b).toNat = min (a.toNat + b.toNat) (2 ^ w - 1) := by
  unfold satAdd
  split
  · rename_i h
    unfold addOverflows at h
    rw [toNat_maxWord]; omega
  · rename_i h
    rw [toNat_add_of_fits h]
    unfold addOverflows at h
    omega

/-- Saturating subtraction: the exact difference, clamped at zero. -/
def satSub (a b : BitVec w) : BitVec w := if b ≤ a then a - b else 0

theorem toNat_satSub (a b : BitVec w) : (satSub a b).toNat = a.toNat - b.toNat := by
  unfold satSub
  split
  · rename_i h
    exact BitVec.toNat_sub_of_le h
  · rename_i h
    rw [BitVec.le_def] at h
    simp; omega

/-- Checked addition: the exact sum, if it fits the width. -/
def checkedAdd (a b : BitVec w) : Option (BitVec w) :=
  if addOverflows a b then none else some (a + b)

theorem checkedAdd_eq_some_iff {a b c : BitVec w} :
    checkedAdd a b = some c ↔ c.toNat = a.toNat + b.toNat := by
  unfold checkedAdd
  split
  · rename_i h
    unfold addOverflows at h
    have := c.isLt
    simp; omega
  · rename_i h
    rw [← toNat_add_of_fits h, Option.some.injEq, eq_comm]
    exact ⟨congrArg _, eq_of_toNat⟩

/-- Checked subtraction: the exact difference, if there is one. -/
def checkedSub (a b : BitVec w) : Option (BitVec w) := if b ≤ a then some (a - b) else none

theorem checkedSub_eq_some_iff {a b c : BitVec w} :
    checkedSub a b = some c ↔ c.toNat + b.toNat = a.toNat := by
  unfold checkedSub
  split
  · rename_i h
    have hsub := BitVec.toNat_sub_of_le h
    rw [BitVec.le_def] at h
    rw [Option.some.injEq]
    constructor
    · rintro rfl
      omega
    · intro hc
      exact eq_of_toNat (by omega)
  · rename_i h
    rw [BitVec.le_def] at h
    simp; omega

/-- A word of another width as a word of this one, if it fits. -/
def narrow (w : Nat) {v : Nat} (a : BitVec v) : Option (BitVec w) :=
  if a.toNat < 2 ^ w then some (BitVec.ofNat w a.toNat) else none

/-- **Narrowing keeps the number**: it never truncates. -/
theorem narrow_eq_some_iff {v : Nat} {a : BitVec v} {b : BitVec w} :
    narrow w a = some b ↔ b.toNat = a.toNat := by
  unfold narrow
  constructor
  · intro h
    split at h
    · rename_i hlt
      rw [← Option.some.inj h, toNat_ofNat_of_lt hlt]
    · cases h
  · intro h
    rw [← h, if_pos b.isLt, ofNat_toNat_self]

theorem narrow_eq_none_iff {v : Nat} {a : BitVec v} : narrow w a = none ↔ 2 ^ w ≤ a.toNat := by
  unfold narrow
  by_cases h : a.toNat < 2 ^ w
  · rw [if_pos h]
    simp [h]
  · rw [if_neg h]
    simpa using h

/-- **Saturation is invisible to a later clamp**: no word lies above the largest one. -/
theorem min_toNat_satAdd (a b e : BitVec w) :
    min (satAdd a b).toNat e.toNat = min (a.toNat + b.toNat) e.toNat := by
  have := e.isLt
  rw [toNat_satAdd]; omega

/-! ## A counter -/

theorem count_up (n : BitVec w) (i : Nat) :
    n + 1 + BitVec.ofNat w i = n + BitVec.ofNat w (i + 1) := by
  have hone : (1 : BitVec w) = BitVec.ofNat w 1 := rfl
  rw [hone, BitVec.add_assoc, ← BitVec.ofNat_add, Nat.add_comm 1 i]

/-- A counter that has been raised less than `2 ^ w` times shows another word. -/
theorem count_ne (n : BitVec w) {i : Nat} (h0 : 0 < i) (hi : i < 2 ^ w) :
    n + BitVec.ofNat w i ≠ n := by
  intro h
  have hval := congrArg BitVec.toNat h
  have hlt := n.isLt
  rw [BitVec.toNat_add, toNat_ofNat_of_lt hi] at hval
  rcases Nat.lt_or_ge (n.toNat + i) (2 ^ w) with hfits | hwraps
  · rw [Nat.mod_eq_of_lt hfits] at hval
    omega
  · rw [Nat.mod_eq_sub_mod hwraps, Nat.mod_eq_of_lt (by omega)] at hval
    omega

end Words
