import Mathlib.Order.Lattice

/-!
# Searching a sorted list

`BinarySearch α` is a search function with its contract: on a sorted list, `ok i` is an index that
holds the key and `error i` the index where the key can be inserted.  The contract says nothing
about which of several equal elements is found, nor about lists that are not sorted.

* `floorIndex_spec` — on a strictly increasing list whose first element is not above the key, a
  search whose insertion points are moved one back finds the last element not above the key;
* `linearFloor` — the scan of the whole list for that element;
* `halving` — a search that meets the contract: the size of the window is halved until one
  candidate is left.
-/

set_option autoImplicit false

variable {α : Type} [LinearOrder α]

/-- A search function for sorted lists, with what it promises. -/
structure BinarySearch (α : Type) [LinearOrder α] where
  run : List α → α → Except Nat Nat
  ok_spec : ∀ {xs : List α} {x : α} {i : Nat}, xs.Pairwise (· ≤ ·) → run xs x = .ok i →
    xs[i]? = some x
  error_spec : ∀ {xs : List α} {x : α} {i : Nat}, xs.Pairwise (· ≤ ·) → run xs x = .error i →
    i ≤ xs.length ∧ ∀ j y, xs[j]? = some y → (j < i → y < x) ∧ (i ≤ j → x < y)

namespace BinarySearch

theorem pairwise_le_of_lt {xs : List α} (h : xs.Pairwise (· < ·)) : xs.Pairwise (· ≤ ·) :=
  h.imp le_of_lt

theorem lt_of_index_lt {xs : List α} (hs : xs.Pairwise (· < ·)) {i j : Nat} {x y : α}
    (hi : xs[i]? = some x) (hj : xs[j]? = some y) (hij : i < j) : x < y := by
  obtain ⟨hi', rfl⟩ := List.getElem?_eq_some_iff.mp hi
  obtain ⟨hj', rfl⟩ := List.getElem?_eq_some_iff.mp hj
  exact List.pairwise_iff_getElem.mp hs i j hi' hj' hij

/-- Index `i` holds the last element not above `x`. -/
def IsFloor (xs : List α) (x : α) (i : Nat) : Prop :=
  ∃ y, xs[i]? = some y ∧ y ≤ x ∧ ∀ j z, xs[j]? = some z → i < j → x < z

/-- The search result with every insertion point moved one back, never below zero. -/
def floorIndex (bs : BinarySearch α) (xs : List α) (x : α) : Nat :=
  match bs.run xs x with
  | .ok i => i
  | .error i => i - 1

/-- **The last element not above the key.**  An insertion point is never zero here, so moving it
back does not clamp. -/
theorem floorIndex_spec (bs : BinarySearch α) {xs : List α} {x : α}
    (hs : xs.Pairwise (· < ·)) {x₀ : α} (h0 : xs[0]? = some x₀) (hle : x₀ ≤ x) :
    bs.run xs x ≠ .error 0 ∧ IsFloor xs x (bs.floorIndex xs x) := by
  have hs' := pairwise_le_of_lt hs
  unfold floorIndex
  cases h : bs.run xs x with
  | ok i =>
    have hi := bs.ok_spec hs' h
    exact ⟨by simp, x, hi, le_rfl, fun j z hj hij => lt_of_index_lt hs hi hj hij⟩
  | error i =>
    obtain ⟨hlen, hspec⟩ := bs.error_spec hs' h
    -- the first element is not above the key, so the key is not inserted in front of it
    have hpos : 0 < i := by
      rcases Nat.eq_zero_or_pos i with rfl | hpos
      · exact absurd ((hspec 0 x₀ h0).2 (Nat.le_refl 0)) (not_lt.mpr hle)
      · exact hpos
    have hlt : i - 1 < xs.length := by omega
    refine ⟨fun he => by simp only [Except.error.injEq] at he; omega, xs[i - 1],
      List.getElem?_eq_getElem hlt, ?_, ?_⟩
    · exact le_of_lt ((hspec (i - 1) _ (List.getElem?_eq_getElem hlt)).1 (by omega))
    · intro j z hj hij
      simp only at hij
      exact (hspec j z hj).2 (by omega)

/-! ## The linear scan -/

theorem IsFloor.le {xs : List α} {x y : α} {i j : Nat} (h : IsFloor xs x i)
    (hj : xs[j]? = some y) (hy : y ≤ x) : j ≤ i := by
  obtain ⟨-, -, -, hnext⟩ := h
  apply Nat.le_of_not_lt
  intro hij
  exact absurd hy (not_le.mpr (hnext j y hj hij))

theorem IsFloor.unique {xs : List α} {x : α} {i j : Nat} (hi : IsFloor xs x i)
    (hj : IsFloor xs x j) : i = j := by
  obtain ⟨y, hy, hyx, -⟩ := id hi
  obtain ⟨z, hz, hzx, -⟩ := id hj
  exact Nat.le_antisymm (hj.le hy hyx) (hi.le hz hzx)

/-- The scan of the whole list for the last element not above `x`. -/
def linearFloor (x : α) : List α → Option Nat
  | [] => none
  | y :: ys =>
    match linearFloor x ys with
    | some i => some (i + 1)
    | none => if y ≤ x then some 0 else none

theorem linearFloor_none {x : α} : ∀ {xs : List α}, linearFloor x xs = none →
    ∀ y ∈ xs, x < y
  | [], _, y, hy => by cases hy
  | z :: zs, h, y, hy => by
    rw [linearFloor] at h
    split at h
    · cases h
    · rename_i hrest
      split at h
      · cases h
      · rename_i hz
        rcases List.mem_cons.mp hy with rfl | hy
        · exact not_le.mp hz
        · exact linearFloor_none hrest y hy

theorem linearFloor_isFloor {x : α} : ∀ {xs : List α} {i : Nat}, linearFloor x xs = some i →
    IsFloor xs x i
  | [], _, h => by cases h
  | z :: zs, i, h => by
    rw [linearFloor] at h
    split at h
    · rename_i j hrest
      cases h
      obtain ⟨y, hy, hle, hnext⟩ := linearFloor_isFloor hrest
      refine ⟨y, hy, hle, fun k u hk hik => ?_⟩
      cases k with
      | zero => omega
      | succ k => exact hnext k u hk (by omega)
    · rename_i hrest
      split at h
      · rename_i hz
        cases h
        refine ⟨z, rfl, hz, fun k u hk hik => ?_⟩
        cases k with
        | zero => omega
        | succ k => exact linearFloor_none hrest u (List.mem_of_getElem? hk)
      · cases h

theorem linearFloor_eq_some_iff {x : α} {xs : List α} {i : Nat} :
    linearFloor x xs = some i ↔ IsFloor xs x i := by
  constructor
  · exact linearFloor_isFloor
  · intro h
    cases hscan : linearFloor x xs with
    | none =>
      obtain ⟨y, hy, hle, -⟩ := h
      have hlt := linearFloor_none hscan y (List.mem_of_getElem? hy)
      exact absurd hle (not_le.mpr hlt)
    | some j => rw [(linearFloor_isFloor hscan).unique h]

/-! ## A search that meets the contract -/

/-- The window `base … base + size`, halved until one candidate is left: its index. -/
def halve (xs : List α) (x : α) : Nat → Nat → Nat → Nat
  | 0, base, _ => base
  | fuel + 1, base, size =>
    if size ≤ 1 then base else
    match xs[base + size / 2]? with
    | some y => halve xs x fuel (if x < y then base else base + size / 2) (size - size / 2)
    | none => base

/-- The last candidate is compared with the key. -/
def halvingRun (xs : List α) (x : α) : Except Nat Nat :=
  match xs[halve xs x xs.length 0 xs.length]? with
  | none => .error 0
  | some y =>
    if y = x then .ok (halve xs x xs.length 0 xs.length)
    else if y < x then .error (halve xs x xs.length 0 xs.length + 1)
    else .error (halve xs x xs.length 0 xs.length)

theorem le_of_index_le {xs : List α} (hs : xs.Pairwise (· ≤ ·)) {i j : Nat} {x y : α}
    (hi : xs[i]? = some x) (hj : xs[j]? = some y) (hij : i ≤ j) : x ≤ y := by
  obtain ⟨hi', rfl⟩ := List.getElem?_eq_some_iff.mp hi
  obtain ⟨hj', rfl⟩ := List.getElem?_eq_some_iff.mp hj
  rcases Nat.lt_or_eq_of_le hij with hij | rfl
  · exact List.pairwise_iff_getElem.mp hs i j hi' hj' hij
  · exact le_rfl

/-- The candidate is the first element or not above the key, and all after it is above the key. -/
theorem halve_spec {xs : List α} {x : α} (hs : xs.Pairwise (· ≤ ·)) :
    ∀ fuel base size, size ≤ fuel → 0 < size → base + size ≤ xs.length →
      (base = 0 ∨ ∀ y, xs[base]? = some y → y ≤ x) →
      (∀ j y, xs[j]? = some y → base + size ≤ j → x < y) →
      halve xs x fuel base size < xs.length ∧
        (halve xs x fuel base size = 0 ∨ ∀ y, xs[halve xs x fuel base size]? = some y → y ≤ x) ∧
        ∀ j y, xs[j]? = some y → halve xs x fuel base size < j → x < y
  | 0, _, _, hf, h0, _, _, _ => by omega
  | fuel + 1, base, size, hf, h0, hlen, hbase, hhigh => by
    rw [halve]
    by_cases hsize : size ≤ 1
    · rw [if_pos hsize]
      exact ⟨by omega, hbase, fun j y hj hbj => hhigh j y hj (by omega)⟩
    · rw [if_neg hsize]
      have hmid : base + size / 2 < xs.length := by omega
      simp only [List.getElem?_eq_getElem hmid]
      by_cases hx : x < xs[base + size / 2]
      · -- the middle is above the key: keep the lower half
        rw [if_pos hx]
        refine halve_spec hs fuel base (size - size / 2) (by omega) (by omega) (by omega) hbase ?_
        intro j y hj hbj
        exact lt_of_lt_of_le hx (le_of_index_le hs (List.getElem?_eq_getElem hmid) hj (by omega))
      · -- the middle is not above the key: it becomes the new base
        rw [if_neg hx]
        refine halve_spec hs fuel (base + size / 2) (size - size / 2) (by omega) (by omega)
          (by omega) (Or.inr ?_) fun j y hj hbj => hhigh j y hj (by omega)
        intro y hy
        rw [List.getElem?_eq_getElem hmid, Option.some.injEq] at hy
        rw [← hy]; exact not_lt.mp hx

theorem halve_whole {xs : List α} {x y : α} (hs : xs.Pairwise (· ≤ ·))
    (hy : xs[halve xs x xs.length 0 xs.length]? = some y) :
    (halve xs x xs.length 0 xs.length = 0 ∨ y ≤ x) ∧
      ∀ j z, xs[j]? = some z → halve xs x xs.length 0 xs.length < j → x < z := by
  have hpos : 0 < xs.length := by
    rcases Nat.eq_zero_or_pos xs.length with h0 | hpos
    · rw [List.length_eq_zero_iff] at h0
      subst h0; simp at hy
    · exact hpos
  obtain ⟨_, hb, hhigh⟩ := halve_spec (x := x) hs xs.length 0 xs.length (Nat.le_refl _) hpos
    (by omega) (Or.inl rfl)
    fun j y hj hle => by rw [List.getElem?_eq_none (by omega)] at hj; cases hj
  exact ⟨hb.imp id fun h => h y hy, hhigh⟩

theorem halvingRun_ok {xs : List α} {x : α} {i : Nat} (h : halvingRun xs x = .ok i) :
    xs[i]? = some x := by
  unfold halvingRun at h
  split at h
  · cases h
  · rename_i y hy
    split at h
    · rename_i he
      cases h
      rw [hy, he]
    · split at h <;> cases h

theorem halvingRun_error {xs : List α} {x : α} {i : Nat} (hs : xs.Pairwise (· ≤ ·))
    (h : halvingRun xs x = .error i) :
    i ≤ xs.length ∧ ∀ j y, xs[j]? = some y → (j < i → y < x) ∧ (i ≤ j → x < y) := by
  unfold halvingRun at h
  split at h
  · rename_i hnone
    -- only the empty list has no candidate
    cases h
    refine ⟨Nat.zero_le _, fun j y hj => ⟨fun hj0 => by omega, fun _ => ?_⟩⟩
    have hpos : 0 < xs.length := by
      have := (List.getElem?_eq_some_iff.mp hj).1; omega
    obtain ⟨hlt, _, _⟩ := halve_spec (x := x) hs xs.length 0 xs.length (Nat.le_refl _) hpos
      (by omega) (Or.inl rfl)
      fun j y hj hle => by rw [List.getElem?_eq_none (by omega)] at hj; cases hj
    rw [List.getElem?_eq_getElem hlt] at hnone
    cases hnone
  · rename_i y hy
    obtain ⟨hb, hhigh⟩ := halve_whole hs hy
    have hlen := (List.getElem?_eq_some_iff.mp hy).1
    split at h
    · cases h
    · rename_i hne
      split at h
      · rename_i hlt
        cases h
        refine ⟨by omega, fun j z hj => ⟨fun hjb => ?_, fun hbj => hhigh j z hj (by omega)⟩⟩
        exact lt_of_le_of_lt (le_of_index_le hs hj hy (by omega)) hlt
      · rename_i hnlt
        -- a candidate above the key can only be the first element
        have h0 : halve xs x xs.length 0 xs.length = 0 := by
          rcases hb with hb | hb
          · exact hb
          · exact absurd (lt_of_le_of_ne hb hne) hnlt
        rw [h0] at hy hhigh h
        cases h
        refine ⟨Nat.zero_le _, fun j z hj => ⟨fun hj0 => by omega, fun _ => ?_⟩⟩
        rcases Nat.eq_zero_or_pos j with rfl | hj0
        · rw [hy, Option.some.injEq] at hj
          rw [← hj]; exact lt_of_le_of_ne (not_lt.mp hnlt) (Ne.symm hne)
        · exact hhigh j z hj hj0

/-- **The halving search meets the contract.** -/
def halving : BinarySearch α where
  run := halvingRun
  ok_spec _ h := halvingRun_ok h
  error_spec hs h := halvingRun_error hs h

end BinarySearch
