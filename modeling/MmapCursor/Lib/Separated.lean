import Mathlib.Data.List.DropRight
import Mathlib.Data.List.TakeWhile
import Mathlib.Order.Lattice.Nat

/-!
# Scans and separated fields of a list

* `stops f l p` — the offsets at or after `p` where a scan that passes the elements with `f` may
  stop; `isLeast_takeWhile` — where it does stop, and `IsLeast.stops_mono` — from any start in
  between it stops there too.
* `past d u` — what follows the first `d` of `u`; `iterate_past` — repeated, it goes behind the
  `k`-th `d`.
* `fields d u` — the parts of `u` that `d` ends, and what is left behind the last `d`:
  `fields_eq_cons` (the first part), `flatMap_fields` (nothing lost), `length_fields`, and
  `fields_splitOn`, the relation to `List.splitOn`.
-/

set_option autoImplicit false

namespace Separated

variable {α : Type}

/-! ## Where a scan stops -/

section Stops

variable {f : α → Bool} {l : List α} {p : Nat}

/-- The offsets at or after `p` that are the end of `l` or hold an element without `f`. -/
def stops (f : α → Bool) (l : List α) (p : Nat) : Set Nat :=
  {q | p ≤ q ∧ (q = l.length ∨ ∃ b, l[q]? = some b ∧ f b = false)}

theorem mem_stops {q : Nat} :
    q ∈ stops f l p ↔ p ≤ q ∧ (q = l.length ∨ ∃ b, l[q]? = some b ∧ f b = false) := Iff.rfl

/-- **A scan stops at the least such offset.** -/
theorem isLeast_takeWhile (hp : p ≤ l.length) :
    IsLeast (stops f l p) (p + ((l.drop p).takeWhile f).length) := by
  have hsplit : (l.drop p).takeWhile f ++ (l.drop p).dropWhile f = l.drop p :=
    List.takeWhile_append_dropWhile
  have hlen := congrArg List.length hsplit
  rw [List.length_append, List.length_drop] at hlen
  constructor
  · refine mem_stops.mpr ⟨Nat.le_add_right _ _, ?_⟩
    have hnot := List.head?_dropWhile_not f (l.drop p)
    cases hd : (l.drop p).dropWhile f with
    | nil =>
      rw [hd, List.length_nil] at hlen
      exact Or.inl (by omega)
    | cons b bs =>
      rw [hd] at hnot hsplit
      refine Or.inr ⟨b, ?_, by simpa using hnot⟩
      rw [← List.getElem?_drop, ← hsplit, List.getElem?_append_right (by rw [hsplit]),
        hsplit, Nat.sub_self]
      rfl
  · rintro q ⟨hpq, hq⟩
    apply Nat.le_of_not_lt
    intro hlt
    -- an offset in front of the stop holds an element of the passed part
    rcases hq with rfl | ⟨b, hb, hf⟩
    · omega
    · obtain ⟨d, rfl⟩ : ∃ d, q = p + d := ⟨q - p, by omega⟩
      rw [← List.getElem?_drop, ← hsplit, List.getElem?_append_left (by omega)] at hb
      have hall := List.all_eq_true.mp List.all_takeWhile b (List.mem_of_getElem? hb)
      rw [hf] at hall
      cases hall

theorem IsLeast.stops_mono {q r : Nat} (h : IsLeast (stops f l p) q) (hpr : p ≤ r) (hrq : r ≤ q) :
    IsLeast (stops f l r) q := by
  refine ⟨⟨hrq, h.1.2⟩, ?_⟩
  rintro x ⟨hrx, hx⟩
  exact h.2 ⟨by omega, hx⟩

end Stops

/-! ## Behind a separator -/

section Past

variable [BEq α] (d : α)

/-- What follows the first `d`. -/
def past (u : List α) : List α := (u.dropWhile (· != d)).drop 1

variable {d}

/-- The first `d` may be scanned for twice. -/
theorem past_dropWhile (u : List α) : past d (u.dropWhile (· != d)) = past d u := by
  rw [past, List.dropWhile_idempotent, past]

theorem length_past_lt {u : List α} (h : u ≠ []) : (past d u).length < u.length := by
  have hle := (List.dropWhile_suffix (l := u) (· != d)).length_le
  have hpos := List.length_pos_iff.mpr h
  rw [past, List.length_drop]
  omega

variable [LawfulBEq α]

theorem not_mem_takeWhile (u : List α) : d ∉ u.takeWhile (· != d) := by
  intro hmem
  have hall := List.all_eq_true.mp List.all_takeWhile d hmem
  simp at hall

theorem past_of_not_mem {u : List α} (h : d ∉ u) : past d u = [] := by
  have hdrop : u.dropWhile (· != d) = [] := by
    rw [List.dropWhile_eq_nil_iff]
    intro x hx
    simp only [bne_iff_ne]
    rintro rfl
    exact h hx
  rw [past, hdrop, List.drop_nil]

theorem eq_append_past {u : List α} (h : d ∈ u) :
    u = u.takeWhile (· != d) ++ d :: past d u := by
  have hsplit : u.takeWhile (· != d) ++ u.dropWhile (· != d) = u :=
    List.takeWhile_append_dropWhile
  have hnot := List.head?_dropWhile_not (· != d) u
  unfold past
  cases hd : u.dropWhile (· != d) with
  | nil =>
    rw [hd, List.append_nil] at hsplit
    rw [← hsplit] at h
    exact absurd h (not_mem_takeWhile u)
  | cons b bs =>
    rw [hd] at hnot hsplit
    have hb : b = d := by simpa using hnot
    rw [hb] at hsplit
    exact hsplit.symm

/-- **Behind the `k + 1`-st separator**, or nothing when there are fewer. -/
theorem iterate_past : ∀ (k : Nat) (u : List α),
    (u.count d ≤ k → (past d)^[k + 1] u = []) ∧
    (k < u.count d → ∃ pre, u = pre ++ d :: (past d)^[k + 1] u ∧ pre.count d = k)
  | 0, u => by
    constructor
    · intro hcount
      exact past_of_not_mem (List.count_eq_zero.mp (Nat.le_zero.mp hcount))
    · intro hcount
      refine ⟨_, eq_append_past (List.count_pos_iff.mp hcount), ?_⟩
      exact List.count_eq_zero.mpr (not_mem_takeWhile u)
  | k + 1, u => by
    rw [Function.iterate_succ_apply]
    obtain ⟨hfew, hmany⟩ := iterate_past k (past d u)
    by_cases hmem : d ∈ u
    · have hsplit := eq_append_past hmem
      have hcount : u.count d = (past d u).count d + 1 := by
        conv => lhs; rw [hsplit]
        rw [List.count_append, List.count_cons_self,
          List.count_eq_zero.mpr (not_mem_takeWhile u), Nat.zero_add]
      refine ⟨fun h => hfew (by omega), fun h => ?_⟩
      obtain ⟨pre, hpre, hk⟩ := hmany (by omega)
      refine ⟨u.takeWhile (· != d) ++ d :: pre, ?_, ?_⟩
      · conv => lhs; rw [hsplit, hpre]
        rw [List.append_assoc, List.cons_append]
      · rw [List.count_append, List.count_cons_self, hk,
          List.count_eq_zero.mpr (not_mem_takeWhile u), Nat.zero_add]
    · have hcount : u.count d = 0 := List.count_eq_zero.mpr hmem
      rw [past_of_not_mem hmem] at hfew hmany ⊢
      exact ⟨fun _ => hfew (by rw [List.count_nil]; exact Nat.zero_le k), fun h => by omega⟩

end Past

/-! ## Separated fields -/

section Closed

variable [BEq α] (d : α)

/-- The parts of a list that `d` ends, in order, and the part behind the last `d` if there is
something left. -/
def fields : List α → List (List α)
  | [] => []
  | x :: xs =>
    if x == d then [] :: fields xs
    else
      match fields xs with
      | [] => [[x]]
      | g :: gs => (x :: g) :: gs

/-- Nothing is left behind the last `d`. -/
def closed (u : List α) : Bool := u.getLast?.all (· == d)

@[simp] theorem closed_nil : closed d [] = true := rfl

@[simp] theorem closed_singleton (x : α) : closed d [x] = (x == d) := rfl

@[simp] theorem closed_cons_cons (x y : α) (ys : List α) :
    closed d (x :: y :: ys) = closed d (y :: ys) := by
  rw [closed, List.getLast?_cons_cons, closed]

end Closed

section Fields

variable [BEq α] [LawfulBEq α] {d : α}

theorem closed_iff {u : List α} : closed d u = true ↔ u = [] ∨ u.getLast? = some d := by
  cases h : u.getLast? with
  | none => simp [closed, List.getLast?_eq_none_iff.mp h]
  | some x =>
    have hne : u ≠ [] := by
      rintro rfl
      cases h
    simp [closed, h, hne]

theorem fields_cons_self (xs : List α) : fields d (d :: xs) = [] :: fields d xs := by
  rw [fields, if_pos (beq_self_eq_true d)]

theorem fields_singleton {x : α} (h : x ≠ d) : fields d [x] = [[x]] := by
  rw [fields, if_neg (by simpa using h)]
  rfl

/-- The list does not start with `d`: its first element belongs to the first field. -/
theorem fields_cons_cons {x : α} (h : x ≠ d) (y : α) (ys : List α) :
    ∃ g gs, fields d (y :: ys) = g :: gs ∧ fields d (x :: y :: ys) = (x :: g) :: gs := by
  have hne : fields d (y :: ys) ≠ [] := by
    rw [fields]
    split
    · exact List.cons_ne_nil _ _
    · split <;> exact List.cons_ne_nil _ _
  obtain ⟨g, gs, hg⟩ := List.exists_cons_of_ne_nil hne
  refine ⟨g, gs, hg, ?_⟩
  rw [fields, if_neg (by simpa using h), hg]

/-- The first field ends in front of the first `d`; the others are the fields behind it. -/
theorem fields_eq_cons : ∀ {u : List α}, u ≠ [] →
    fields d u = u.takeWhile (· != d) :: fields d (past d u)
  | [], h => absurd rfl h
  | x :: xs, _ => by
    by_cases hx : x = d
    · rw [hx, fields_cons_self]
      simp [past]
    · have htake : (x :: xs).takeWhile (· != d) = x :: xs.takeWhile (· != d) := by simp [hx]
      have hpast : past d (x :: xs) = past d xs := by simp [past, hx]
      rw [htake, hpast]
      cases xs with
      | nil => exact fields_singleton hx
      | cons y ys =>
        obtain ⟨g, gs, hg, heq⟩ := fields_cons_cons hx y ys
        have hrec := fields_eq_cons (List.cons_ne_nil y ys)
        rw [hg, List.cons.injEq] at hrec
        rw [heq, hrec.1, hrec.2]

theorem not_mem_of_mem_fields : ∀ {u g : List α}, g ∈ fields d u → d ∉ g
  | [], _, h => by cases h
  | x :: xs, g, h => by
    by_cases hx : x = d
    · rw [hx, fields_cons_self] at h
      rcases List.mem_cons.mp h with rfl | h
      · exact List.not_mem_nil
      · exact not_mem_of_mem_fields h
    · cases xs with
      | nil =>
        rw [fields_singleton hx, List.mem_singleton] at h
        subst h
        simpa using Ne.symm hx
      | cons y ys =>
        obtain ⟨g', gs, hg, heq⟩ := fields_cons_cons hx y ys
        have hrec : ∀ g ∈ fields d (y :: ys), d ∉ g := fun g hmem => not_mem_of_mem_fields hmem
        rw [hg] at hrec
        rw [heq] at h
        rcases List.mem_cons.mp h with rfl | h
        · have := hrec g' List.mem_cons_self
          simp [Ne.symm hx, this]
        · exact hrec g (List.mem_cons_of_mem _ h)

/-- **Nothing is lost**: the fields, each closed by `d`, are the list, with a last `d` added if
something was left behind the last one. -/
theorem flatMap_fields : ∀ u : List α,
    (fields d u).flatMap (· ++ [d]) = u ++ if closed d u then [] else [d]
  | [] => rfl
  | x :: xs => by
    by_cases hx : x = d
    · rw [hx, fields_cons_self, List.flatMap_cons, flatMap_fields xs]
      cases xs <;> simp
    · cases xs with
      | nil => simp [fields_singleton hx, hx]
      | cons y ys =>
        obtain ⟨g, gs, hg, heq⟩ := fields_cons_cons hx y ys
        have hrec := flatMap_fields (y :: ys)
        rw [hg, List.flatMap_cons] at hrec
        rw [heq, List.flatMap_cons, List.cons_append, List.cons_append, hrec, closed_cons_cons]
        rfl

theorem length_fields : ∀ u : List α,
    (fields d u).length = u.count d + if closed d u then 0 else 1
  | [] => rfl
  | x :: xs => by
    by_cases hx : x = d
    · rw [hx, fields_cons_self, List.length_cons, length_fields xs, List.count_cons_self]
      cases xs with
      | nil => simp
      | cons y ys => rw [closed_cons_cons]; omega
    · rw [List.count_cons_of_ne hx]
      cases xs with
      | nil => simp [fields_singleton hx, hx]
      | cons y ys =>
        obtain ⟨g, gs, hg, heq⟩ := fields_cons_cons hx y ys
        have hrec := length_fields (y :: ys)
        rw [hg] at hrec
        rw [heq, closed_cons_cons, ← hrec]
        rfl

/-- Splitting at `d` gives the fields, and an empty part behind a last `d`. -/
theorem fields_splitOn : ∀ u : List α,
    u.splitOn d = fields d u ++ if closed d u then [[]] else []
  | [] => rfl
  | x :: xs => by
    rw [List.splitOn_cons_eq_if_modifyHead, fields_splitOn xs]
    by_cases hx : x = d
    · rw [hx, if_pos (beq_self_eq_true d), fields_cons_self]
      cases xs <;> simp
    · rw [if_neg (by simpa using hx)]
      cases xs with
      | nil => simp [hx, fields]
      | cons y ys =>
        obtain ⟨g, gs, hg, heq⟩ := fields_cons_cons hx y ys
        rw [heq, hg, closed_cons_cons]
        rfl

end Fields

end Separated
