import Mathlib.Data.Nat.Count
import Mathlib.Data.List.Range
import Mathlib.Data.Prod.Lex
import Mathlib.Data.Set.Function

/-!
# Segments of an interval, cut after its marked positions

A decidable predicate `p` marks positions; position `i` marked means that a segment ends with `i`
and the next one starts at `i + 1`.

* `starts p n` — the starts of the segments of `0 … n`; `startOf p o` — the start of the segment
  that holds the offset `o`; `Nat.count p o` is the number of that segment.
* `start_le_iff` — the adjunction between the two: segment `k` starts at or before `o` exactly when
  `k ≤ Nat.count p o`.  The other facts about lookups follow from it.
* `starts_add` — the starts of a concatenation.
* `locate_strictMono`, `locate_bijOn` — offsets and (segment, distance from its start) pairs are
  in order-preserving bijection.
* `count_of_iff_or`, `count_getElem?` — marks of two kinds, and marks at the places of one element.
* `pieces` — the parts of a list between consecutive cut points; `pieces_shift` — cut points move
  with a prefix.
-/

set_option autoImplicit false

namespace Segments

section Starts

variable (p : Nat → Prop) [DecidablePred p]

/-- Offset `0`, and the offset after every marked position below `n`. -/
def starts (n : Nat) : List Nat := 0 :: ((List.range n).filter fun i => decide (p i)).map (· + 1)

/-- The last start not after `o`. -/
def startOf : Nat → Nat
  | 0 => 0
  | o + 1 => if p o then o + 1 else startOf o

@[simp] theorem starts_zero : starts p 0 = [0] := rfl

theorem starts_succ (n : Nat) :
    starts p (n + 1) = starts p n ++ if p n then [n + 1] else [] := by
  unfold starts
  rw [List.range_succ, List.filter_append, List.map_append, List.cons_append]
  by_cases h : p n <;> simp [h]

@[simp] theorem length_starts (n : Nat) : (starts p n).length = Nat.count p n + 1 := by
  induction n with
  | zero => rfl
  | succ n ih =>
    rw [starts_succ, List.length_append, ih, Nat.count_succ]
    split
    · rw [List.length_singleton]
    · rw [List.length_nil]

theorem mem_starts {n s : Nat} : s ∈ starts p n ↔ s = 0 ∨ ∃ i, i < n ∧ p i ∧ s = i + 1 := by
  unfold starts
  simp only [List.mem_cons, List.mem_map, List.mem_filter, List.mem_range, decide_eq_true_eq]
  constructor
  · rintro (rfl | ⟨i, ⟨hi, hp⟩, rfl⟩)
    · exact Or.inl rfl
    · exact Or.inr ⟨i, hi, hp, rfl⟩
  · rintro (rfl | ⟨i, hi, hp, rfl⟩)
    · exact Or.inl rfl
    · exact Or.inr ⟨i, ⟨hi, hp⟩, rfl⟩

theorem succ_mem_starts {n i : Nat} : i + 1 ∈ starts p n ↔ i < n ∧ p i := by
  rw [mem_starts]
  constructor
  · rintro (h | ⟨j, hj, hp, heq⟩)
    · cases h
    · cases heq
      exact ⟨hj, hp⟩
  · rintro ⟨hi, hp⟩
    exact Or.inr ⟨i, hi, hp, rfl⟩

theorem starts_le {n s : Nat} (h : s ∈ starts p n) : s ≤ n := by
  rcases (mem_starts p).mp h with rfl | ⟨i, hi, _, rfl⟩
  · exact Nat.zero_le n
  · exact hi

theorem starts_of_none {n : Nat} (h : ∀ i < n, ¬ p i) : starts p n = [0] := by
  induction n with
  | zero => rfl
  | succ n ih =>
    rw [starts_succ, if_neg (h n (Nat.lt_succ_self n)), List.append_nil]
    exact ih fun i hi => h i (by omega)

theorem starts_congr {q : Nat → Prop} [DecidablePred q] {n : Nat} (h : ∀ i < n, p i ↔ q i) :
    starts p n = starts q n := by
  unfold starts
  congr 2
  apply List.filter_congr
  intro i hi
  rw [List.mem_range] at hi
  simp only [h i hi]

/-- **Concatenation.**  The starts of the second part are shifted; its leading `0` is no new
start. -/
theorem starts_add (n m : Nat) :
    starts p (n + m) = starts p n ++ ((starts (fun i => p (n + i)) m).tail).map (· + n) := by
  unfold starts
  rw [List.range_add, List.filter_append, List.map_append, List.filter_map, List.tail_cons,
    List.cons_append, List.map_map, List.map_map]
  congr 3
  funext i
  simp only [Function.comp]
  omega

theorem starts_of_none_between {m n : Nat} (hle : m ≤ n) (h : ∀ i, m ≤ i → i < n → ¬ p i) :
    starts p n = starts p m := by
  obtain ⟨d, rfl⟩ : ∃ d, n = m + d := ⟨n - m, by omega⟩
  rw [starts_add, starts_of_none (fun i => p (m + i)) fun i hi => h (m + i) (by omega) (by omega)]
  exact List.append_nil _

theorem starts_split {m n : Nat} (h : m ≤ n) :
    ∃ t, starts p n = starts p m ++ t ∧ ∀ s ∈ t, m < s ∧ s ≤ n := by
  obtain ⟨d, rfl⟩ : ∃ d, n = m + d := ⟨n - m, by omega⟩
  refine ⟨_, starts_add p m d, fun s hs => ?_⟩
  obtain ⟨r, hr, rfl⟩ := List.mem_map.mp hs
  have hr' : ∃ i, (i < d ∧ p (m + i)) ∧ i + 1 = r := by
    simpa [starts, List.mem_filter, List.mem_range] using hr
  obtain ⟨i, ⟨hi, _⟩, rfl⟩ := hr'
  omega

theorem starts_pairwise (n : Nat) : (starts p n).Pairwise (· < ·) := by
  induction n with
  | zero => simp
  | succ n ih =>
    rw [starts_succ, List.pairwise_append]
    refine ⟨ih, by split <;> simp, ?_⟩
    intro a ha b hb
    have := starts_le p ha
    split at hb
    · rw [List.mem_singleton] at hb; omega
    · cases hb

/-- **The adjunction between starts and counts.** -/
theorem start_le_iff {n k s o : Nat} (hk : (starts p n)[k]? = some s) (ho : o ≤ n) :
    s ≤ o ↔ k ≤ Nat.count p o := by
  obtain ⟨t, ht, hlt⟩ := starts_split p ho
  rw [ht, List.getElem?_append, length_starts] at hk
  split at hk
  · have := starts_le p (List.mem_of_getElem? hk)
    constructor <;> omega
  · have := (hlt s (List.mem_of_getElem? hk)).1
    constructor <;> omega

theorem startOf_le (o : Nat) : startOf p o ≤ o := by
  induction o with
  | zero => exact Nat.le_refl 0
  | succ o ih => rw [startOf]; split <;> omega

theorem starts_getElem?_count {n o : Nat} (ho : o ≤ n) :
    (starts p n)[Nat.count p o]? = some (startOf p o) := by
  suffices h : (starts p o)[Nat.count p o]? = some (startOf p o) by
    obtain ⟨t, ht, _⟩ := starts_split p ho
    rw [ht, List.getElem?_append_left (by rw [length_starts]; omega)]
    exact h
  clear ho
  induction o with
  | zero => rfl
  | succ o ih =>
    rw [starts_succ, Nat.count_succ, startOf]
    by_cases h : p o
    · rw [if_pos h, if_pos h, if_pos h, List.getElem?_append_right (by simp)]
      simp
    · rw [if_neg h, if_neg h, if_neg h, List.append_nil, Nat.add_zero]
      exact ih

theorem count_eq_of_between {n k s o : Nat} (hk : (starts p n)[k]? = some s) (hs : s ≤ o)
    (ho : o ≤ n) (hnext : ∀ s', (starts p n)[k + 1]? = some s' → o < s') :
    Nat.count p o = k ∧ startOf p o = s := by
  have hle := (start_le_iff p hk ho).mp hs
  have hcount : Nat.count p o = k := by
    rcases Nat.lt_or_eq_of_le hle with hlt | h
    · -- the next segment would start at or before `o`
      have hmono := Nat.count_monotone p ho
      have hlen : k + 1 < (starts p n).length := by rw [length_starts]; omega
      have hk1 := List.getElem?_eq_getElem hlen
      have h1 := hnext _ hk1
      have h2 := (start_le_iff p hk1 ho).mpr hlt
      omega
    · exact h.symm
  have hst := starts_getElem?_count p ho
  rw [hcount, hk, Option.some.injEq] at hst
  exact ⟨hcount, hst.symm⟩

/-! ## Offsets as pairs -/

/-- An offset as (number of its segment, distance from the start of that segment). -/
def locate (o : Nat) : Nat × Nat := (Nat.count p o, o - startOf p o)

@[simp] theorem locate_zero : locate p 0 = (0, 0) := by simp [locate, startOf]

/-- One position further: a marked position opens a segment, any other one widens it. -/
theorem locate_succ (q : Nat) :
    locate p (q + 1) =
      if p q then ((locate p q).1 + 1, 0) else ((locate p q).1, (locate p q).2 + 1) := by
  have := startOf_le p q
  unfold locate
  rw [Nat.count_succ, startOf]
  by_cases h : p q
  · simp [h]
  · simp only [if_neg h, Nat.add_zero, Prod.mk.injEq, true_and]; omega

theorem locate_congr {q : Nat → Prop} [DecidablePred q] {o : Nat} (h : ∀ i < o, p i ↔ q i) :
    locate p o = locate q o := by
  induction o with
  | zero => rw [locate_zero, locate_zero]
  | succ o ih =>
    rw [locate_succ, locate_succ, ih fun i hi => h i (by omega)]
    simp only [h o (Nat.lt_succ_self o)]

theorem startOf_add_locate (o : Nat) : startOf p o + (locate p o).2 = o := by
  have := startOf_le p o
  unfold locate; simp only; omega

theorem locate_inj {n o o' : Nat} (ho : o ≤ n) (ho' : o' ≤ n) (h : locate p o = locate p o') :
    o = o' := by
  have h1 : Nat.count p o = Nat.count p o' := congrArg Prod.fst h
  have h2 : (locate p o).2 = (locate p o').2 := congrArg Prod.snd h
  have hs := starts_getElem?_count p ho
  rw [h1, starts_getElem?_count p ho', Option.some.injEq] at hs
  rw [← startOf_add_locate p o, ← startOf_add_locate p o', hs, h2]

/-- **Later offsets have larger pairs.** -/
theorem locate_strictMono {o o' : Nat} (h : o < o') :
    toLex (locate p o) < toLex (locate p o') := by
  rw [Prod.Lex.toLex_lt_toLex]
  have hmono : Nat.count p o ≤ Nat.count p o' := Nat.count_monotone p (Nat.le_of_lt h)
  rcases Nat.lt_or_eq_of_le hmono with hlt | heq
  · exact Or.inl hlt
  · -- the same segment: the same start
    refine Or.inr ⟨heq, ?_⟩
    have hs := starts_getElem?_count p (Nat.le_of_lt h)
    rw [heq, starts_getElem?_count p (Nat.le_refl o'), Option.some.injEq] at hs
    have h1 := startOf_add_locate p o
    have h2 := startOf_add_locate p o'
    omega

/-- The pairs that some offset up to `n` has: a distance within the segment, where the last
segment also holds the offset `n` itself. -/
def pairs (n : Nat) : Set (Nat × Nat) :=
  {x | ∃ s, (starts p n)[x.1]? = some s ∧ s + x.2 ≤ n ∧
    ∀ s', (starts p n)[x.1 + 1]? = some s' → s + x.2 < s'}

/-- The distances that a segment allows: below its end, and in the last segment the end itself. -/
theorem mem_pairs {n k d s : Nat} (hs : (starts p n)[k]? = some s) :
    (k, d) ∈ pairs p n ↔
      (k + 1 < (starts p n).length → s + d < (starts p n)[k + 1]?.getD n) ∧
      (k + 1 = (starts p n).length → s + d ≤ (starts p n)[k + 1]?.getD n) := by
  have hk := (List.getElem?_eq_some_iff.mp hs).1
  constructor
  · rintro ⟨s', hs', hle, hnext⟩
    simp only at hs' hle hnext
    rw [hs, Option.some.injEq] at hs'
    subst hs'
    refine ⟨fun h => ?_, fun h => ?_⟩
    · have hget := List.getElem?_eq_getElem h
      rw [hget, Option.getD_some]
      exact hnext _ hget
    · rw [List.getElem?_eq_none (by omega), Option.getD_none]
      exact hle
  · rintro ⟨hmid, hlast⟩
    refine ⟨s, hs, ?_, fun s' hs' => ?_⟩
    · rcases Nat.lt_or_ge (k + 1) (starts p n).length with h | h
      · have hget := List.getElem?_eq_getElem h
        have hbound := starts_le p (List.mem_of_getElem? hget)
        have hlt := hmid h
        rw [hget, Option.getD_some] at hlt
        show s + d ≤ n
        omega
      · have hle := hlast (by omega)
        rwa [List.getElem?_eq_none (by omega), Option.getD_none] at hle
    · have hlt := hmid (List.getElem?_eq_some_iff.mp hs').1
      rwa [hs', Option.getD_some] at hlt

theorem locate_of_mem_pairs {n k d s : Nat} (hs : (starts p n)[k]? = some s)
    (h : (k, d) ∈ pairs p n) : locate p (s + d) = (k, d) ∧ s + d ≤ n := by
  obtain ⟨s', hs', hle, hnext⟩ := h
  simp only at hs' hle hnext
  rw [hs, Option.some.injEq] at hs'
  subst hs'
  obtain ⟨hc, hst⟩ := count_eq_of_between p hs (by omega) hle hnext
  refine ⟨?_, hle⟩
  unfold locate
  rw [hc, hst, Nat.add_sub_cancel_left]

/-- **Offsets `0 … n` and pairs correspond one to one.** -/
theorem locate_bijOn (n : Nat) : Set.BijOn (locate p) (Set.Iic n) (pairs p n) := by
  refine ⟨?_, fun o ho o' ho' h => locate_inj p ho ho' h, ?_⟩
  · intro o ho
    refine ⟨startOf p o, starts_getElem?_count p ho, ?_, ?_⟩
    · rw [startOf_add_locate]; exact ho
    · intro s' hs'
      rw [startOf_add_locate]
      -- otherwise the next segment would start at or before `o`
      rcases Nat.lt_or_ge o s' with hlt | hge
      · exact hlt
      · have := (start_le_iff p hs' ho).mp hge
        unfold locate at this
        simp only at this
        omega
  · rintro ⟨k, d⟩ hx
    obtain ⟨s, hs, _, _⟩ := id hx
    obtain ⟨hloc, hle⟩ := locate_of_mem_pairs p hs hx
    exact ⟨s + d, hle, hloc⟩

end Starts

/-! ## Counting marks -/

theorem count_of_iff_or {p q r : Nat → Prop} [DecidablePred p] [DecidablePred q] [DecidablePred r]
    (hp : ∀ i, p i ↔ q i ∨ r i) (hne : ∀ i, q i → ¬ r i) (n : Nat) :
    Nat.count p n = Nat.count q n + Nat.count r n := by
  induction n with
  | zero => rfl
  | succ n ih =>
    rw [Nat.count_succ, Nat.count_succ, Nat.count_succ, ih]
    by_cases hq : q n
    · have hr := hne n hq
      simp only [hp, hq, hr, or_false, if_true, if_false]
      omega
    · by_cases hr : r n
      · simp only [hp, hq, hr, or_true, if_true, if_false]
        omega
      · simp only [hp, hq, hr, or_false, if_false]
        omega

theorem iff_of_count_eq {p q : Nat → Prop} [DecidablePred p] [DecidablePred q] {n : Nat}
    (h : ∀ o ≤ n, Nat.count p o = Nat.count q o) {i : Nat} (hi : i < n) : p i ↔ q i := by
  have hnext := h (i + 1) hi
  rw [Nat.count_succ, Nat.count_succ, h i (by omega)] at hnext
  by_cases hp : p i <;> by_cases hq : q i <;> simp_all

theorem count_getElem? {α : Type} [DecidableEq α] (l : List α) (b : α) (n : Nat) :
    Nat.count (fun i => l[i]? = some b) n = (l.take n).count b := by
  induction n with
  | zero => rfl
  | succ n ih =>
    rw [Nat.count_succ, ih, List.take_add_one, List.count_append]
    congr 1
    cases l[n]? with
    | none => rfl
    | some a => simp [List.count_singleton]

/-! ## Pieces of a list -/

section Pieces

variable {α : Type}

/-- The parts of `l` between consecutive cut points; the last one runs to the end. -/
def pieces (l : List α) : List Nat → List (List α)
  | [] => []
  | [c] => [l.drop c]
  | c :: d :: cs => l.extract c d :: pieces l (d :: cs)

@[simp] theorem length_pieces (l : List α) : ∀ cs : List Nat, (pieces l cs).length = cs.length
  | [] => rfl
  | [_] => rfl
  | _ :: d :: cs => by simp only [pieces, List.length_cons, length_pieces l (d :: cs)]

/-- A piece runs from its cut point to the next one, or to the end. -/
theorem pieces_getElem? (l : List α) : ∀ {cs : List Nat} {i c : Nat}, cs[i]? = some c →
    (pieces l cs)[i]? = some (l.extract c (cs[i + 1]?.getD l.length))
  | [], _, _, h => by simp at h
  | [c], 0, _, h => by
    simp only [List.getElem?_cons_zero, Option.some.injEq] at h
    subst h
    simp [pieces, List.take_of_length_le]
  | [_], _ + 1, _, h => by simp at h
  | c :: d :: cs, 0, _, h => by
    simp only [List.getElem?_cons_zero, Option.some.injEq] at h
    subst h
    rfl
  | _ :: d :: cs, i + 1, c', h => by
    rw [List.getElem?_cons_succ] at h
    rw [pieces, List.getElem?_cons_succ, pieces_getElem? l h]
    simp only [List.getElem?_cons_succ]

theorem pieces_shift (a b : List α) : ∀ cs : List Nat,
    pieces (a ++ b) (cs.map (· + a.length)) = pieces b cs
  | [] => rfl
  | [c] => by simp [pieces, List.drop_append, List.drop_eq_nil_of_le]
  | c :: d :: cs => by
    have hrec := pieces_shift a b (d :: cs)
    simp only [List.map_cons] at hrec ⊢
    rw [pieces, pieces, hrec, List.extract_eq_take_drop, List.extract_eq_take_drop,
      Nat.add_comm c, ← List.drop_drop, List.drop_left, Nat.add_comm d,
      Nat.add_sub_add_left]

theorem pieces_cons_shift (a b : List α) (cs : List Nat) :
    pieces (a ++ b) (0 :: (0 :: cs).map (· + a.length)) = a :: pieces b (0 :: cs) := by
  rw [← pieces_shift a b (0 :: cs), List.map_cons, pieces, Nat.zero_add,
    List.extract_eq_take_drop, List.drop_zero, Nat.sub_zero, List.take_left]

end Pieces

end Segments
