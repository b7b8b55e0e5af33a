import Mathlib.Algebra.Order.Ring.Nat
import Mathlib.Data.List.TakeWhile

/-!
# Numbers in a text

The decimal digits of a number, as `toString` writes them, and what of a text they determine.

* `toString_inj` — a number is told by its digits;
* `split_number`, `split_text` — and so is a number at the front of a text, or in the middle of it,
  up to the next character that is no digit;
* `length_digits_le_iff` — the numbers below `10 ^ k` have at most `k` digits; `length_digits_succ`.
-/

set_option autoImplicit false

namespace Decimal

/-- The digits of a number. -/
def digits (n : Nat) : List Char := Nat.toDigits 10 n

@[simp] theorem toList_toString (n : Nat) : (toString n).toList = digits n := Nat.toList_repr

theorem digits_inj {m n : Nat} (h : digits m = digits n) : m = n := by
  have hm := Nat.ofDigitChars_ten_toDigits (n := m)
  have hn := Nat.ofDigitChars_ten_toDigits (n := n)
  unfold digits at h
  rw [h] at hm
  exact hm.symm.trans hn

theorem toString_inj {m n : Nat} (h : toString m = toString n) : m = n :=
  digits_inj (by rw [← toList_toString, h, toList_toString])

theorem isDigit_of_mem {n : Nat} {c : Char} (h : c ∈ digits n) : c.isDigit = true :=
  Nat.isDigit_of_mem_toDigits (by decide) (by decide) h

theorem takeWhile_digits (n : Nat) {rest : List Char} (h : ∀ c, rest.head? = some c → ¬ c.isDigit) :
    (digits n ++ rest).takeWhile Char.isDigit = digits n := by
  rw [List.takeWhile_append_of_pos fun c hc => isDigit_of_mem hc]
  cases rest with
  | nil => simp
  | cons c rest => simp [h c rfl]

/-- **A number is read back** from the front of a text, and what follows it. -/
theorem split_number {m n : Nat} {r s : List Char} (hr : ∀ c, r.head? = some c → ¬ c.isDigit)
    (hs : ∀ c, s.head? = some c → ¬ c.isDigit) (h : digits m ++ r = digits n ++ s) :
    m = n ∧ r = s := by
  have hm := takeWhile_digits m hr
  rw [h, takeWhile_digits n hs] at hm
  obtain rfl := digits_inj hm
  exact ⟨rfl, List.append_cancel_left h⟩

theorem split_text {p r s : String} {m n : Nat} (hr : ∀ c, r.toList.head? = some c → ¬ c.isDigit)
    (hs : ∀ c, s.toList.head? = some c → ¬ c.isDigit)
    (h : p ++ (toString m ++ r) = p ++ (toString n ++ s)) : m = n ∧ r = s := by
  have hlist := congrArg String.toList h
  simp only [String.toList_append, toList_toString] at hlist
  obtain ⟨hmn, hrs⟩ := split_number hr hs (List.append_cancel_left hlist)
  exact ⟨hmn, String.toList_injective hrs⟩

theorem length_digits_le_iff {n k : Nat} (hk : 0 < k) : (digits n).length ≤ k ↔ n < 10 ^ k :=
  Nat.length_toDigits_le_iff (by decide) hk

theorem length_digits_pos (n : Nat) : 0 < (digits n).length := Nat.length_toDigits_pos

theorem lt_pow_length_digits (n : Nat) : n < 10 ^ (digits n).length :=
  (length_digits_le_iff (length_digits_pos n)).mp (Nat.le_refl _)

theorem length_digits_mono {m n : Nat} (h : m ≤ n) : (digits m).length ≤ (digits n).length :=
  (length_digits_le_iff (length_digits_pos n)).mpr
    (Nat.lt_of_le_of_lt h (lt_pow_length_digits n))

/-- **Counting on adds a digit** at the powers of ten, and nowhere else. -/
theorem length_digits_succ {n : Nat} (hn : 0 < n) :
    (digits (n + 1)).length = (digits n).length ↔ ∀ j, n + 1 ≠ 10 ^ j := by
  have hpos := length_digits_pos n
  have hlt := lt_pow_length_digits n
  have hmono := length_digits_mono (Nat.le_add_right n 1)
  constructor
  · intro hsame j hj
    have hnext := lt_pow_length_digits (n + 1)
    rw [hsame, hj] at hnext
    have hjlt := (Nat.pow_lt_pow_iff_right (by decide)).mp hnext
    -- below the power of ten there is a digit less
    have hjpos : 0 < j := by
      apply Nat.pos_of_ne_zero
      rintro rfl
      omega
    have hle := (length_digits_le_iff (n := n) hjpos).mpr (by omega)
    omega
  · intro hne
    have hle := (length_digits_le_iff (n := n + 1) hpos).mpr
      (Nat.lt_of_le_of_ne hlt (hne _))
    omega

end Decimal
