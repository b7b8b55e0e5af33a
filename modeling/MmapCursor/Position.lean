import MmapCursor.Lib.Words

/-!
# Byte positions and byte ranges

Model of `position.rs` for a platform whose `usize` has `w` bits, `w` arbitrary:

* `Usize`, `BytePos`, `ByteRange` — `ByteRange` carries `start ≤ end`, as every constructor of the
  source establishes it;
* `Res` — the result of a call that may fail to return. `Fault` lists the panics that the modelled
  functions contain, so "never panics" is the statement that a call is `Except.ok`.

Every operation is read through `BytePos.toNat`; the `simp` lemmas here push it to `Nat`.
-/

set_option autoImplicit false

namespace MmapCursor

variable {w : Nat}

/-- Why a call does not return a value. -/
inductive Fault where
  /-- `s[i]` outside the slice. -/
  | indexOutOfBounds
  /-- `s[a..b]` with `a > b`, or `b` past the end of the slice. -/
  | sliceOutOfRange
  /-- `assert!(start <= end, "ByteRange: start > end")`. -/
  | startGreaterThanEnd
  /-- Unchecked `usize` addition past `usize::MAX`: a panic in debug, a wrap in release. -/
  | addOverflow
  /-- A loop of the model that is still running when its fuel is spent. -/
  | outOfFuel
  deriving DecidableEq, Repr

/-- A call that returns, or faults. -/
abbrev Res (α : Type) := Except Fault α

/-- `usize` on a platform with `w`-bit words. -/
abbrev Usize (w : Nat) := BitVec w

/-- `u64`. -/
abbrev U64 := BitVec 64

namespace Usize

/-- `usize::MAX`. -/
def MAX : Usize w := Words.maxWord w

/-- `usize::saturating_add`. -/
def saturatingAdd (a b : Usize w) : Usize w := Words.satAdd a b

/-- `usize::saturating_sub`. -/
def saturatingSub (a b : Usize w) : Usize w := Words.satSub a b

/-- The plain `+` of the source, which must not overflow. -/
def plus (a b : Usize w) : Res (Usize w) :=
  if Words.addOverflows a b then .error .addOverflow else .ok (a + b)

/-- `usize::try_from`, from a `u64`. -/
def tryFrom (n : U64) : Option (Usize w) := Words.narrow w n

theorem toNat_saturatingAdd (a b : Usize w) :
    (saturatingAdd a b).toNat = min (a.toNat + b.toNat) (2 ^ w - 1) := Words.toNat_satAdd a b

@[simp] theorem toNat_saturatingSub (a b : Usize w) :
    (saturatingSub a b).toNat = a.toNat - b.toNat := Words.toNat_satSub a b

theorem plus_eq {a b : Usize w} {n : Nat} (h : a.toNat + b.toNat = n) (hn : n < 2 ^ w) :
    plus a b = .ok (BitVec.ofNat w n) := by
  have hf : ¬ Words.addOverflows a b := by unfold Words.addOverflows; omega
  unfold plus
  rw [if_neg hf]
  congr 1
  apply Words.eq_of_toNat
  rw [Words.toNat_add_of_fits hf, Words.toNat_ofNat_of_lt hn, h]

theorem toNat_zero : (0 : Usize w).toNat = 0 := BitVec.toNat_zero

/-- A literal, wherever some number that is not smaller is a `usize` at all. -/
theorem toNat_literal {k n : Nat} (hk : k ≤ n) (hn : n < 2 ^ w) :
    (OfNat.ofNat k : Usize w).toNat = k := Words.toNat_ofNat_of_lt (Nat.lt_of_le_of_lt hk hn)

theorem plus_literal {a : Usize w} {k : Nat} (h : a.toNat + k < 2 ^ w) :
    plus a (OfNat.ofNat k) = .ok (BitVec.ofNat w (a.toNat + k)) :=
  plus_eq (by rw [toNat_literal (Nat.le_add_left k _) h]) h

end Usize

/-- A byte offset into a snapshot. -/
structure BytePos (w : Nat) where
  toUsize : Usize w
  deriving DecidableEq, Repr

namespace BytePos

/-- `BytePos::new`. -/
def new (n : Usize w) : BytePos w := ⟨n⟩

/-- `BytePos::ZERO`. -/
def ZERO : BytePos w := ⟨0⟩

/-- The offset as a natural number. -/
def toNat (p : BytePos w) : Nat := p.toUsize.toNat

instance : LE (BytePos w) := ⟨fun a b => a.toUsize ≤ b.toUsize⟩

instance : LT (BytePos w) := ⟨fun a b => a.toUsize < b.toUsize⟩

instance (a b : BytePos w) : Decidable (a ≤ b) :=
  inferInstanceAs (Decidable (a.toUsize ≤ b.toUsize))

instance (a b : BytePos w) : Decidable (a < b) :=
  inferInstanceAs (Decidable (a.toUsize < b.toUsize))

/-- `Ord::min`, for the derived order. -/
def min (a b : BytePos w) : BytePos w := if b < a then b else a

/-- `BytePos::saturating_add`. -/
def saturatingAdd (a b : BytePos w) : BytePos w := ⟨Usize.saturatingAdd a.toUsize b.toUsize⟩

/-- `BytePos::saturating_sub`. -/
def saturatingSub (a b : BytePos w) : BytePos w := ⟨Usize.saturatingSub a.toUsize b.toUsize⟩

theorem le_iff {a b : BytePos w} : a ≤ b ↔ a.toNat ≤ b.toNat := Iff.rfl

theorem lt_iff {a b : BytePos w} : a < b ↔ a.toNat < b.toNat := Iff.rfl

theorem toNat_lt (p : BytePos w) : p.toNat < 2 ^ w := p.toUsize.isLt

theorem ext_toNat {a b : BytePos w} (h : a.toNat = b.toNat) : a = b := by
  cases a; cases b; congr; exact Words.eq_of_toNat h

@[simp] theorem toNat_new (n : Usize w) : (new n).toNat = n.toNat := rfl

@[simp] theorem toNat_toUsize (p : BytePos w) : p.toUsize.toNat = p.toNat := rfl

@[simp] theorem toNat_ZERO : (ZERO : BytePos w).toNat = 0 := by simp [ZERO, toNat]

@[simp] theorem toNat_min (a b : BytePos w) : (a.min b).toNat = Min.min a.toNat b.toNat := by
  unfold min
  split
  · rename_i h; rw [lt_iff] at h; exact (Nat.min_eq_right (by omega)).symm
  · rename_i h; rw [lt_iff] at h; exact (Nat.min_eq_left (by omega)).symm

theorem toNat_saturatingAdd (a b : BytePos w) :
    (a.saturatingAdd b).toNat = Min.min (a.toNat + b.toNat) (2 ^ w - 1) :=
  Words.toNat_satAdd _ _

@[simp] theorem toNat_saturatingSub (a b : BytePos w) :
    (a.saturatingSub b).toNat = a.toNat - b.toNat := Words.toNat_satSub _ _

/-- Stepping forward and clamping: the saturation of the step never shows. -/
theorem toNat_saturatingAdd_min (a b e : BytePos w) :
    ((a.saturatingAdd b).min e).toNat = Min.min (a.toNat + b.toNat) e.toNat := by
  rw [toNat_min]
  exact Words.min_toNat_satAdd _ _ _

end BytePos

/-- A half-open byte range `start..end`. -/
structure ByteRange (w : Nat) where
  start : BytePos w
  end_ : BytePos w
  start_le_end : start ≤ end_
  deriving DecidableEq, Repr

namespace ByteRange

/-- `ByteRange::new`, which asserts `start <= end`. -/
def new (start end_ : BytePos w) : Res (ByteRange w) :=
  if h : start ≤ end_ then .ok ⟨start, end_, h⟩ else .error .startGreaterThanEnd

/-- `ByteRange::len`. -/
def len (r : ByteRange w) : Usize w := (r.end_.saturatingSub r.start).toUsize

theorem new_eq {start end_ : BytePos w} (h : start ≤ end_) :
    new start end_ = .ok ⟨start, end_, h⟩ := dif_pos h

@[simp] theorem toNat_len (r : ByteRange w) : r.len.toNat = r.end_.toNat - r.start.toNat :=
  Words.toNat_satSub _ _

end ByteRange

end MmapCursor
