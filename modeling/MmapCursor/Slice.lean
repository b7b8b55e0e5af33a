import MmapCursor.Position

/-!
# Byte slices

* `Slice w` — a `&[u8]`: a byte string whose length is a `usize`.
* `Snapshot w` — a slice within Rust's size limit, at most `isize::MAX = 2 ^ (w - 1) - 1` bytes.
  No longer byte string can be borrowed, so these are the arguments `LineIndex::new` receives.

Indexing and sub-slicing fault outside the bounds; `index_eq`, `range_eq` and `rangeFrom_eq` say
what they return inside.
-/

set_option autoImplicit false

namespace MmapCursor

variable {w : Nat}

/-- The byte `b'\n'`. -/
def LF : UInt8 := 10

/-- The byte `b'\r'`. -/
def CR : UInt8 := 13

/-- The byte `b';'`. -/
def SEMICOLON : UInt8 := 59

/-- `&[u8]`. -/
structure Slice (w : Nat) where
  toList : List UInt8
  fits : toList.length < 2 ^ w
  deriving DecidableEq, Repr

namespace Slice

/-- `&[]`. -/
def EMPTY : Slice w := ⟨[], Nat.two_pow_pos w⟩

/-- `s.len()`. -/
def len (s : Slice w) : Usize w := BitVec.ofNat w s.toList.length

/-- `s.get(i).copied()`. -/
def get (s : Slice w) (i : Usize w) : Option UInt8 := s.toList[i.toNat]?

/-- `s[i]`. -/
def index (s : Slice w) (i : Usize w) : Res UInt8 :=
  match s.get i with
  | some b => .ok b
  | none => .error .indexOutOfBounds

/-- `&s[a..b]`. -/
def range (s : Slice w) (a b : Usize w) : Res (List UInt8) :=
  if a ≤ b ∧ b ≤ s.len then .ok (s.toList.extract a.toNat b.toNat) else .error .sliceOutOfRange

/-- `&s[a..]`. -/
def rangeFrom (s : Slice w) (a : Usize w) : Res (List UInt8) :=
  if a ≤ s.len then .ok (s.toList.drop a.toNat) else .error .sliceOutOfRange

/-- The sub-slice from `k` on, as a slice of its own. -/
def dropFirst (s : Slice w) (k : Nat) : Slice w :=
  ⟨s.toList.drop k, by have := s.fits; rw [List.length_drop]; omega⟩

theorem ext_toList {s t : Slice w} (h : s.toList = t.toList) : s = t := by
  cases s
  cases t
  cases h
  rfl

@[simp] theorem toNat_len (s : Slice w) : s.len.toNat = s.toList.length :=
  Words.toNat_ofNat_of_lt s.fits

theorem index_eq {s : Slice w} {i : Usize w} {b : UInt8} (h : s.toList[i.toNat]? = some b) :
    s.index i = .ok b := by
  unfold index get; rw [h]

theorem range_eq {s : Slice w} {a b : Usize w} (hab : a.toNat ≤ b.toNat)
    (hb : b.toNat ≤ s.toList.length) : s.range a b = .ok (s.toList.extract a.toNat b.toNat) := by
  unfold range
  rw [if_pos ⟨hab, by rw [BitVec.le_def, toNat_len]; exact hb⟩]

theorem rangeFrom_eq {s : Slice w} {a : Usize w} (ha : a.toNat ≤ s.toList.length) :
    s.rangeFrom a = .ok (s.toList.drop a.toNat) := by
  unfold rangeFrom
  rw [if_pos (by rw [BitVec.le_def, toNat_len]; exact ha)]

@[simp] theorem toList_dropFirst (s : Slice w) (k : Nat) :
    (s.dropFirst k).toList = s.toList.drop k := rfl

end Slice

/-- A byte slice within Rust's limit on the size of a slice. -/
structure Snapshot (w : Nat) extends Slice w where
  isize_bound : 2 * (toList.length + 1) ≤ 2 ^ w
  deriving DecidableEq, Repr

namespace Snapshot

/-- A byte string of at most `isize::MAX` bytes is a snapshot. -/
def ofList (w : Nat) (l : List UInt8) (h : 2 * (l.length + 1) ≤ 2 ^ w) : Snapshot w :=
  ⟨⟨l, by omega⟩, h⟩

theorem length_succ_lt (s : Snapshot w) : s.toList.length + 1 < 2 ^ w := by
  have := s.isize_bound; omega

/-- The bound in the source's terms: `len <= isize::MAX`. -/
theorem isize_bound_iff {l : List UInt8} (hw : 0 < w) :
    2 * (l.length + 1) ≤ 2 ^ w ↔ l.length ≤ 2 ^ (w - 1) - 1 := by
  obtain ⟨v, rfl⟩ : ∃ v, w = v + 1 := ⟨w - 1, by omega⟩
  have hpos := Nat.two_pow_pos v
  rw [Nat.add_sub_cancel, Nat.pow_succ]
  omega

end Snapshot

end MmapCursor
