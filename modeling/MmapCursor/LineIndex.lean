import MmapCursor.Slice
import MmapCursor.Lib.Loops
import MmapCursor.Lib.Search
import Mathlib.Data.List.Sort

/-!
# The line index

Model of `line_index.rs`, both builds of `LineIndex::new` included.

Two functions are not the crate's own and enter as parameters with their documented contracts:

* `Memchr2` — `memchr::memchr2_iter`, which the `simd` build walks: the positions of either byte,
  in increasing order.  `Memchr2.scan` is one.
* `BinarySearch` (`MmapCursor.Lib.Search`) — `slice::binary_search`.

Every `+` of the source is `Usize.plus`, which faults on overflow.
-/

set_option autoImplicit false

namespace MmapCursor

variable {w : Nat}

/-- `memchr::memchr2_iter`. -/
structure Memchr2 (w : Nat) where
  iter : UInt8 → UInt8 → Slice w → List (Usize w)
  mem_iter : ∀ {a b : UInt8} {s : Slice w} {i : Usize w},
    i ∈ iter a b s ↔ s.get i = some a ∨ s.get i = some b
  pairwise_iter : ∀ (a b : UInt8) (s : Slice w), (iter a b s).Pairwise (· < ·)

/-- The two builds of `LineIndex::new`: with the feature `simd`, and without it. -/
inductive Build (w : Nat) where
  | simd (memchr2 : Memchr2 w)
  | fallback

/-- `LineIndex`. -/
structure LineIndex (w : Nat) where
  lineStarts : List (Usize w)
  len : Usize w
  deriving DecidableEq, Repr

namespace LineIndex

/-- One round of `for i in memchr2_iter(b'\n', b'\r', bytes)`. -/
def simdRound (bytes : Slice w) (lineStarts : List (Usize w)) (i : Usize w) :
    Res (List (Usize w)) := do
  let b ← bytes.index i
  let inPair ←
    if b = CR then do
      let next ← Usize.plus i 1
      pure (decide (bytes.get next = some LF))
    else pure false
  if inPair then pure lineStarts
  else do
    let next ← Usize.plus i 1
    pure (lineStarts ++ [next])

/-- `LineIndex::new` with `simd`. -/
def newSimd (memchr2 : Memchr2 w) (bytes : Slice w) : Res (LineIndex w) := do
  let lineStarts ← (memchr2.iter LF CR bytes).foldlM (simdRound bytes) [0]
  pure { lineStarts := lineStarts, len := bytes.len }

/-- One round of `while i < bytes.len()`. -/
def fallbackRound (bytes : Slice w) (st : Usize w × List (Usize w)) :
    Res (ForInStep (Usize w × List (Usize w))) :=
  if st.1 < bytes.len then do
    let b ← bytes.index st.1
    if b = CR then do
      let next ← Usize.plus st.1 1
      if bytes.get next = some LF then do
        let afterPair ← Usize.plus st.1 2
        pure (.yield (afterPair, st.2 ++ [afterPair]))
      else pure (.yield (next, st.2 ++ [next]))
    else if b = LF then do
      let next ← Usize.plus st.1 1
      pure (.yield (next, st.2 ++ [next]))
    else do
      let next ← Usize.plus st.1 1
      pure (.yield (next, st.2))
  else pure (.done st)

/-- `LineIndex::new` without `simd`.  Every round passes at least one byte. -/
def newFallback (bytes : Slice w) : Res (LineIndex w) := do
  let st ← Loops.loop .outOfFuel (fallbackRound bytes) (bytes.toList.length + 1) (0, [0])
  pure { lineStarts := st.2, len := bytes.len }

/-- `LineIndex::new`. -/
def new : Build w → Slice w → Res (LineIndex w)
  | .simd memchr2, bytes => newSimd memchr2 bytes
  | .fallback, bytes => newFallback bytes

/-- `LineIndex::num_lines`. -/
def numLines (idx : LineIndex w) : Usize w := BitVec.ofNat w idx.lineStarts.length

/-- `LineIndex::line_start`. -/
def lineStart (idx : LineIndex w) (line : Usize w) : Option (BytePos w) :=
  idx.lineStarts[line.toNat]?.map BytePos.new

/-- `LineIndex::line_range`. -/
def lineRange (idx : LineIndex w) (line : Usize w) : Res (Option (ByteRange w)) :=
  match idx.lineStart line with
  | none => .ok none
  | some start => do
    let next ← Usize.plus line 1
    let end_ :=
      match idx.lineStarts[next.toNat]? with
      | some next => BytePos.new next
      | none => BytePos.new idx.len
    let range ← ByteRange.new start end_
    pure (some range)

/-- `LineIndex::line_for_offset`. -/
def lineForOffset (search : BinarySearch (Usize w)) (idx : LineIndex w) (offset : BytePos w) :
    Option (Usize w) :=
  if offset.toUsize > idx.len then none
  else
    match search.run idx.lineStarts offset.toUsize with
    | .ok line => some (BitVec.ofNat w line)
    | .error line => some (Usize.saturatingSub (BitVec.ofNat w line) 1)

/-- `self.line_starts[line]`. -/
def lineStartAt (idx : LineIndex w) (line : Usize w) : Res (Usize w) :=
  match idx.lineStarts[line.toNat]? with
  | some start => .ok start
  | none => .error .indexOutOfBounds

/-- `LineIndex::line_column`. -/
def lineColumn (search : BinarySearch (Usize w)) (idx : LineIndex w) (offset : BytePos w) :
    Res (Option (Usize w × Usize w)) :=
  match idx.lineForOffset search offset with
  | none => .ok none
  | some line => do
    let start ← idx.lineStartAt line
    let column := Usize.saturatingSub offset.toUsize start
    let line1 ← Usize.plus line 1
    let column1 ← Usize.plus column 1
    pure (some (line1, column1))

end LineIndex

/-! ## A scanner that meets the contract of `memchr2_iter` -/

namespace Memchr2

theorem pairwise_map_ofNat {n : Nat} (hn : n ≤ 2 ^ w) {q : Nat → Bool} :
    (((List.range n).filter q).map (BitVec.ofNat w)).Pairwise (· < ·) := by
  rw [List.pairwise_map]
  refine List.Pairwise.imp_of_mem ?_ ((List.pairwise_lt_range (n := n)).filter q)
  intro i j hi hj hij
  have hi' := List.mem_range.mp (List.mem_filter.mp hi).1
  have hj' := List.mem_range.mp (List.mem_filter.mp hj).1
  rw [BitVec.lt_def, Words.toNat_ofNat_of_lt (by omega), Words.toNat_ofNat_of_lt (by omega)]
  exact hij

/-- The byte-by-byte scan. -/
def scan : Memchr2 w where
  iter a b s := ((List.range s.toList.length).filter fun i =>
    decide (s.toList[i]? = some a ∨ s.toList[i]? = some b)).map (BitVec.ofNat w)
  mem_iter := by
    intro a b s i
    have hfits := s.fits
    simp only [List.mem_map, List.mem_filter, List.mem_range, decide_eq_true_eq, Slice.get]
    constructor
    · rintro ⟨j, ⟨hj, hb⟩, rfl⟩
      rwa [Words.toNat_ofNat_of_lt (by omega)]
    · intro hb
      have hlt : i.toNat < s.toList.length := by
        rcases hb with hb | hb <;> exact (List.getElem?_eq_some_iff.mp hb).1
      exact ⟨i.toNat, ⟨hlt, hb⟩, Words.ofNat_toNat_self i⟩
  pairwise_iter a b s := pairwise_map_ofNat (Nat.le_of_lt s.fits)

/-- The contract determines the positions. -/
theorem iter_eq (m : Memchr2 w) (a b : UInt8) (s : Slice w) : m.iter a b s = scan.iter a b s :=
  List.Pairwise.eq_of_mem_iff (m.pairwise_iter a b s) (scan.pairwise_iter a b s) fun i => by
    rw [m.mem_iter, scan.mem_iter]

end Memchr2

end MmapCursor
