import MmapCursor.Reader
import MmapCursor.Lib.Machines

/-!
# Whole runs of a cursor

Results about every finite sequence of operations, with any arguments, on a cursor over any slice:

* `run_coherent` — every run returns, and every cursor it reaches is `Coherent`: same source and
  EOF, position within EOF, and one answer to "is anything left" from all five observers.
* `forward_reading` — reading forward loses, repeats and reorders no byte: what the moves of a run
  stepped over, concatenated, is the slice between the first and the last position.
* `window_simulation` — a cursor over a sub-slice and a cursor over the whole slice, moved to where
  the sub-slice starts, answer alike to the same operations.
* `backtracking` — a cursor is its source and its position: `seek` to a saved position restores the
  saved cursor, and `seek` to one position takes cursors with different histories to the same
  cursor, for every later run.
-/

set_option autoImplicit false

namespace MmapCursor

open Machines

variable {w : Nat}

/-- A step of a cursor, as a run records it. -/
abbrev Move (w : Nat) := Transition (Cursor w) (Op w) (Output w)

namespace Cursor

/-- The cursors that some sequence of operations reaches from `Cursor::new(s)`. -/
def Reachable (s : Slice w) (c : Cursor w) : Prop :=
  ∃ ops ts, run step (new s) ops = .ok (ts, c)

theorem run_inv {c : Cursor w} (h : c.Inv) (ops : List (Op w)) :
    ∃ ts c', run step c ops = .ok (ts, c') ∧ (c'.Inv ∧ c'.source = c.source) := by
  obtain ⟨ts, c', hr, hI, _⟩ := run_total step
    (fun d => d.Inv ∧ d.source = c.source) (fun _ => True) (fun _ => True)
    (fun d op hd _ => by
      obtain ⟨d', hs, hinv, hsrc, _, _⟩ := step_refines hd.1 op
      exact ⟨_, d', hs, ⟨hinv, hsrc.trans hd.2⟩, trivial⟩)
    ops c ⟨h, rfl⟩ fun _ _ => trivial
  exact ⟨ts, c', hr, hI⟩

theorem Reachable.inv {s : Slice w} {c : Cursor w} (h : Reachable s c) :
    c.Inv ∧ c.source = s := by
  obtain ⟨ops, ts, hr⟩ := h
  obtain ⟨ts', c', hr', hI⟩ := run_inv (new_inv s) ops
  rw [hr] at hr'
  simp only [Except.ok.injEq, Prod.mk.injEq] at hr'
  obtain ⟨_, rfl⟩ := hr'
  exact hI

/-! ## Every reached cursor -/

/-- What every cursor over `s` shows to its observers. -/
structure Coherent (s : Slice w) (c : Cursor w) : Prop where
  source_eq : c.source = s
  eof_eq : c.eof.toNat = s.toList.length
  pos_le : c.position ≤ c.eof
  isEof_iff_peek : c.isEof = true ↔ c.peek = none
  isEof_iff_rest : c.isEof = true ↔ c.rest = .ok none
  isEof_iff_remainingLen : c.isEof = true ↔ c.remainingLen = 0
  isEof_iff_position : c.isEof = true ↔ c.position = c.eof
  position_add_remainingLen : c.position.toNat + c.remainingLen.toNat = c.eof.toNat
  rest_eq : ∀ bytes, c.rest = .ok (some bytes) →
    bytes.length = c.remainingLen.toNat ∧ bytes <:+ s.toList

theorem toNat_remainingLen (c : Cursor w) :
    c.remainingLen.toNat = c.eof.toNat - c.pos.toNat := by
  rw [remainingLen, Usize.toNat_saturatingSub]; rfl

theorem Inv.coherent {c : Cursor w} (h : c.Inv) : Coherent c.source c := by
  have hlen := length_unread h
  have hle := h.pos_le
  refine ⟨rfl, h.eof_eq, h.pos_le, ?_, ?_, ?_, ?_, ?_, ?_⟩
  · rw [isEof_iff h, peek_eq, List.head?_eq_none_iff]
  · rw [isEof_iff h, rest_eq h]; simp
  · rw [isEof_iff h, unread_eq_nil h, ← BitVec.toNat_inj, toNat_remainingLen]
    simp; omega
  · rw [isEof_iff h, unread_eq_nil h]
    exact ⟨fun he => BytePos.ext_toNat (Nat.le_antisymm hle he),
      fun he => by rw [← he]; exact Nat.le_refl _⟩
  · rw [toNat_remainingLen, position]; omega
  · intro bytes hb
    rw [rest_eq h] at hb
    split at hb
    · cases hb
    · cases hb
      exact ⟨by rw [toNat_remainingLen, hlen], List.drop_suffix _ _⟩

/-- **No operation panics, and every reached cursor is coherent.** -/
theorem run_coherent (s : Slice w) (ops : List (Op w)) :
    ∃ ts c, run step (new s) ops = .ok (ts, c) ∧ Coherent s c ∧ ∀ t ∈ ts, Coherent s t.after := by
  obtain ⟨ts, c, hr, hI, hT⟩ := run_total step
    (fun d => d.Inv ∧ d.source = s) (fun _ => True) (fun t => Coherent s t.after)
    (fun d op hd _ => by
      obtain ⟨d', hs, hinv, hsrc, _, _⟩ := step_refines hd.1 op
      have hd' : d'.source = s := hsrc.trans hd.2
      exact ⟨_, d', hs, ⟨hinv, hd'⟩, hd' ▸ hinv.coherent⟩)
    ops (new s) ⟨new_inv s, rfl⟩ fun _ _ => trivial
  exact ⟨ts, c, hr, hI.2 ▸ hI.1.coherent, hT⟩

end Cursor

/-! ## Reading forward -/

/-- The moving operations other than `seek`. -/
def Op.movesForward : Op w → Bool
  | .advance | .advanceNAhead _ | .sliceNAhead _ | .advanceIfStartsWith _ | .advanceUntil _
  | .advanceTo _ | .advanceThrough _ => true
  | _ => false

/-- The bytes of the source that a move stepped over. -/
def steppedOver (t : Move w) : List UInt8 :=
  t.before.source.toList.extract t.before.pos.toNat t.after.pos.toNat

/-- A reader that moves forward takes a chunk off the front of what is unread: the chunk it
returns, and none when it returns nothing. -/
theorem Reader.step_forward (source unread : List UInt8) {op : Op w} (h : op.movesForward = true) :
    ∃ chunk, unread = chunk ++ (Reader.step source unread op).2 ∧
      (∀ b, (Reader.step source unread op).1 = .bytes (some b) → b = chunk) ∧
      ((Reader.step source unread op).1 = .bytes none ∨
        (Reader.step source unread op).1 = .flag false → chunk = []) := by
  cases op with
  | advance =>
    exact ⟨unread.take 1, (List.take_append_drop 1 unread).symm, by simp [step], by simp [step]⟩
  | advanceNAhead n =>
    exact ⟨unread.take n.toNat, (List.take_append_drop n.toNat unread).symm, by simp [step],
      by simp [step]⟩
  | sliceNAhead n =>
    refine ⟨unread.take n.toNat, (List.take_append_drop n.toNat unread).symm, ?_, ?_⟩
    · intro b hb
      simp only [step, Output.bytes.injEq] at hb
      split at hb
      · cases hb
      · cases hb; rfl
    · intro hb
      simp only [step, Output.bytes.injEq] at hb
      split at hb
      · rename_i he; rw [he, List.take_nil]
      · simp at hb
  | advanceIfStartsWith pre =>
    by_cases hp : unread ≠ [] ∧ pre <+: unread
    · refine ⟨pre, ?_, by simp [step, hp], by simp [step, hp]⟩
      obtain ⟨t, rfl⟩ := hp.2
      simp [step, hp]
    · exact ⟨[], by simp [step, hp], by simp [step, hp], fun _ => rfl⟩
  | advanceUntil f =>
    exact ⟨unread.takeWhile f, List.takeWhile_append_dropWhile.symm, by simp [step], by simp [step]⟩
  | advanceTo stop =>
    exact ⟨unread.takeWhile (· != stop), List.takeWhile_append_dropWhile.symm, by simp [step],
      by simp [step]⟩
  | advanceThrough stop =>
    refine ⟨unread.takeWhile (· != stop) ++ (unread.dropWhile (· != stop)).take 1, ?_,
      by simp [step], by simp [step]⟩
    rw [List.append_assoc, step, List.take_append_drop, List.takeWhile_append_dropWhile]
  | _ => cases h

namespace Cursor

theorem extract_eq_of_unread {c c' : Cursor w} (h : c.Inv) (h' : c'.Inv)
    (hs : c'.source = c.source) {chunk : List UInt8} (hu : c.unread = chunk ++ c'.unread) :
    c.pos.toNat ≤ c'.pos.toNat ∧ c.source.toList.extract c.pos.toNat c'.pos.toNat = chunk := by
  have hpos := pos_of_append h h' hs hu
  refine ⟨by omega, ?_⟩
  rw [List.extract_eq_take_drop, ← unread, hu, hpos, Nat.add_sub_cancel_left, List.take_left]

theorem step_forward {c : Cursor w} (h : c.Inv) {op : Op w} (hop : op.movesForward = true) :
    ∃ o c', c.step op = .ok (o, c') ∧ c'.Inv ∧ c'.source = c.source ∧
      c.unread = steppedOver ⟨c, op, o, c'⟩ ++ c'.unread ∧
      (∀ b, o = .bytes (some b) → b = steppedOver ⟨c, op, o, c'⟩) ∧
      (o = .bytes none ∨ o = .flag false → steppedOver ⟨c, op, o, c'⟩ = []) := by
  obtain ⟨c', hs, hinv, hsrc, _, hu⟩ := step_refines h op
  obtain ⟨chunk, hchunk, hsome, hnone⟩ := Reader.step_forward c.source.toList c.unread hop
  rw [← hu] at hchunk
  have hover : steppedOver ⟨c, op, (Reader.step c.source.toList c.unread op).1, c'⟩ = chunk :=
    (extract_eq_of_unread h hinv hsrc hchunk).2
  refine ⟨_, c', hs, hinv, hsrc, ?_, ?_, ?_⟩
  · rw [hover]; exact hchunk
  · rw [hover]; exact hsome
  · rw [hover]; exact hnone

theorem run_forward {c : Cursor w} (h : c.Inv) {ops : List (Op w)}
    (hops : ∀ op ∈ ops, op.movesForward = true) :
    ∃ ts c', run step c ops = .ok (ts, c') ∧ c'.Inv ∧ c'.source = c.source ∧
      c.unread = (ts.map steppedOver).flatten ++ c'.unread ∧
      ∀ t ∈ ts, (∀ b, t.output = .bytes (some b) → b = steppedOver t) ∧
        (t.output = .bytes none ∨ t.output = .flag false → steppedOver t = []) := by
  obtain ⟨ts, c', hr, hI, hT⟩ := run_total step
    (fun d => d.Inv ∧ d.source = c.source) (fun op => op.movesForward = true)
    (fun t => t.before.unread = steppedOver t ++ t.after.unread ∧
      (∀ b, t.output = .bytes (some b) → b = steppedOver t) ∧
        (t.output = .bytes none ∨ t.output = .flag false → steppedOver t = []))
    (fun d op hd hop => by
      obtain ⟨o, d', hs, hinv, hsrc, hT⟩ := step_forward hd.1 hop
      exact ⟨o, d', hs, ⟨hinv, hsrc.trans hd.2⟩, hT⟩)
    ops c ⟨h, rfl⟩ hops
  refine ⟨ts, c', hr, hI.1, hI.2, ?_, fun t ht => (hT t ht).2⟩
  exact run_telescope unread steppedOver hr fun t ht => (hT t ht).1

/-! ### Reading in chunks -/

/-- One round of `while let Some(chunk) = cursor.slice_n_ahead(n) { … }`. -/
def readChunksRound (n : Usize w) (st : Cursor w × List (List UInt8)) :
    Res (ForInStep (Cursor w × List (List UInt8))) := do
  match ← st.1.sliceNAhead n with
  | (some chunk, c) => .ok (.yield (c, st.2 ++ [chunk]))
  | (none, c) => .ok (.done (c, st.2))

/-- The loop that reads `n` bytes at a time until EOF. -/
def readChunks (n : Usize w) (fuel : Nat) (c : Cursor w) : Res (Cursor w × List (List UInt8)) :=
  Loops.loop .outOfFuel (readChunksRound n) fuel (c, [])

/-- What the rounds so far have read, and that each of them read a whole chunk. -/
structure ChunksInv (c : Cursor w) (n : Usize w) (st : Cursor w × List (List UInt8)) : Prop where
  inv : st.1.Inv
  eof_eq : st.1.eof = c.eof
  flatten_eq : c.unread = st.2.flatten ++ st.1.unread
  init_length : ∀ i chunk, st.2[i]? = some chunk → i + 1 < st.2.length → chunk.length = n.toNat
  last_length : st.1.unread ≠ [] → ∀ chunk ∈ st.2, chunk.length = n.toNat

theorem readChunks_spec {c : Cursor w} (h : c.Inv) {n : Usize w} (hn : 0 < n.toNat) {fuel : Nat}
    (hfuel : c.unread.length < fuel) :
    ∃ st, readChunks n fuel c = .ok st ∧ ChunksInv c n st ∧ st.1.unread = [] := by
  refine Loops.loop_total _ _ (ChunksInv c n) (fun st => st.1.unread.length) _ ?_ fuel (c, [])
    ⟨h, rfl, rfl, by simp, by simp⟩ hfuel
  rintro ⟨d, chunks⟩ hst
  have hd : d.Inv := hst.inv
  obtain ⟨d', hs, hinv, _, he, hu⟩ := sliceNAhead_spec hd n
  unfold readChunksRound
  simp only [hs, bind, Except.bind]
  by_cases hnil : d.unread = []
  · refine Or.inl ⟨(d', chunks), by rw [if_pos hnil], ?_, by rw [hu, hnil, List.drop_nil]⟩
    rw [hnil, List.drop_nil] at hu
    refine ⟨hinv, he.trans hst.eof_eq, ?_, hst.init_length, fun hne => absurd hu hne⟩
    rw [hu, hst.flatten_eq, hnil]
  · have hpos := List.length_pos_iff.mpr hnil
    refine Or.inr ⟨(d', chunks ++ [d.unread.take n.toNat]), by rw [if_neg hnil], ?_, ?_⟩
    · refine ⟨hinv, he.trans hst.eof_eq, ?_, ?_, ?_⟩
      · simp only [List.flatten_append, List.flatten_singleton, List.append_assoc, hu,
          List.take_append_drop]
        exact hst.flatten_eq
      · intro i chunk hi hlt
        simp only [List.length_append, List.length_singleton] at hlt
        rw [List.getElem?_append_left (by omega)] at hi
        exact hst.last_length hnil chunk (List.mem_of_getElem? hi)
      · intro hne chunk hmem
        rcases List.mem_append.mp hmem with hmem | hmem
        · exact hst.last_length hnil chunk hmem
        · rw [List.mem_singleton] at hmem
          have hlen := List.length_pos_iff.mpr hne
          rw [hu, List.length_drop] at hlen
          rw [hmem, List.length_take]
          omega
    · show d'.unread.length < d.unread.length
      rw [hu, List.length_drop]; omega

/-- **Forward reading is lossless**, for any forward moves from any reachable cursor, and for the
loop that reads `n ≥ 1` bytes at a time. -/
theorem forward_reading {s : Slice w} {c : Cursor w} (hc : Reachable s c) :
    (∀ ops : List (Op w), (∀ op ∈ ops, op.movesForward = true) →
      ∃ ts c' range, run step c ops = .ok (ts, c') ∧ c.pos ≤ c'.pos ∧
        ByteRange.new c.pos c'.pos = .ok range ∧
        c'.slice range = .ok (some (s.toList.extract c.pos.toNat c'.pos.toNat)) ∧
        s.toList.extract c.pos.toNat c'.pos.toNat = (ts.map steppedOver).flatten ∧
        ∀ t ∈ ts, (∀ b, t.output = .bytes (some b) → b = steppedOver t) ∧
          (t.output = .bytes none ∨ t.output = .flag false → steppedOver t = [])) ∧
    ∀ (n : Usize w) (fuel : Nat), 0 < n.toNat → c.remainingLen.toNat < fuel →
      ∃ c' chunks, readChunks n fuel c = .ok (c', chunks) ∧ c'.isEof = true ∧
        chunks.flatten = s.toList.extract c.pos.toNat c.eof.toNat ∧
        ∀ i chunk, chunks[i]? = some chunk → i + 1 < chunks.length → chunk.length = n.toNat := by
  obtain ⟨h, hs⟩ := hc.inv
  subst hs
  constructor
  · intro ops hops
    obtain ⟨ts, c', hr, hinv, hsrc, hu, hT⟩ := run_forward h hops
    obtain ⟨hle, hext⟩ := extract_eq_of_unread h hinv hsrc hu
    refine ⟨ts, c', ⟨c.pos, c'.pos, hle⟩, hr, hle, ByteRange.new_eq hle, ?_, hext, hT⟩
    rw [slice_eq hinv, if_pos hinv.pos_le_length, hsrc]
  · intro n fuel hn hfuel
    rw [toNat_remainingLen, ← length_unread h] at hfuel
    obtain ⟨⟨c', chunks⟩, hr, hI, hnil⟩ := readChunks_spec h hn hfuel
    refine ⟨c', chunks, hr, (isEof_iff hI.inv).mpr hnil, ?_, hI.init_length⟩
    have hflat := hI.flatten_eq
    rw [hnil, List.append_nil] at hflat
    rw [← hflat, List.extract_eq_take_drop, ← unread, h.eof_eq,
      List.take_of_length_le (by rw [length_unread h, h.eof_eq])]

/-- Two bytes at a time, from behind the first byte of `abc`. -/
theorem forward_reading_abc :
    ∃ c' chunks, readChunks (2 : Usize 64) 3
        (new ⟨[97, 98, 99], by decide⟩ : Cursor 64).advance = .ok (c', chunks) ∧
      c'.isEof = true ∧ chunks.flatten = [98, 99] := by
  have hreach : Reachable (⟨[97, 98, 99], by decide⟩ : Slice 64)
      (new ⟨[97, 98, 99], by decide⟩ : Cursor 64).advance := ⟨[.advance], _, rfl⟩
  obtain ⟨c', chunks, hr, heof, hflat, -⟩ :=
    (forward_reading hreach).2 2 3 (by decide) (by decide)
  exact ⟨c', chunks, hr, heof, hflat⟩

end Cursor

/-! ## A window on a longer source -/

/-- Operations whose argument is an absolute position. -/
def Op.absolute : Op w → Bool
  | .seek _ | .slice _ => true
  | _ => false

/-- The operation of a cursor over the whole source that corresponds to one of a cursor over the
source from `k` on. -/
inductive Op.Shifted (k : Usize w) : Op w → Op w → Prop where
  | seek (pos : BytePos w) : Shifted k (.seek pos) (.seek (pos.saturatingAdd (BytePos.new k)))
  | slice (range range' : ByteRange w) (hstart : range'.start.toNat = range.start.toNat + k.toNat)
      (hend : range'.end_.toNat = range.end_.toNat + k.toNat) :
      Shifted k (.slice range) (.slice range')
  | same (op : Op w) (h : op.absolute = false) : Shifted k op op

/-- A reader of a suffix and a reader of the whole, with the same bytes unread, answer alike and
leave the same bytes unread. -/
theorem Reader.step_shifted {s : Slice w} {k : Usize w} (hk : k.toNat ≤ s.toList.length)
    (unread : List UInt8) {op op' : Op w} (h : Op.Shifted k op op') :
    Reader.step s.toList unread op' = Reader.step (s.toList.drop k.toNat) unread op := by
  cases h with
  | seek pos =>
    have hfits := s.fits
    simp only [step, BytePos.toNat_saturatingAdd, BytePos.toNat_new, List.drop_drop]
    rcases Nat.lt_or_ge (pos.toNat + k.toNat) (2 ^ w) with hlt | hge
    · rw [Nat.min_eq_left (by omega), Nat.add_comm]
    · rw [List.drop_eq_nil_of_le (by omega), List.drop_eq_nil_of_le (by omega)]
  | slice range range' hstart hend =>
    simp only [step, hstart, hend, List.length_drop, List.extract_eq_take_drop, List.drop_drop,
      Nat.add_sub_add_right, Nat.add_comm k.toNat]
    by_cases hle : range.end_.toNat + k.toNat ≤ s.toList.length
    · rw [if_pos hle, if_pos (by omega)]
    · rw [if_neg hle, if_neg (by omega)]
  | same op hop =>
    cases op with
    | seek pos => cases hop
    | slice range => cases hop
    | _ => rfl

namespace Cursor

/-- The two cursors have the same bytes unread. -/
structure Windowed (s : Slice w) (k : Usize w) (c c' : Cursor w) : Prop where
  inv : c.Inv
  inv' : c'.Inv
  source_eq : c.source = s.dropFirst k.toNat
  source_eq' : c'.source = s
  unread_eq : c'.unread = c.unread

theorem Windowed.positions {s : Slice w} {k : Usize w} {c c' : Cursor w}
    (h : Windowed s k c c') (hk : k.toNat ≤ s.toList.length) :
    c'.pos.toNat = c.pos.toNat + k.toNat ∧ c'.eof.toNat = c.eof.toNat + k.toNat := by
  have h1 := pos_add_unread h.inv
  have h2 := pos_add_unread h.inv'
  have h3 := h.inv.eof_eq
  have h4 := h.inv'.eof_eq
  rw [h.source_eq, Slice.toList_dropFirst, List.length_drop] at h1 h3
  rw [h.source_eq', h.unread_eq] at h2
  rw [h.source_eq'] at h4
  omega

theorem windowed_step {s : Slice w} {k : Usize w} (hk : k.toNat ≤ s.toList.length)
    {c c' : Cursor w} (h : Windowed s k c c') {op op' : Op w} (hop : Op.Shifted k op op') :
    ∃ o d o' d', c.step op = .ok (o, d) ∧ c'.step op' = .ok (o', d') ∧ Windowed s k d d' ∧
      o' = o := by
  obtain ⟨d, hs, hinv, hsrc, _, hu⟩ := step_refines h.inv op
  obtain ⟨d', hs', hinv', hsrc', _, hu'⟩ := step_refines h.inv' op'
  rw [h.source_eq', h.unread_eq, Reader.step_shifted hk _ hop] at hs' hu'
  rw [h.source_eq, Slice.toList_dropFirst] at hs hu
  exact ⟨_, d, _, d', hs, hs', ⟨hinv, hinv', hsrc.trans h.source_eq, hsrc'.trans h.source_eq',
    hu'.trans hu.symm⟩, rfl⟩

/-- **A window simulates the whole**, step by step, over every sequence of operations. -/
theorem window_simulation (s : Slice w) (k : Usize w) (hk : k.toNat ≤ s.toList.length)
    (ops ops' : List (Op w)) (hops : List.Forall₂ (Op.Shifted k) ops ops') :
    ∃ ts c ts' c', run step (new (s.dropFirst k.toNat)) ops = .ok (ts, c) ∧
      run step ((new s).seek (BytePos.new k)) ops' = .ok (ts', c') ∧
      c'.pos.toNat = c.pos.toNat + k.toNat ∧ c'.eof.toNat = c.eof.toNat + k.toNat ∧
      List.Forall₂ (fun t t' => t'.output = t.output ∧
        t'.after.pos.toNat = t.after.pos.toNat + k.toNat ∧
        t'.after.eof.toNat = t.after.eof.toNat + k.toNat) ts ts' := by
  have hseek := seek_spec (new_inv s) (BytePos.new k)
  have hstart : Windowed s k (new (s.dropFirst k.toNat)) ((new s).seek (BytePos.new k)) :=
    ⟨new_inv _, hseek.1, rfl, rfl, by rw [hseek.2, new_unread]; rfl⟩
  obtain ⟨ts, c, ts', c', hr, hr', hW, hO⟩ := run_simulation step step
    (Windowed s k) (Op.Shifted k)
    (fun t t' => t'.output = t.output ∧ t'.after.pos.toNat = t.after.pos.toNat + k.toNat ∧
      t'.after.eof.toNat = t.after.eof.toNat + k.toNat)
    (fun d d' op op' hd hop => by
      obtain ⟨o, e, o', e', hs, hs', hW, ho⟩ := windowed_step hk hd hop
      exact ⟨o, e, o', e', hs, hs', hW, ho, hW.positions hk⟩)
    hops hstart
  obtain ⟨hpos, heof⟩ := hW.positions hk
  exact ⟨ts, c, ts', c', hr, hr', hpos, heof, hO⟩

/-- A window on `abc` from its second byte on: a seek, which is shifted, and a read. -/
theorem window_simulation_abc :
    ∃ ts c ts' c',
      run step (new ((⟨[97, 98, 99], by decide⟩ : Slice 64).dropFirst 1))
        [.seek ⟨1⟩, .peek] = .ok (ts, c) ∧
      run step ((new (⟨[97, 98, 99], by decide⟩ : Slice 64)).seek (BytePos.new 1))
        [.seek ⟨2⟩, .peek] = .ok (ts', c') ∧
      c'.pos.toNat = c.pos.toNat + 1 ∧ ts'.map Transition.output = ts.map Transition.output := by
  obtain ⟨ts, c, ts', c', hr, hr', hpos, -, hO⟩ := window_simulation
    (⟨[97, 98, 99], by decide⟩ : Slice 64) 1 (by decide) [.seek ⟨1⟩, .peek] [.seek ⟨2⟩, .peek]
    (.cons (.seek ⟨1⟩) (.cons (.same .peek rfl) .nil))
  refine ⟨ts, c, ts', c', hr, hr', hpos, ?_⟩
  clear hr hr' hpos
  induction hO with
  | nil => rfl
  | cons h _ ih => rw [List.map_cons, List.map_cons, ih, h.1]

end Cursor

/-! ## Going back -/

namespace Cursor

theorem seek_position {c d : Cursor w} (h : c.Inv) (hd : d.Inv) (hs : d.source = c.source) :
    d.seek c.position = c := by
  obtain ⟨hinv, hu⟩ := seek_spec hd c.position
  apply eq_of_unread h hinv hs
  rw [hu, hs]
  rfl

theorem seek_seek {c d : Cursor w} (h : c.Inv) (hd : d.Inv) (hs : d.source = c.source)
    (q : BytePos w) : d.seek q = c.seek q := by
  obtain ⟨hinv, hu⟩ := seek_spec h q
  obtain ⟨hinv', hu'⟩ := seek_spec hd q
  apply eq_of_unread hinv hinv' hs
  rw [hu, hu', hs]

/-- **Backtracking is exact, and history leaves no trace.** -/
theorem backtracking {s : Slice w} {c c' : Cursor w} (hc : Reachable s c) (hc' : Reachable s c') :
    (∀ ops : List (Op w), ∃ ts d, run step c ops = .ok (ts, d) ∧ d.seek c.position = c ∧
      ∀ more : List (Op w), ∃ us e, run step (d.seek c.position) more = .ok (us, e) ∧
        run step c more = .ok (us, e)) ∧
    ∀ (q : BytePos w) (ops : List (Op w)), ∃ us e, run step (c.seek q) ops = .ok (us, e) ∧
      run step (c'.seek q) ops = .ok (us, e) := by
  obtain ⟨h, hs⟩ := hc.inv
  obtain ⟨h', hs'⟩ := hc'.inv
  constructor
  · intro ops
    obtain ⟨ts, d, hr, hd, hsrc⟩ := run_inv h ops
    have hback := seek_position h hd hsrc
    refine ⟨ts, d, hr, hback, fun more => ?_⟩
    obtain ⟨us, e, hr', -⟩ := run_inv h more
    exact ⟨us, e, by rw [hback]; exact hr', hr'⟩
  · intro q ops
    have hsame := seek_seek h h' (hs'.trans hs.symm) q
    obtain ⟨us, e, hr, -⟩ := run_inv (seek_spec h q).1 ops
    exact ⟨us, e, hr, by rw [hsame]; exact hr⟩

/-- A cursor on `abc` behind its first byte, and one that has read to EOF. -/
theorem backtracking_abc :
    ∃ ts d, run step (new (⟨[97, 98, 99], by decide⟩ : Slice 64)).advance
        [.advanceNAhead 9, .peek] = .ok (ts, d) ∧
      d.seek (new (⟨[97, 98, 99], by decide⟩ : Slice 64)).advance.position =
        (new (⟨[97, 98, 99], by decide⟩ : Slice 64)).advance := by
  have hc : Reachable (⟨[97, 98, 99], by decide⟩ : Slice 64)
      (new ⟨[97, 98, 99], by decide⟩).advance := ⟨[.advance], _, rfl⟩
  have hc' : Reachable (⟨[97, 98, 99], by decide⟩ : Slice 64)
      ((new ⟨[97, 98, 99], by decide⟩).advanceNAhead 9) := ⟨[.advanceNAhead 9], _, rfl⟩
  obtain ⟨ts, d, hr, hback, -⟩ := (backtracking hc hc').1 [.advanceNAhead 9, .peek]
  exact ⟨ts, d, hr, hback⟩

end Cursor

end MmapCursor
