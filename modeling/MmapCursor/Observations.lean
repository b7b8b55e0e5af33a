import MmapCursor.CursorRuns
import MmapCursor.LineColumn
import Mathlib.Tactic.TFAE

/-!
# What callers can tell apart

Two values of the crate are told apart by what their methods return, and by nothing else.

* `Cursor.observed_iff` — the operations that move forward and look ahead show the unread bytes, and
  nothing of what was read before; with the absolute ones, a cursor is what it answers.
* `LineIndex.observed_tfae` — an index holds the length of the bytes and the places of their line
  ends, and each kind of lookup on its own shows all of it.
-/

set_option autoImplicit false

namespace MmapCursor

open Machines

variable {w : Nat}

namespace Cursor

/-! ## Cursors -/

/-- What the operations of a run return. -/
def outputs (c : Cursor w) (ops : List (Op w)) : Res (List (Output w)) :=
  (run step c ops).map fun r => r.1.map (·.output)

theorem outputs_cons {c c' : Cursor w} {op : Op w} {o : Output w} (h : c.step op = .ok (o, c'))
    (ops : List (Op w)) : c.outputs (op :: ops) = (c'.outputs ops).map (o :: ·) := by
  unfold outputs
  rw [run, h]
  cases hrun : run step c' ops with
  | error e => simp only [hrun, Except.map]
  | ok r => simp only [hrun, Except.map, List.map_cons]

theorem reader_step_of_relative {op : Op w} (h : op.absolute = false)
    (source source' unread : List UInt8) :
    Reader.step source unread op = Reader.step source' unread op := by
  cases op with
  | seek pos => cases h
  | slice range => cases h
  | _ => rfl

theorem outputs_eq_of_unread {c c' : Cursor w} (h : c.Inv) (h' : c'.Inv)
    (hu : c.unread = c'.unread) {ops : List (Op w)} (hops : ∀ op ∈ ops, op.absolute = false) :
    c.outputs ops = c'.outputs ops := by
  induction ops generalizing c c' with
  | nil => rfl
  | cons op ops ih =>
    obtain ⟨d, hd, hdinv, -, -, hdu⟩ := step_refines h op
    obtain ⟨d', hd', hdinv', -, -, hdu'⟩ := step_refines h' op
    have hread := reader_step_of_relative (hops op List.mem_cons_self) c.source.toList
      c'.source.toList c.unread
    rw [hread, hu] at hd hdu
    rw [outputs_cons hd, outputs_cons hd', ih hdinv hdinv' (hdu.trans hdu'.symm)
      fun op hop => hops op (List.mem_cons_of_mem _ hop)]

theorem outputs_rest {c : Cursor w} (h : c.Inv) :
    c.outputs [.rest] = .ok [.bytes (if c.unread = [] then none else some c.unread)] := by
  obtain ⟨d, hd, -⟩ := step_refines h (.rest : Op w)
  rw [outputs_cons hd]
  rfl

theorem unread_eq_of_outputs {c c' : Cursor w} (h : c.Inv) (h' : c'.Inv)
    (hrest : c.outputs [.rest] = c'.outputs [.rest]) : c.unread = c'.unread := by
  rw [outputs_rest h, outputs_rest h'] at hrest
  by_cases hu : c.unread = [] <;> by_cases hu' : c'.unread = [] <;> simp_all

theorem source_eq_of_outputs {c c' : Cursor w} (h : c.Inv) (h' : c'.Inv)
    (hrest : c.outputs [.seek BytePos.ZERO, .rest] = c'.outputs [.seek BytePos.ZERO, .rest]) :
    c.source = c'.source := by
  obtain ⟨hinv, hu⟩ := seek_spec h BytePos.ZERO
  obtain ⟨hinv', hu'⟩ := seek_spec h' BytePos.ZERO
  have hseek : c.step (.seek BytePos.ZERO) = .ok (.unit, c.seek BytePos.ZERO) := rfl
  have hseek' : c'.step (.seek BytePos.ZERO) = .ok (.unit, c'.seek BytePos.ZERO) := rfl
  have hrest' : (c.seek BytePos.ZERO).outputs [.rest] = (c'.seek BytePos.ZERO).outputs [.rest] := by
    rw [outputs_cons hseek, outputs_cons hseek', outputs_rest hinv, outputs_rest hinv'] at hrest
    rw [outputs_rest hinv, outputs_rest hinv']
    simpa [Except.map] using hrest
  have hunread := unread_eq_of_outputs hinv hinv' hrest'
  rw [hu, hu', BytePos.toNat_ZERO, List.drop_zero, List.drop_zero] at hunread
  exact Slice.ext_toList hunread

/-- **A cursor is what it answers.**  Two cursors, over any two sources, answer alike to all
sequences of relative operations exactly if they have the same bytes unread, and to all sequences of
operations exactly if they are the same. -/
theorem observed_iff {s s' : Slice w} {c c' : Cursor w} (hc : Reachable s c)
    (hc' : Reachable s' c') :
    ((∀ ops : List (Op w), (∀ op ∈ ops, op.absolute = false) → c.outputs ops = c'.outputs ops) ↔
      c.unread = c'.unread) ∧
    ((∀ ops : List (Op w), c.outputs ops = c'.outputs ops) ↔ c = c') := by
  obtain ⟨h, -⟩ := hc.inv
  obtain ⟨h', -⟩ := hc'.inv
  refine ⟨⟨fun hall => ?_, fun hu ops => outputs_eq_of_unread h h' hu⟩, ⟨fun hall => ?_, ?_⟩⟩
  · exact unread_eq_of_outputs h h' (hall [.rest] (by simp [Op.absolute]))
  · exact eq_of_unread h' h (source_eq_of_outputs h h' (hall _))
      (unread_eq_of_outputs h h' (hall _))
  · rintro rfl ops
    rfl

/-- Cursors over `abc` and `bc`, both in front of `bc`: what is unread is the same, the cursors are
not. -/
theorem observed_iff_abc :
    let c : Cursor 64 := (new ⟨[97, 98, 99], by decide⟩).advance
    let c' : Cursor 64 := new ⟨[98, 99], by decide⟩
    (∀ ops : List (Op 64), (∀ op ∈ ops, op.absolute = false) → c.outputs ops = c'.outputs ops) ∧
      ¬ ∀ ops : List (Op 64), c.outputs ops = c'.outputs ops := by
  intro c c'
  have hc : Reachable (⟨[97, 98, 99], by decide⟩ : Slice 64) c := ⟨[.advance], _, rfl⟩
  have hc' : Reachable (⟨[98, 99], by decide⟩ : Slice 64) c' := ⟨[], _, rfl⟩
  obtain ⟨hrelative, hall⟩ := observed_iff hc hc'
  exact ⟨hrelative.mpr rfl, fun h => absurd (hall.mp h) (by decide)⟩

end Cursor

namespace LineIndex

/-! ## Line indexes -/

theorem succ_mem_lineStarts {l : List UInt8} {i : Nat} :
    i + 1 ∈ MmapCursor.lineStarts l ↔ EndsLine l i :=
  (Segments.succ_mem_starts (EndsLine l)).trans ⟨And.right, fun h => ⟨h.lt, h⟩⟩

/-- **What an index holds**: the length of the bytes, and where their lines end. -/
theorem ofLines_eq_iff {a b : Snapshot w} : ofLines a.toSlice = ofLines b.toSlice ↔
    a.toList.length = b.toList.length ∧ ∀ i, EndsLine a.toList i ↔ EndsLine b.toList i := by
  constructor
  · intro h
    have hlen := congrArg (fun idx => BitVec.toNat idx.len) h
    have hlength : a.toList.length = b.toList.length := by
      rw [← Slice.toNat_len a.toSlice, ← Slice.toNat_len b.toSlice]
      exact hlen
    have hstarts := congrArg starts h
    rw [starts_ofLines, starts_ofLines] at hstarts
    refine ⟨hlength, fun i => ?_⟩
    rw [← succ_mem_lineStarts, ← succ_mem_lineStarts, hstarts]
  · rintro ⟨hlength, hends⟩
    have hstarts : MmapCursor.lineStarts a.toList = MmapCursor.lineStarts b.toList := by
      unfold MmapCursor.lineStarts
      rw [hlength]
      exact Segments.starts_congr _ fun i _ => hends i
    unfold ofLines Slice.len
    rw [hstarts, hlength]

theorem exists_position (s : Snapshot w) {n : Nat} (h : n ≤ s.toList.length) :
    ∃ o : BytePos w, o.toNat = n :=
  ⟨⟨BitVec.ofNat w n⟩, Words.toNat_ofNat_of_lt (Nat.lt_of_le_of_lt h s.fits)⟩

theorem ends_of_counts {a b : Snapshot w}
    (hdomain : ∀ o : BytePos w, o.toNat ≤ a.toList.length ↔ o.toNat ≤ b.toList.length)
    (hcount : ∀ o : BytePos w, o.toNat ≤ a.toList.length →
      Nat.count (EndsLine a.toList) o.toNat = Nat.count (EndsLine b.toList) o.toNat) :
    a.toList.length = b.toList.length ∧ ∀ i, EndsLine a.toList i ↔ EndsLine b.toList i := by
  have hlength : a.toList.length = b.toList.length := by
    obtain ⟨o, ho⟩ := exists_position a (Nat.le_refl _)
    obtain ⟨o', ho'⟩ := exists_position b (Nat.le_refl _)
    have hle := (hdomain o).mp (Nat.le_of_eq ho)
    have hge := (hdomain o').mpr (Nat.le_of_eq ho')
    omega
  have hcounts : ∀ n ≤ a.toList.length,
      Nat.count (EndsLine a.toList) n = Nat.count (EndsLine b.toList) n := by
    intro n hn
    obtain ⟨o, rfl⟩ := exists_position a hn
    exact hcount o hn
  refine ⟨hlength, fun i => ?_⟩
  rcases Nat.lt_or_ge i a.toList.length with hi | hi
  · exact Segments.iff_of_count_eq hcounts hi
  · refine iff_of_false (fun h => ?_) fun h => ?_
    · exact Nat.not_lt_of_le hi h.lt
    · exact Nat.not_lt_of_le (hlength ▸ hi) h.lt

theorem lineColumn_eq_none_iff {s : Snapshot w} (search : BinarySearch (Usize w)) {o : BytePos w} :
    (ofLines s.toSlice).lineColumn search o = .ok none ↔ s.toList.length < o.toNat := by
  refine ⟨fun h => ?_, lineColumn_none search⟩
  apply Nat.lt_of_not_le
  intro hle
  obtain ⟨line, column, hsome, -⟩ := lineColumn_spec search hle
  rw [hsome] at h
  cases h

theorem ends_of_lineForOffset {a b : Snapshot w} {search : BinarySearch (Usize w)}
    (h : ∀ o, (ofLines a.toSlice).lineForOffset search o =
      (ofLines b.toSlice).lineForOffset search o) :
    a.toList.length = b.toList.length ∧ ∀ i, EndsLine a.toList i ↔ EndsLine b.toList i := by
  have hdomain : ∀ o : BytePos w, o.toNat ≤ a.toList.length ↔ o.toNat ≤ b.toList.length := by
    intro o
    rw [← Nat.not_lt, ← Nat.not_lt, ← lineForOffset_eq_none_iff search,
      ← lineForOffset_eq_none_iff search, h o]
  refine ends_of_counts hdomain fun o ho => ?_
  have ho' := (hdomain o).mp ho
  have hline := h o
  rw [lineForOffset_spec search ho, lineForOffset_spec search ho', Option.some.injEq] at hline
  rw [← toNat_count ho, ← toNat_count ho', hline]

theorem ends_of_lineColumn {a b : Snapshot w} {search : BinarySearch (Usize w)}
    (h : ∀ o, (ofLines a.toSlice).lineColumn search o = (ofLines b.toSlice).lineColumn search o) :
    a.toList.length = b.toList.length ∧ ∀ i, EndsLine a.toList i ↔ EndsLine b.toList i := by
  have hdomain : ∀ o : BytePos w, o.toNat ≤ a.toList.length ↔ o.toNat ≤ b.toList.length := by
    intro o
    rw [← Nat.not_lt, ← Nat.not_lt, ← lineColumn_eq_none_iff search,
      ← lineColumn_eq_none_iff search, h o]
  refine ends_of_counts hdomain fun o ho => ?_
  obtain ⟨line, column, hlookup, hline, -⟩ := lineColumn_spec search ho
  obtain ⟨line', column', hlookup', hline', -⟩ := lineColumn_spec search ((hdomain o).mp ho)
  have hpair := h o
  rw [hlookup, hlookup', Except.ok.injEq, Option.some.injEq] at hpair
  obtain ⟨rfl, -⟩ := Prod.mk.inj hpair
  simp only [Segments.locate] at hline hline'
  omega

theorem getElem?_lineStarts_of_lineRange {s : Snapshot w} {line : Usize w} :
    (MmapCursor.lineStarts s.toList)[line.toNat]? =
      match (ofLines s.toSlice).lineRange line with
      | .ok (some r) => some r.start.toNat
      | _ => none := by
  cases h : (MmapCursor.lineStarts s.toList)[line.toNat]? with
  | none => rw [lineRange_none (List.getElem?_eq_none_iff.mp h)]
  | some c =>
    obtain ⟨r, hr, hstart, -⟩ := lineRange_spec line h
    rw [hr]
    exact congrArg some hstart.symm

theorem end_of_lineRange {s : Snapshot w} (line : Usize w)
    (hline : line.toNat + 1 = (MmapCursor.lineStarts s.toList).length) :
    ∃ r, (ofLines s.toSlice).lineRange line = .ok (some r) ∧ r.end_.toNat = s.toList.length := by
  have hlt : line.toNat < (MmapCursor.lineStarts s.toList).length := by omega
  obtain ⟨r, hr, -, hend⟩ := lineRange_spec line (List.getElem?_eq_getElem hlt)
  rw [List.getElem?_eq_none (by omega), Option.getD_none] at hend
  exact ⟨r, hr, hend⟩

theorem ends_of_lineRange {a b : Snapshot w}
    (h : ∀ line, (ofLines a.toSlice).lineRange line = (ofLines b.toSlice).lineRange line) :
    a.toList.length = b.toList.length ∧ ∀ i, EndsLine a.toList i ↔ EndsLine b.toList i := by
  have hstarts : MmapCursor.lineStarts a.toList = MmapCursor.lineStarts b.toList := by
    apply List.ext_getElem?
    intro i
    rcases Nat.lt_or_ge i (2 ^ w) with hi | hi
    · have hval : (BitVec.ofNat w i).toNat = i := Words.toNat_ofNat_of_lt hi
      rw [← hval, getElem?_lineStarts_of_lineRange, getElem?_lineStarts_of_lineRange, h]
    · have ha := length_lineStarts_lt a
      have hb := length_lineStarts_lt b
      rw [List.getElem?_eq_none (by omega), List.getElem?_eq_none (by omega)]
  refine ⟨?_, fun i => by rw [← succ_mem_lineStarts, ← succ_mem_lineStarts, hstarts]⟩
  have hcount := length_lineStarts a.toList
  have hlast := toNat_ofNat_line (s := a) (i := (MmapCursor.lineStarts a.toList).length - 1)
    (by omega)
  obtain ⟨r, hr, hend⟩ := end_of_lineRange (s := a) (BitVec.ofNat w _) (by rw [hlast]; omega)
  obtain ⟨r', hr', hend'⟩ :=
    end_of_lineRange (s := b) (BitVec.ofNat w _) (by rw [← hstarts, hlast]; omega)
  rw [h, hr', Except.ok.injEq, Option.some.injEq] at hr
  rw [← hend, ← hend', hr]

/-- **An index is what its lookups answer**, each of the three on its own: equal indexes, equal
answers and bytes of the same length with the same line ends are the same thing, whatever else the
bytes are and whichever builds made the indexes. -/
theorem observed_tfae (build build' : Build w) (search : BinarySearch (Usize w))
    (a b : Snapshot w) :
    ∃ ia ib, new build a.toSlice = .ok ia ∧ new build' b.toSlice = .ok ib ∧ List.TFAE [
      ia = ib,
      a.toList.length = b.toList.length ∧ ∀ i, EndsLine a.toList i ↔ EndsLine b.toList i,
      ∀ o, ia.lineForOffset search o = ib.lineForOffset search o,
      ∀ o, ia.lineColumn search o = ib.lineColumn search o,
      ∀ line, ia.lineRange line = ib.lineRange line] := by
  refine ⟨_, _, new_eq build a.toSlice, new_eq build' b.toSlice, ?_⟩
  tfae_have 1 ↔ 2 := ofLines_eq_iff
  tfae_have 1 → 3 := fun h o => by rw [h]
  tfae_have 1 → 4 := fun h o => by rw [h]
  tfae_have 1 → 5 := fun h line => by rw [h]
  tfae_have 3 → 2 := ends_of_lineForOffset
  tfae_have 4 → 2 := ends_of_lineColumn
  tfae_have 5 → 2 := ends_of_lineRange
  tfae_finish

end LineIndex

end MmapCursor
