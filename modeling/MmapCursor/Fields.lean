import MmapCursor.CursorRuns
import MmapCursor.Lib.Separated

/-!
# Reading delimited fields

A client that takes the source apart at a delimiter: it moves the cursor to the next delimiter,
slices what it passed, and goes over the delimiter.  `readFields_splits`: the loop terminates, every
slice is there, and the recorded fields are the source split at the delimiter.

The loop invariant (`FieldsInv`) is that the recorded fields are followed by those of the unread
bytes; `fieldRound_spec` is one round.
-/

set_option autoImplicit false

namespace MmapCursor

variable {w : Nat}

namespace Cursor

/-- One round: to the delimiter, the slice, and over the delimiter. -/
def fieldRound (stop : UInt8) (st : Cursor w × List (Option (List UInt8))) :
    Res (ForInStep (Cursor w × List (Option (List UInt8)))) :=
  if st.1.isEof then .ok (.done st)
  else do
    let start := st.1.position
    let c ← st.1.advanceTo stop
    let range ← ByteRange.new start c.position
    let field ← c.slice range
    let c ← c.advanceThrough stop
    .ok (.yield (c, st.2 ++ [field]))

/-- The loop over all fields: the cursor at the end, and what the slices returned. -/
def readFields (stop : UInt8) (fuel : Nat) (bytes : Slice w) :
    Res (Cursor w × List (Option (List UInt8))) :=
  Loops.loop .outOfFuel (fieldRound stop) fuel (new bytes, [])

/-- The recorded fields, and then those of the unread bytes, are those of the source. -/
structure FieldsInv (stop : UInt8) (bytes : Slice w)
    (st : Cursor w × List (Option (List UInt8))) : Prop where
  inv : st.1.Inv
  source_eq : st.1.source = bytes
  recorded : st.2 ++ (Separated.fields stop st.1.unread).map some =
    (Separated.fields stop bytes.toList).map some

theorem slice_field {c d : Cursor w} {stop : UInt8} (h : c.Inv) (hd : d.Inv)
    (hs : d.source = c.source) (hu : d.unread = c.unread.dropWhile (· != stop)) :
    ∃ range, ByteRange.new c.position d.position = .ok range ∧
      d.slice range = .ok (some (c.unread.takeWhile (· != stop))) := by
  obtain ⟨hle, hext⟩ := extract_eq_of_unread h hd hs (unread_of_dropWhile hu)
  refine ⟨_, ByteRange.new_eq hle, ?_⟩
  rw [slice_eq hd, if_pos hd.pos_le_length, hs]
  show Except.ok (some (c.source.toList.extract c.pos.toNat d.pos.toNat)) = _
  rw [hext]

/-- **One round** keeps the invariant; it leaves the loop at EOF, or goes on with fewer bytes
unread. -/
theorem fieldRound_spec {stop : UInt8} {bytes : Slice w}
    {st : Cursor w × List (Option (List UInt8))} (h : FieldsInv stop bytes st) :
    (∃ st', fieldRound stop st = .ok (.done st') ∧ FieldsInv stop bytes st' ∧
        st'.1.unread = []) ∨
      ∃ st', fieldRound stop st = .ok (.yield st') ∧ FieldsInv stop bytes st' ∧
        st'.1.unread.length < st.1.unread.length := by
  obtain ⟨c, recorded⟩ := st
  have hinv : c.Inv := h.inv
  have hsource : c.source = bytes := h.source_eq
  unfold fieldRound
  by_cases hnil : c.unread = []
  · exact Or.inl ⟨(c, recorded), by rw [if_pos ((isEof_iff hinv).mpr hnil)], h, hnil⟩
  · obtain ⟨d, hd, hdinv, hds, -, hdu⟩ := advanceUntil_spec hinv (· != stop)
    obtain ⟨range, hrange, hslice⟩ := slice_field hinv hdinv hds hdu
    obtain ⟨e, he, heinv, hes, -, heu⟩ := advanceThrough_spec hdinv stop
    have hpast : e.unread = Separated.past stop c.unread := by
      rw [heu, hdu]
      exact Separated.past_dropWhile c.unread
    refine Or.inr ⟨(e, recorded ++ [some (c.unread.takeWhile (· != stop))]), ?_, ?_, ?_⟩
    · simp only [if_neg fun heof => hnil ((isEof_iff hinv).mp heof), advanceTo, hd, hrange, hslice,
        he, bind, Except.bind]
    · refine ⟨heinv, hes.trans (hds.trans hsource), ?_⟩
      have hrec : recorded ++ (Separated.fields stop c.unread).map some = _ := h.recorded
      rw [Separated.fields_eq_cons hnil, List.map_cons] at hrec
      rw [← hrec, hpast, List.append_assoc]
      rfl
    · show e.unread.length < c.unread.length
      rw [hpast]
      exact Separated.length_past_lt hnil

/-- **The loop is a lossless split**: nothing is lost, no field holds the delimiter, and there are
as many fields as delimiters, and one for an unclosed end. -/
theorem readFields_splits (bytes : Slice w) (stop : UInt8) (fuel : Nat)
    (hfuel : bytes.toList.length < fuel) :
    ∃ (c : Cursor w) (fields : List (List UInt8)),
      readFields stop fuel bytes = .ok (c, fields.map some) ∧ c.isEof = true ∧
      (∀ field ∈ fields, stop ∉ field) ∧
      bytes.toList = (if bytes.toList.getLast? = some stop then fields.flatMap (· ++ [stop])
        else (fields.flatMap (· ++ [stop])).dropLast) ∧
      fields.length = bytes.toList.count stop +
        (if bytes.toList ≠ [] ∧ bytes.toList.getLast? ≠ some stop then 1 else 0) ∧
      bytes.toList.splitOn stop = fields ++
        (if bytes.toList ≠ [] ∧ bytes.toList.getLast? ≠ some stop then [] else [[]]) := by
  have hstart : FieldsInv stop bytes (new bytes, []) := ⟨new_inv _, rfl, by simp⟩
  obtain ⟨⟨c, recorded⟩, hrun, hI, hnil⟩ := Loops.loop_total Fault.outOfFuel (fieldRound stop)
    (FieldsInv stop bytes) (fun st => st.1.unread.length)
    (fun st => FieldsInv stop bytes st ∧ st.1.unread = [])
    (fun st hst => fieldRound_spec hst) fuel (new bytes, []) hstart
    (by rw [new_unread]; exact hfuel)
  have hrec : recorded = (Separated.fields stop bytes.toList).map some := by
    have := hI.recorded
    rw [hnil] at this
    rw [← this]
    exact (List.append_nil _).symm
  have hclosed := Separated.closed_iff (d := stop) (u := bytes.toList)
  have hopen : (bytes.toList ≠ [] ∧ bytes.toList.getLast? ≠ some stop) ↔
      ¬ Separated.closed stop bytes.toList = true := by rw [hclosed, not_or]
  refine ⟨c, Separated.fields stop bytes.toList, by rw [← hrec]; exact hrun,
    (isEof_iff hI.inv).mpr hnil, fun _ => Separated.not_mem_of_mem_fields, ?_, ?_, ?_⟩
  · rw [Separated.flatMap_fields]
    by_cases hlast : bytes.toList.getLast? = some stop
    · rw [if_pos hlast, if_pos (hclosed.mpr (Or.inr hlast)), List.append_nil]
    · rw [if_neg hlast]
      by_cases hempty : bytes.toList = []
      · rw [hempty]; rfl
      · rw [if_neg fun h => (hclosed.mp h).elim hempty hlast, List.dropLast_concat]
  · rw [Separated.length_fields, if_congr hopen rfl rfl, ite_not]
  · rw [Separated.fields_splitOn, if_congr hopen rfl rfl, ite_not]

/-- An empty field, and an unclosed last one: `a;;b`. -/
theorem readFields_splits_unclosed :
    ∃ (c : Cursor 64) (fields : List (List UInt8)),
      readFields 59 5 ⟨[97, 59, 59, 98], by decide⟩ = .ok (c, fields.map some) ∧
      c.isEof = true ∧ (∀ field ∈ fields, 59 ∉ field) ∧ fields.length = 3 := by
  obtain ⟨c, fields, hrun, heof, hnone, -, hlen, -⟩ :=
    readFields_splits (⟨[97, 59, 59, 98], by decide⟩ : Slice 64) 59 5 (by decide)
  exact ⟨c, fields, hrun, heof, hnone, hlen⟩

end Cursor

end MmapCursor
