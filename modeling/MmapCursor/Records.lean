import MmapCursor.Arithmetic
import MmapCursor.Fields
import MmapCursor.Lib.Records

/-!
# Reading records

Model of the loop of `delimiter_scans_advance_through_the_snapshot` (`tests/end_to_end.rs`), "the
shape a parser actually walks: a field, its `;`, a line terminator".  The loop goes on if a newline
follows the `;`, and asserts that every field is closed.

`readRecords_spec` says of every file whether the loop returns, what it returns, and where it leaves
the cursor; what a document of records is, is `Records.join` for `;` and the newline.
-/

set_option autoImplicit false

namespace MmapCursor

open Records

variable {w : Nat}

/-- A byte string, taken apart into records. -/
abbrev RecordText := Text SEMICOLON LF

namespace Cursor

/-- One round of the `loop`. -/
def recordRound (st : Cursor w × List (List UInt8)) :
    Out (ForInStep (Cursor w × List (List UInt8))) := do
  let start := st.1.position
  let c ← st.1.advanceTo SEMICOLON
  if c.peek ≠ some SEMICOLON then .error (.expect "the stop byte stays unconsumed")
  else
    let range ← ByteRange.new start c.position
    match ← c.slice range with
    | none => .error (.expect "the scanned field is inside the snapshot")
    | some field =>
      let c ← c.advanceThrough SEMICOLON
      let (found, c) ← c.advanceIfStartsWith [LF]
      if found then .ok (.yield (c, st.2 ++ [field]))
      else .ok (.done (c, st.2 ++ [field]))

end Cursor

/-- The loop over all records: the cursor behind the last one, and the fields. -/
def readRecords (file : ByteFile w) : Out (Cursor w × List (List UInt8)) :=
  Loops.loop (.fault .outOfFuel) Cursor.recordRound (file.bytes.toList.length + 1)
    (file.cursor, [])

namespace Cursor

/-- **A closed field**: it is recorded, and the round goes over its `;` and over a newline. -/
theorem recordRound_closed {c : Cursor w} (h : c.Inv) {field rest : List UInt8}
    (hfield : SEMICOLON ∉ field) (hu : c.unread = field ++ SEMICOLON :: rest)
    (fields : List (List UInt8)) :
    ∃ c', recordRound (c, fields) = .ok (if rest.head? = some LF then
        .yield (c', fields ++ [field]) else .done (c', fields ++ [field])) ∧
      c'.Inv ∧ c'.source = c.source ∧
      c'.unread = if rest.head? = some LF then rest.drop 1 else rest := by
  obtain ⟨d, hd, hdinv, hds, -, hdu⟩ := advanceUntil_spec h (· != SEMICOLON)
  obtain ⟨range, hrange, hslice⟩ := slice_field h hdinv hds hdu
  obtain ⟨e, he, heinv, hes, -, heu⟩ := advanceThrough_spec hdinv SEMICOLON
  obtain ⟨f, hf, hfinv, hfs, -, hfu⟩ := advanceIfStartsWith_spec heinv [LF]
  have hpass : ∀ b ∈ field, (b != SEMICOLON) = true := by
    intro b hb
    simp only [bne_iff_ne]
    rintro rfl
    exact hfield hb
  have htake : c.unread.takeWhile (· != SEMICOLON) = field := by
    rw [hu, List.takeWhile_append_of_pos hpass]
    simp
  have hdrop : d.unread = SEMICOLON :: rest := by
    rw [hdu, hu, List.dropWhile_append_of_pos hpass]
    simp
  have heu' : e.unread = rest := by
    rw [heu, hdrop]
    simp
  have hnewline : (e.unread ≠ [] ∧ [LF] <+: e.unread) ↔ rest.head? = some LF := by
    rw [heu']
    cases rest with
    | nil => simp
    | cons b rest => simp [List.cons_prefix_cons, eq_comm]
  refine ⟨f, ?_, hfinv, hfs.trans (hes.trans hds), ?_⟩
  · have hpeek : d.peek = some SEMICOLON := by rw [peek_eq, hdrop]; rfl
    unfold recordRound advanceTo
    simp only [hd, hrange, hslice, he, hf, hpeek, htake, hnewline, liftM_ok, bind, Except.bind]
    by_cases hhead : rest.head? = some LF <;> simp [hhead]
  · rw [hfu, if_congr hnewline rfl rfl, heu']
    rfl

/-- **A field that nothing closes** is scanned to EOF, where there is no stop byte. -/
theorem recordRound_unclosed {c : Cursor w} (h : c.Inv) (hfield : SEMICOLON ∉ c.unread)
    (fields : List (List UInt8)) :
    recordRound (c, fields) = .error (.expect "the stop byte stays unconsumed") := by
  obtain ⟨d, hd, -, -, -, hdu⟩ := advanceUntil_spec h (· != SEMICOLON)
  have hpeek : d.peek ≠ some SEMICOLON := by
    rw [peek_eq, hdu]
    intro hhead
    exact hfield ((List.dropWhile_sublist _).subset (List.mem_of_mem_head? hhead))
  unfold recordRound advanceTo
  simp only [hd, liftM_ok, bind, Except.bind]
  rw [if_pos hpeek]

/-- **The loop** reads what its unread bytes are read as, behind what it has already recorded. -/
theorem recordLoop_spec (text : RecordText) {c : Cursor w} (h : c.Inv)
    (hu : c.unread = text.render) {fuel : Nat} (hfuel : text.render.length < fuel)
    (recorded : List (List UInt8)) :
    (text.read = none → Loops.loop (.fault .outOfFuel) recordRound fuel (c, recorded) =
      .error (.expect "the stop byte stays unconsumed")) ∧
    ∀ {fields tail}, text.read = some (fields, tail) →
      ∃ c', Loops.loop (.fault .outOfFuel) recordRound fuel (c, recorded) =
          .ok (c', recorded ++ fields) ∧
        c'.Inv ∧ c'.source = c.source ∧ c'.unread = tail := by
  induction text generalizing c fuel recorded with
  | unclosed field hfield =>
    have hround := recordRound_unclosed h (by rw [hu]; exact hfield) recorded
    constructor
    · intro _
      cases fuel with
      | zero => omega
      | succ fuel => rw [Loops.loop, hround]
    · intro fields tail hread
      cases hread
  | last field tail hfield htail =>
    obtain ⟨c', hround, hinv, hs, hu'⟩ := recordRound_closed h hfield hu recorded
    rw [if_neg htail] at hround hu'
    constructor
    · intro hread
      cases hread
    · intro fields tail' hread
      cases hread
      cases fuel with
      | zero => omega
      | succ fuel => exact ⟨c', Loops.loop_done hround fuel, hinv, hs, hu'⟩
  | more field hfield text ih =>
    obtain ⟨c', hround, hinv, hs, hu'⟩ := recordRound_closed h hfield hu recorded
    rw [if_pos List.head?_cons] at hround hu'
    cases fuel with
    | zero => omega
    | succ fuel =>
      have hlength : text.render.length < fuel := by
        simp only [Text.render, List.length_append, List.length_cons] at hfuel
        omega
      obtain ⟨hnone, hsome⟩ := ih hinv hu' hlength (recorded ++ [field])
      rw [Loops.loop_yield hround]
      constructor
      · intro hread
        exact hnone (Option.map_eq_none_iff.mp hread)
      · intro fields tail hread
        obtain ⟨⟨rest, tail'⟩, hrest, heq⟩ := Option.map_eq_some_iff.mp hread
        cases heq
        obtain ⟨c'', hrun, hinv', hs', hu''⟩ := hsome hrest
        refine ⟨c'', ?_, hinv', hs'.trans hs, hu''⟩
        rw [hrun, List.append_assoc]
        rfl

end Cursor

/-- **Which files are read, and as what.**  The loop returns fields and leaves a rest exactly for a
file that consists of these fields, each closed by `;`, with a newline between two of them, and of
the rest, which no newline begins: the loop ends at the first `;` that no newline follows, and the
rest may have more of them.  It panics exactly for a file that leaves a field open, be it the
empty one behind a final newline, and then always at the same assertion. -/
theorem readRecords_spec (file : ByteFile w) :
    (∀ (fields : List (List UInt8)) (tail : List UInt8),
      (∃ c, readRecords file = .ok (c, fields) ∧ c.source = file.bytes ∧ c.unread = tail) ↔
        file.bytes.toList = join SEMICOLON LF fields ++ tail ∧ fields ≠ [] ∧
          (∀ field ∈ fields, SEMICOLON ∉ field) ∧ tail.head? ≠ some LF) ∧
    ∀ panic : Panic, readRecords file = .error panic ↔
      panic = .expect "the stop byte stays unconsumed" ∧
        ∃ (fields : List (List UInt8)) (u : List UInt8),
          file.bytes.toList = fields.flatMap (· ++ [SEMICOLON, LF]) ++ u ∧
          (∀ field ∈ fields, SEMICOLON ∉ field) ∧ SEMICOLON ∉ u := by
  obtain ⟨text, htext⟩ := Text.exists_render SEMICOLON LF file.bytes.toList
  have hfuel : text.render.length < file.bytes.toList.length + 1 := by
    rw [htext]
    exact Nat.lt_succ_self _
  obtain ⟨hnone, hsome⟩ := Cursor.recordLoop_spec text (Cursor.new_inv file.bytes)
    ((Cursor.new_unread file.bytes).trans htext.symm) hfuel []
  rw [← htext]
  constructor
  · intro fields tail
    rw [← Text.read_eq_some_iff]
    constructor
    · rintro ⟨c, hc, -, rfl⟩
      cases hread : text.read with
      | none => cases hc.symm.trans (hnone hread)
      | some result =>
        obtain ⟨c', hc', -, -, hu⟩ := hsome hread
        cases hc.symm.trans hc'
        rw [hu]
        rfl
    · intro hread
      obtain ⟨c, hc, -, hs, hu⟩ := hsome hread
      exact ⟨c, hc, hs, hu⟩
  · intro panic
    rw [← Text.read_eq_none_iff]
    constructor
    · intro hpanic
      cases hread : text.read with
      | none =>
        cases hpanic.symm.trans (hnone hread)
        exact ⟨rfl, rfl⟩
      | some result =>
        obtain ⟨c, hc, -⟩ := hsome hread
        cases hpanic.symm.trans hc
    · rintro ⟨rfl, hread⟩
      exact hnone hread

end MmapCursor
