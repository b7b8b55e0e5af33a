import MmapCursor.Comments
import MmapCursor.Diagnostic

/-!
# What the examples print

Model of `main` in `examples/comments.rs` and `examples/basic.rs`, from the open file on: the texts
handed to `println!`, in order.

* `commentsMain_spec` — a `println!` for every remark, with its bytes, its line and its column; none
  is left out, and their lengths are summed without overflow;
* `basicMain_spec` — where the first newline is, if there is one.
-/

set_option autoImplicit false

namespace MmapCursor

open Enclosed

variable {w : Nat}

/-- What `main` prints for a remark. -/
def commentLine (n : Nat) (range : ByteRange w) (line column : Usize w) (text : List UInt8) :
    String :=
  "- #" ++ toString n ++ ": bytes " ++ range.debug ++ " at line " ++ toString line.toNat ++
    ", column " ++ toString column.toNat ++ ": " ++ fromUtf8Lossy text

/-- One round of the `for` of `main`: what it prints, which is nothing for `continue`. -/
def commentRound (search : BinarySearch (Usize w)) (index : LineIndex w) (cursor : Cursor w)
    (item : ByteRange w × Nat) : Res (List String) := do
  match ← cursor.slice item.1 with
  | none => pure []
  | some text =>
    match ← index.lineColumn search item.1.start with
    | none => pure []
    | some (line, column) => pure [commentLine item.2 item.1 line column text]

/-- `main` of `comments.rs`. -/
def commentsMain (build : Build w) (search : BinarySearch (Usize w)) (file : ByteFile w) :
    Res (List String) := do
  let index ← file.lineIndex build
  let ranges ← comments file
  let printed ← ranges.zipIdx.mapM (commentRound search index file.cursor)
  let commented ← (ranges.map ByteRange.len).foldlM Usize.plus 0
  pure (["==sample.ifc==", "- comments: " ++ toString ranges.length] ++ printed.flatten ++
    ["- comment bytes: " ++ toString commented.toNat ++ " of " ++ toString file.len.toNat])

section Comments

variable {s : Snapshot w}

theorem commentRound_eq (search : BinarySearch (Usize w)) {r : ByteRange w} (n : Nat)
    (hr : r.end_.toNat ≤ s.toList.length) :
    commentRound search (LineIndex.ofLines s.toSlice) (Cursor.new s.toSlice) (r, n) =
      .ok [commentLine n r (LineIndex.pairAt s r.start).1 (LineIndex.pairAt s r.start).2
        (s.toList.extract r.start.toNat r.end_.toNat)] := by
  have hslice : (Cursor.new s.toSlice).slice r =
      .ok (some (s.toList.extract r.start.toNat r.end_.toNat)) :=
    (Cursor.slice_eq (Cursor.new_inv s.toSlice) r).trans (congrArg Except.ok (if_pos hr))
  have hlookup := (LineIndex.lineColumn_eq_pairAt search
    (Nat.le_trans r.start_le_end hr : r.start.toNat ≤ s.toList.length)).1
  unfold commentRound
  simp only [hslice, hlookup, bind, Except.bind]
  rfl

theorem foldlM_plus (lens : List (Usize w)) (acc : Usize w)
    (h : acc.toNat + (lens.map BitVec.toNat).sum < 2 ^ w) :
    ∃ sum, lens.foldlM Usize.plus acc = .ok sum ∧
      sum.toNat = acc.toNat + (lens.map BitVec.toNat).sum := by
  induction lens generalizing acc with
  | nil => exact ⟨acc, rfl, rfl⟩
  | cons len lens ih =>
    rw [List.map_cons, List.sum_cons] at h
    have hval : (BitVec.ofNat w (acc.toNat + len.toNat)).toNat = acc.toNat + len.toNat :=
      Words.toNat_ofNat_of_lt (by omega)
    obtain ⟨sum, hsum, htotal⟩ := ih (BitVec.ofNat w (acc.toNat + len.toNat)) (by omega)
    refine ⟨sum, ?_, by rw [htotal, hval, List.map_cons, List.sum_cons]; omega⟩
    rw [List.foldlM_cons, Usize.plus_eq rfl (by omega : acc.toNat + len.toNat < 2 ^ w)]
    exact hsum

/-- What is printed for the ranges, in order. -/
def commentLines (s : Snapshot w) (ranges : List (ByteRange w)) : List String :=
  ranges.zipIdx.map fun item => commentLine item.2 item.1 (LineIndex.pairAt s item.1.start).1
    (LineIndex.pairAt s item.1.start).2 (s.toList.extract item.1.start.toNat item.1.end_.toNat)

section Ranges

variable {t : Remarks} {ranges : List (ByteRange w)}

theorem end_le (ht : t.render = s.toList) (hspans : ranges.map ByteRange.bounds = t.spans 0)
    {r : ByteRange w} (hr : r ∈ ranges) : r.end_.toNat ≤ s.toList.length := by
  have hmem : r.bounds ∈ t.spans 0 := hspans ▸ List.mem_map_of_mem hr
  have hbound := (t.spans_bounds hmem).2.2
  rwa [Nat.zero_add, ht] at hbound

theorem mapM_commentRound (search : BinarySearch (Usize w)) (ht : t.render = s.toList)
    (hspans : ranges.map ByteRange.bounds = t.spans 0) :
    ∃ printed, ranges.zipIdx.mapM
        (commentRound search (LineIndex.ofLines s.toSlice) (Cursor.new s.toSlice)) = .ok printed ∧
      printed.flatten = commentLines s ranges := by
  have hround : ∀ item ∈ ranges.zipIdx,
      commentRound search (LineIndex.ofLines s.toSlice) (Cursor.new s.toSlice) item =
        .ok [commentLine item.2 item.1 (LineIndex.pairAt s item.1.start).1
          (LineIndex.pairAt s item.1.start).2
          (s.toList.extract item.1.start.toNat item.1.end_.toNat)] := by
    rintro ⟨r, n⟩ hitem
    exact commentRound_eq search n (end_le ht hspans (List.fst_mem_of_mem_zipIdx hitem))
  refine ⟨_, Loops.mapM_ok hround, ?_⟩
  rw [commentLines, ← List.flatMap_def, ← List.map_eq_flatMap]

theorem getElem?_commentLines (search : BinarySearch (Usize w)) (ht : t.render = s.toList)
    (hspans : ranges.map ByteRange.bounds = t.spans 0) {i start stop : Nat} {text : List UInt8}
    (hspan : (t.spans 0)[i]? = some (start, stop)) (hpart : t.parts[i]? = some text) :
    (commentLines s ranges)[i]? = some (
      "- #" ++ toString i ++ ": bytes " ++ (toString start ++ (".." ++ toString stop)) ++
        " at line " ++ toString ((Segments.locate (EndsLine s.toList) start).1 + 1) ++
        ", column " ++ toString ((Segments.locate (EndsLine s.toList) start).2 + 1) ++ ": " ++
        fromUtf8Lossy text) := by
  have hr := hspan
  rw [← hspans, List.getElem?_map, Option.map_eq_some_iff] at hr
  obtain ⟨r, hr, hbounds⟩ := hr
  obtain ⟨rfl, rfl⟩ := Prod.mk.inj hbounds
  have htext : s.toList.extract r.start.toNat r.end_.toNat = text := by
    rw [← t.extract_spans [], List.length_nil, List.getElem?_map, hspan, Option.map_some,
      Option.some.injEq, List.nil_append, ht] at hpart
    exact hpart
  have hend := end_le ht hspans (List.mem_of_getElem? hr)
  obtain ⟨-, hline, hcolumn⟩ := LineIndex.lineColumn_eq_pairAt search
    (Nat.le_trans r.start_le_end hend : r.start.toNat ≤ s.toList.length)
  rw [commentLines, List.getElem?_map, List.getElem?_zipIdx, hr, Option.map_some, Option.map_some,
    Nat.zero_add, Option.some.injEq]
  unfold commentLine
  rw [htext, hline, hcolumn]
  rfl

theorem foldlM_len (ht : t.render = s.toList) (hspans : ranges.map ByteRange.bounds = t.spans 0) :
    (t.parts.map List.length).sum ≤ s.toList.length ∧
      ∃ commented, (ranges.map ByteRange.len).foldlM Usize.plus 0 = .ok commented ∧
        commented.toNat = (t.parts.map List.length).sum := by
  have hsum : ((ranges.map ByteRange.len).map BitVec.toNat).sum =
      (t.parts.map List.length).sum := by
    rw [← t.spans_lengths 0, ← hspans, List.map_map, List.map_map]
    congr 2
    funext r
    exact ByteRange.toNat_len r
  have hle := t.sum_length_parts_le
  rw [ht] at hle
  have hfits := s.length_succ_lt
  obtain ⟨commented, hcommented, htotal⟩ := foldlM_plus (ranges.map ByteRange.len) 0 (by
    rw [hsum, Usize.toNat_zero]; omega)
  rw [hsum, Usize.toNat_zero, Nat.zero_add] at htotal
  exact ⟨hle, commented, hcommented, htotal⟩

end Ranges

/-- **A `println!` for every remark**: its number, its bytes, where `line_column` puts its first
byte, and its text; the last one sums up their lengths, which are never more than the file has. -/
theorem commentsMain_spec (build : Build w) (search : BinarySearch (Usize w)) (file : ByteFile w)
    (hfile : file.bytes = s.toSlice) {t : Remarks} (ht : t.render = s.toList) :
    ∃ printed : List String, commentsMain build search file = .ok (
        ["==sample.ifc==", "- comments: " ++ toString t.parts.length] ++ printed ++
        ["- comment bytes: " ++ toString (t.parts.map List.length).sum ++ " of " ++
          toString s.toList.length]) ∧
      (t.parts.map List.length).sum ≤ s.toList.length ∧ printed.length = t.parts.length ∧
      ∀ (i start stop : Nat) (text : List UInt8), (t.spans 0)[i]? = some (start, stop) →
        t.parts[i]? = some text → printed[i]? = some (
          "- #" ++ toString i ++ ": bytes " ++ (toString start ++ (".." ++ toString stop)) ++
            " at line " ++ toString ((Segments.locate (EndsLine s.toList) start).1 + 1) ++
            ", column " ++ toString ((Segments.locate (EndsLine s.toList) start).2 + 1) ++ ": " ++
            fromUtf8Lossy text) := by
  have htfile : t.render = file.bytes.toList := by rw [hfile]; exact ht
  obtain ⟨ranges, hranges, hspans⟩ := comments_spans file htfile
  have hlength : ranges.length = t.parts.length := by
    rw [t.length_parts 0, ← hspans, List.length_map]
  obtain ⟨printed, hprinted, hflatten⟩ := mapM_commentRound search ht hspans
  obtain ⟨hle, commented, hcommented, htotal⟩ := foldlM_len ht hspans
  refine ⟨commentLines s ranges, ?_, hle, ?_, fun i start stop text =>
    getElem?_commentLines search ht hspans⟩
  · have hlen : file.len.toNat = s.toList.length := by
      show file.bytes.len.toNat = _
      rw [hfile, Slice.toNat_len]
    have hcursor : file.cursor = Cursor.new s.toSlice := congrArg Cursor.new hfile
    unfold commentsMain
    simp only [ByteFile.lineIndex_eq build hfile, hranges, hcursor, hprinted, hflatten, hcommented,
      htotal, hlen, hlength, bind, Except.bind, pure, Except.pure]
  · rw [commentLines, List.length_map, List.length_zipIdx, hlength]

/-- `a/*b*/`: one remark of five bytes. -/
theorem commentsMain_spec_one : ∃ line : String,
    commentsMain .fallback BinarySearch.halving
        (⟨some ⟨[97, 47, 42, 98, 42, 47], by decide⟩⟩ : ByteFile 64) =
      .ok ["==sample.ifc==", "- comments: 1", line, "- comment bytes: 5 of 6"] ∧
    line = "- #0: bytes 1..6 at line 1, column 2: " ++ fromUtf8Lossy [47, 42, 98, 42, 47] := by
  obtain ⟨printed, hprinted, -, hlength, hlines⟩ := commentsMain_spec
    (s := .ofList 64 [97, 47, 42, 98, 42, 47] (by decide)) .fallback BinarySearch.halving
    ⟨some ⟨[97, 47, 42, 98, 42, 47], by decide⟩⟩ rfl
    (t := .enclosed [97] (by decide) [98] (by decide) (.plain [] (by decide))) rfl
  obtain ⟨line, rfl⟩ := List.length_eq_one_iff.mp hlength
  have hline := Option.some.inj (hlines 0 1 6 [47, 42, 98, 42, 47] rfl rfl)
  exact ⟨line, hprinted, hline⟩

end Comments

/-! ## The first newline -/

/-- What step 2 of `main` prints about the line `showLine`, if there is such a line. -/
def showLineRange (index : LineIndex w) (showLine : Usize w) : Res (List String) := do
  match ← index.lineRange showLine with
  | none => pure []
  | some line =>
    let number ← Usize.plus showLine 1
    pure ["- line " ++ toString number.toNat ++ " spans bytes " ++ line.start.display ++ ".." ++
      line.end_.display]

/-- What step 3 of `main` prints about the byte under the cursor. -/
def showNewline (search : BinarySearch (Usize w)) (index : LineIndex w) (cursor : Cursor w) :
    Res (List String) :=
  if cursor.peek = some LF then do
    match ← index.lineColumn search cursor.position with
    | none => pure []
    | some (line, column) =>
      pure ["- first newline at " ++ toString line.toNat ++ ":" ++ toString column.toNat ++
        " (byte " ++ cursor.position.display ++ ")"]
  else pure ["- no newline in this file"]

/-- `main` of `basic.rs`. -/
def basicMain (build : Build w) (search : BinarySearch (Usize w)) (file : ByteFile w) :
    Res (List String) := do
  let index ← file.lineIndex build
  let shown ← showLineRange index 2
  let cursor ← file.cursor.advanceTo LF
  let newline ← showNewline search index cursor
  pure (["==sample.ifc==", "- bytes: " ++ toString file.bytes.len.toNat,
    "- lines: " ++ toString index.numLines.toNat] ++ shown ++ newline)

section Basic

variable {s : Snapshot w}

theorem advanceTo_newline (s : Slice w) :
    ∃ c, (Cursor.new s).advanceTo LF = .ok c ∧ (LF ∉ s.toList → c.peek = none) ∧
      ∀ before after, s.toList = before ++ LF :: after → LF ∉ before →
        c.peek = some LF ∧ c.position.toNat = before.length := by
  have hinv := Cursor.new_inv s
  obtain ⟨c, hc, hcinv, hcs, -, hcu⟩ := Cursor.advanceUntil_spec hinv (· != LF)
  rw [Cursor.new_unread] at hcu
  refine ⟨c, hc, fun hnone => ?_, fun before after hs hbefore => ?_⟩
  · have hnil : c.unread = [] := by
      rw [hcu, List.dropWhile_eq_nil_iff]
      intro b hb
      rw [bne_iff_ne]
      rintro rfl
      exact hnone hb
    rw [Cursor.peek_eq, hnil]
    rfl
  · have hpass : ∀ b ∈ before, (b != LF) = true := by
      intro b hb
      rw [bne_iff_ne]
      rintro rfl
      exact hbefore hb
    have hunread : c.unread = LF :: after := by
      rw [hcu, hs, List.dropWhile_append_of_pos hpass]
      simp
    have hsplit : (Cursor.new s).unread = before ++ c.unread := by
      rw [Cursor.new_unread, hunread, hs]
    have hpos := Cursor.pos_of_append hinv hcinv hcs hsplit
    have hzero : (Cursor.new s).pos.toNat = 0 := Usize.toNat_zero
    refine ⟨by rw [Cursor.peek_eq, hunread]; rfl, ?_⟩
    show c.pos.toNat = _
    omega

theorem showLineRange_some {line : Usize w} {start : Nat}
    (h : (lineStarts s.toList)[line.toNat]? = some start) :
    showLineRange (LineIndex.ofLines s.toSlice) line = .ok
      ["- line " ++ toString (line.toNat + 1) ++ " spans bytes " ++ toString start ++ ".." ++
        toString ((lineStarts s.toList)[line.toNat + 1]?.getD s.toList.length)] := by
  obtain ⟨r, hr, hstart, hend⟩ := LineIndex.lineRange_spec line h
  have hline := (List.getElem?_eq_some_iff.mp h).1
  have hlines := LineIndex.length_lineStarts_lt s
  have hnext : line.toNat + 1 < 2 ^ w := by omega
  unfold showLineRange BytePos.display
  simp only [hr, hstart, hend, Usize.plus_literal (k := 1) hnext, Words.toNat_ofNat_of_lt hnext,
    bind, Except.bind, pure, Except.pure]

theorem showLineRange_none {line : Usize w} (h : (lineStarts s.toList).length ≤ line.toNat) :
    showLineRange (LineIndex.ofLines s.toSlice) line = .ok [] := by
  unfold showLineRange
  simp only [LineIndex.lineRange_none h, bind, Except.bind, pure, Except.pure]

theorem showNewline_some (search : BinarySearch (Usize w)) {c : Cursor w}
    (hpeek : c.peek = some LF) (hpos : c.position.toNat ≤ s.toList.length) :
    showNewline search (LineIndex.ofLines s.toSlice) c = .ok
      ["- first newline at " ++
        toString ((Segments.locate (EndsLine s.toList) c.position.toNat).1 + 1) ++ ":" ++
        toString ((Segments.locate (EndsLine s.toList) c.position.toNat).2 + 1) ++
        " (byte " ++ toString c.position.toNat ++ ")"] := by
  obtain ⟨line, column, hlookup, hline, hcolumn⟩ := LineIndex.lineColumn_spec search hpos
  unfold showNewline BytePos.display
  rw [if_pos hpeek]
  simp only [hlookup, hline, hcolumn, bind, Except.bind, pure, Except.pure]

theorem showNewline_none (search : BinarySearch (Usize w)) (index : LineIndex w) {c : Cursor w}
    (hpeek : c.peek = none) :
    showNewline search index c = .ok ["- no newline in this file"] := by
  unfold showNewline
  rw [if_neg (by simp [hpeek])]
  rfl

theorem showLineRange_third (hw : 2 ≤ w) :
    ∃ shown, showLineRange (LineIndex.ofLines s.toSlice) 2 = .ok shown ∧
      ((lineStarts s.toList).length ≤ 2 → shown = []) ∧
      ∀ start, (lineStarts s.toList)[2]? = some start → shown =
        ["- line 3 spans bytes " ++ toString start ++ ".." ++
          toString ((lineStarts s.toList)[3]?.getD s.toList.length)] := by
  have htwo : (2 : Usize w).toNat = 2 :=
    Usize.toNat_literal (k := 2) (Nat.le_refl 2) (Nat.pow_lt_pow_right (by decide) hw : 2 ^ 1 < 2 ^ w)
  cases hline : (lineStarts s.toList)[2]? with
  | none =>
    have hle := List.getElem?_eq_none_iff.mp hline
    exact ⟨[], showLineRange_none (by rw [htwo]; exact hle), fun _ => rfl, nofun⟩
  | some start =>
    have hlt := (List.getElem?_eq_some_iff.mp hline).1
    have hline' : (lineStarts s.toList)[(2 : Usize w).toNat]? = some start := by
      rw [htwo]
      exact hline
    refine ⟨_, showLineRange_some hline', fun hle => ?_, ?_⟩
    · omega
    · rintro _ ⟨⟩
      rw [htwo]
      rfl

theorem showNewline_first (search : BinarySearch (Usize w)) {c : Cursor w}
    (hnone : LF ∉ s.toList → c.peek = none)
    (hsome : ∀ before after, s.toList = before ++ LF :: after → LF ∉ before →
      c.peek = some LF ∧ c.position.toNat = before.length) :
    ∃ newline, showNewline search (LineIndex.ofLines s.toSlice) c = .ok [newline] ∧
      (LF ∉ s.toList → newline = "- no newline in this file") ∧
      ∀ before after, s.toList = before ++ LF :: after → LF ∉ before → newline =
        "- first newline at " ++
          toString ((Segments.locate (EndsLine s.toList) before.length).1 + 1) ++ ":" ++
          toString ((Segments.locate (EndsLine s.toList) before.length).2 + 1) ++
          " (byte " ++ toString before.length ++ ")" := by
  by_cases hmem : LF ∈ s.toList
  · obtain ⟨before, after, hsplit, hbefore⟩ := List.eq_append_cons_of_mem hmem
    obtain ⟨hpeek, hpos⟩ := hsome before after hsplit hbefore
    have hle : c.position.toNat ≤ s.toList.length := by
      rw [hpos, hsplit, List.length_append]
      exact Nat.le_add_right _ _
    refine ⟨_, showNewline_some search hpeek hle, fun h => absurd hmem h, ?_⟩
    intro before' after' hsplit' hbefore'
    rw [(hsome before' after' hsplit' hbefore').2]
  · refine ⟨_, showNewline_none search _ (hnone hmem), fun _ => rfl, ?_⟩
    intro before after hsplit
    exact absurd (by rw [hsplit]; simp) hmem

/-- **Where the first newline is**, by its line, its column and its byte, if there is one; before
that, how many bytes and lines there are, and the bytes of the third line, if there is one. -/
theorem basicMain_spec (hw : 2 ≤ w) (build : Build w) (search : BinarySearch (Usize w))
    (file : ByteFile w) (hfile : file.bytes = s.toSlice) :
    ∃ (shown : List String) (newline : String),
      basicMain build search file = .ok (["==sample.ifc==",
        "- bytes: " ++ toString s.toList.length,
        "- lines: " ++ toString (lineStarts s.toList).length] ++ shown ++ [newline]) ∧
      ((lineStarts s.toList).length ≤ 2 → shown = []) ∧
      (∀ start, (lineStarts s.toList)[2]? = some start → shown =
        ["- line 3 spans bytes " ++ toString start ++ ".." ++
          toString ((lineStarts s.toList)[3]?.getD s.toList.length)]) ∧
      (LF ∉ s.toList → newline = "- no newline in this file") ∧
      ∀ before after, s.toList = before ++ LF :: after → LF ∉ before → newline =
        "- first newline at " ++
          toString ((Segments.locate (EndsLine s.toList) before.length).1 + 1) ++ ":" ++
          toString ((Segments.locate (EndsLine s.toList) before.length).2 + 1) ++
          " (byte " ++ toString before.length ++ ")" := by
  have hindex := ByteFile.lineIndex_eq build hfile
  have hlen : file.bytes.len.toNat = s.toList.length := by
    rw [hfile, Slice.toNat_len]
  have hcursor : file.cursor = Cursor.new s.toSlice := congrArg Cursor.new hfile
  obtain ⟨c, hc, hnone, hsome⟩ := advanceTo_newline s.toSlice
  obtain ⟨shown, hshown, hfew, hthird⟩ := showLineRange_third (s := s) hw
  obtain ⟨newline, hnewline, habsent, hfirst⟩ := showNewline_first search hnone hsome
  refine ⟨shown, newline, ?_, hfew, hthird, habsent, hfirst⟩
  unfold basicMain
  simp only [hindex, hcursor, hshown, hc, hnewline, hlen, LineIndex.toNat_numLines, bind,
    Except.bind, pure, Except.pure]

/-- `a`, `b`: the newline is the second byte. -/
theorem basicMain_spec_two : basicMain .fallback BinarySearch.halving
    (⟨some ⟨[97, 10, 98], by decide⟩⟩ : ByteFile 64) =
      .ok ["==sample.ifc==", "- bytes: 3", "- lines: 2", "- first newline at 1:2 (byte 1)"] := by
  obtain ⟨shown, newline, hprinted, hfew, -, -, hfirst⟩ := basicMain_spec
    (s := .ofList 64 [97, 10, 98] (by decide)) (by decide) .fallback BinarySearch.halving
    ⟨some ⟨[97, 10, 98], by decide⟩⟩ rfl
  rw [hprinted, hfew (by decide), hfirst [97] [98] rfl (by decide)]
  rfl

end Basic

end MmapCursor
