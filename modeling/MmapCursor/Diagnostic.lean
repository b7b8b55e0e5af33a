import MmapCursor.Grammar
import MmapCursor.LineColumn
import MmapCursor.Messages
import Mathlib.Data.List.DropRight

/-!
# A diagnostic

Model of `examples/diagnostic.rs`, a caller that looks for an `ENDSEC` without its `;`, copies the
line and its neighbours out of the snapshot, and renders a message from the position and the line
index alone.

* `contents`, `Unterminated` — the lines without the white space at their ends, and what is looked
  for;
* `find_spec` — the first such line is found, with its neighbours, and the position right behind
  the statement, which `line_column` resolves to that line;
* `report_spec` — the message, and how its lines stand under one another.
-/

set_option autoImplicit false

namespace MmapCursor

variable {w : Nat}

/-- `b"ENDSEC"`. -/
def ENDSEC : List UInt8 := [69, 78, 68, 83, 69, 67]

/-- `u8::is_ascii_whitespace`. -/
def isAsciiWhitespace (b : UInt8) : Bool := b == 32 || b == 9 || b == LF || b == 12 || b == CR

/-- `<[u8]>::trim_ascii_end`. -/
def trimAsciiEnd (bytes : List UInt8) : List UInt8 := bytes.rdropWhile isAsciiWhitespace

/-- `line - 1` and `column - 1`, which must not underflow. -/
def Usize.minus (a b : Usize w) : Out (Usize w) :=
  match Words.checkedSub a b with
  | some difference => .ok difference
  | none => .error (.expect "attempt to subtract with overflow")

namespace Diagnostic

/-- `Finding`. -/
structure Finding (w : Nat) where
  at_ : BytePos w
  before : Option String
  offending : String
  after : Option String
  deriving DecidableEq, Repr

/-- `line_text`. -/
def lineText (cursor : Cursor w) (index : LineIndex w) :
    Option (Usize w) → Res (Option String)
  | none => .ok none
  | some line => do
    match ← index.lineRange line with
    | none => pure none
    | some range =>
      match ← cursor.slice range with
      | none => pure none
      | some bytes => pure (some (fromUtf8Lossy (trimAsciiEnd bytes)))

/-- One round of the `for` of `find`: `none` is `continue`. -/
def findRound (cursor : Cursor w) (index : LineIndex w) (line : Usize w) :
    Out (Option (Finding w)) := do
  match ← index.lineRange line with
  | none => pure none
  | some range =>
    match ← cursor.slice range with
    | none => pure none
    | some bytes =>
      let content := trimAsciiEnd bytes
      if !ENDSEC.isPrefixOf content || [SEMICOLON].isSuffixOf content then pure none
      else do
        let at_ ← range.start.add (BytePos.new (BitVec.ofNat w content.length))
        let before ← lineText cursor index (Words.checkedSub line 1)
        let next ← Usize.plus line 1
        let after ← lineText cursor index (some next)
        pure (some { at_ := at_, before := before, offending := fromUtf8Lossy content, after := after })

/-- `find`. -/
def find (file : ByteFile w) (index : LineIndex w) : Out (Option (Finding w)) :=
  (List.range index.numLines.toNat).findSomeM? fun line =>
    findRound file.cursor index (BitVec.ofNat w line)

/-- The lines of the file, without the white space at their ends. -/
def contents (l : List UInt8) : List (List UInt8) := (lines l).map trimAsciiEnd

/-- An `ENDSEC` without its `;`. -/
def Unterminated (content : List UInt8) : Prop := ENDSEC <+: content ∧ ¬ [SEMICOLON] <:+ content

instance (content : List UInt8) : Decidable (Unterminated content) :=
  inferInstanceAs (Decidable (ENDSEC <+: content ∧ ¬ [SEMICOLON] <:+ content))

theorem skips_iff {content : List UInt8} :
    (!ENDSEC.isPrefixOf content || [SEMICOLON].isSuffixOf content) = true ↔
      ¬ Unterminated content := by
  rw [Bool.or_eq_true, Bool.not_eq_true', Unterminated, Classical.not_and_iff_not_or_not,
    Classical.not_not, ← List.isPrefixOf_iff_prefix, ← List.isSuffixOf_iff_suffix,
    Bool.not_eq_true]

/-! ## The white space at the end -/

theorem length_trimAsciiEnd_le (bytes : List UInt8) :
    (trimAsciiEnd bytes).length ≤ bytes.length := (List.rdropWhile_prefix _ _).length_le

theorem length_trimAsciiEnd_lt {bytes : List UInt8} {b : UInt8} (hb : isAsciiWhitespace b = true) :
    (trimAsciiEnd (bytes ++ [b])).length < (bytes ++ [b]).length := by
  have hle := length_trimAsciiEnd_le bytes
  unfold trimAsciiEnd at hle ⊢
  rw [List.rdropWhile_concat_pos _ _ _ hb, List.length_append, List.length_singleton]
  omega

theorem length_content_lt {l text : List UInt8} {k : Nat} (hk : (lines l)[k]? = some text)
    (h : k + 1 < (lines l).length) : (trimAsciiEnd text).length < text.length := by
  rw [Document.lines_eq_parse] at hk h
  rw [Document.length_texts] at h
  rw [Document.texts_getElem?_line (by omega), Option.map_eq_some_iff] at hk
  obtain ⟨ln, -, rfl⟩ := hk
  unfold Line.bytes
  cases ln.terminator with
  | lf => exact length_trimAsciiEnd_lt rfl
  | cr => exact length_trimAsciiEnd_lt rfl
  | crlf =>
    show (trimAsciiEnd (ln.body ++ ([CR] ++ [LF]))).length < (ln.body ++ ([CR] ++ [LF])).length
    rw [← List.append_assoc]
    exact length_trimAsciiEnd_lt rfl

/-- **Where a line's content ends**: in that line, as many columns on as the content has bytes. -/
theorem locate_content {l text : List UInt8} {k c : Nat} (hc : (lineStarts l)[k]? = some c)
    (hk : (lines l)[k]? = some text) :
    Segments.locate (EndsLine l) (c + (trimAsciiEnd text).length) = (k, (trimAsciiEnd text).length) ∧
      c + (trimAsciiEnd text).length ≤ l.length := by
  have htext := Segments.pieces_getElem? l hc
  rw [show Segments.pieces l (lineStarts l) = lines l from rfl, hk, Option.some.injEq] at htext
  have hend := next_le l (k + 1)
  have hlength : text.length = (lineStarts l)[k + 1]?.getD l.length - c := by
    rw [htext, List.extract_eq_take_drop, List.length_take, List.length_drop]
    omega
  have hle := length_trimAsciiEnd_le text
  have hstart := lineStarts_le (List.mem_of_getElem? hc)
  apply Segments.locate_of_mem_pairs _ hc
  refine (Segments.mem_pairs _ hc).mpr ⟨fun h => ?_, fun h => ?_⟩
  · have hlt := length_content_lt hk (by rw [length_lines]; exact h)
    have hnext : (Segments.starts (EndsLine l) l.length)[k + 1]?.getD l.length =
      (lineStarts l)[k + 1]?.getD l.length := rfl
    rw [hnext]
    omega
  · have hlast : (lineStarts l)[k + 1]? = none := List.getElem?_eq_none (Nat.le_of_eq h.symm)
    have hnext : (Segments.starts (EndsLine l) l.length)[k + 1]?.getD l.length =
      (lineStarts l)[k + 1]?.getD l.length := rfl
    rw [hlast, Option.getD_none] at hlength
    rw [hnext, hlast, Option.getD_none]
    omega

section Find

variable {s : Snapshot w}

theorem lineText_some (s : Snapshot w) (line : Usize w) :
    lineText (Cursor.new s.toSlice) (LineIndex.ofLines s.toSlice) (some line) =
      .ok ((contents s.toList)[line.toNat]?.map fromUtf8Lossy) := by
  have hR := LineIndex.reports_lines s
  unfold lineText contents
  rw [List.getElem?_map]
  cases hline : (lines s.toList)[line.toNat]? with
  | none =>
    simp only [hR.lineRange_none line (List.getElem?_eq_none_iff.mp hline), bind, Except.bind]
    rfl
  | some text =>
    obtain ⟨r, hr, hslice⟩ := hR.slice_eq line text hline
    simp only [hr, hslice, bind, Except.bind]
    rfl

theorem lineText_checkedSub (s : Snapshot w) {k : Nat} (hk : k < 2 ^ w) :
    lineText (Cursor.new s.toSlice) (LineIndex.ofLines s.toSlice)
        (Words.checkedSub (BitVec.ofNat w k) 1) =
      .ok (if k = 0 then none else (contents s.toList)[k - 1]?.map fromUtf8Lossy) := by
  have hval := Words.toNat_ofNat_of_lt hk
  have hone : (1 : Usize w).toNat = 1 :=
    Usize.toNat_literal (Nat.succ_pos _) s.length_succ_lt
  cases hsub : Words.checkedSub (BitVec.ofNat w k) 1 with
  | none =>
    have hzero : k = 0 := by
      apply Nat.eq_zero_of_not_pos
      intro hpos
      have hpred : (BitVec.ofNat w (k - 1)).toNat = k - 1 := Words.toNat_ofNat_of_lt (by omega)
      have hsome := Words.checkedSub_eq_some_iff.mpr
        (show (BitVec.ofNat w (k - 1)).toNat + (1 : Usize w).toNat = (BitVec.ofNat w k).toNat by
          omega)
      rw [hsub] at hsome
      cases hsome
    rw [if_pos hzero]
    rfl
  | some line =>
    rw [Words.checkedSub_eq_some_iff, hone, hval] at hsub
    rw [lineText_some, if_neg (by omega), show line.toNat = k - 1 by omega]

/-- What a line is to `find`. -/
def finding (s : Snapshot w) (k : Nat) : Option (Finding w) :=
  match (MmapCursor.lineStarts s.toList)[k]?, (contents s.toList)[k]? with
  | some start, some content =>
    if Unterminated content then
      some {
        at_ := BytePos.new (BitVec.ofNat w (start + content.length))
        before := if k = 0 then none else (contents s.toList)[k - 1]?.map fromUtf8Lossy
        offending := fromUtf8Lossy content
        after := (contents s.toList)[k + 1]?.map fromUtf8Lossy }
    else none
  | _, _ => none

/-- **One round**, on any line: no panic. -/
theorem findRound_eq {k start : Nat} {text : List UInt8}
    (hstart : (lineStarts s.toList)[k]? = some start) (htext : (lines s.toList)[k]? = some text) :
    findRound (Cursor.new s.toSlice) (LineIndex.ofLines s.toSlice) (BitVec.ofNat w k) =
      .ok (finding s k) := by
  have hk := (List.getElem?_eq_some_iff.mp hstart).1
  have hlines := LineIndex.length_lineStarts_lt s
  have hval : (BitVec.ofNat w k).toNat = k := LineIndex.toNat_ofNat_line hk
  obtain ⟨r, hr, hslice⟩ := (LineIndex.reports_lines s).slice_eq (BitVec.ofNat w k) text
    (by rw [hval]; exact htext)
  have hrstart := (LineIndex.bounds_of_lineRange hr (by rw [hval]; exact hstart)).1
  have hcontent : (contents s.toList)[k]? = some (trimAsciiEnd text) := by
    rw [contents, List.getElem?_map, htext]
    rfl
  obtain ⟨-, hle⟩ := locate_content hstart htext
  have hlength := s.length_succ_lt
  unfold findRound finding
  simp only [hr, hslice, hstart, hcontent, liftM_ok, bind, Except.bind]
  by_cases hun : Unterminated (trimAsciiEnd text)
  · have hat : (BitVec.ofNat w (trimAsciiEnd text).length).toNat = (trimAsciiEnd text).length :=
      Words.toNat_ofNat_of_lt (by omega)
    obtain ⟨at_, hadd, hval'⟩ := BytePos.add_ok (a := r.start)
      (b := BytePos.new (BitVec.ofNat w (trimAsciiEnd text).length)) (by
        rw [BytePos.toNat_new, hat, hrstart]; omega)
    have hat_ : at_ = BytePos.new (BitVec.ofNat w (start + (trimAsciiEnd text).length)) := by
      apply BytePos.ext_toNat
      rw [hval', BytePos.toNat_new, BytePos.toNat_new, hat, hrstart,
        Words.toNat_ofNat_of_lt (by omega)]
    have hnext : k + 1 < 2 ^ w := by omega
    have hplus : Usize.plus (BitVec.ofNat w k) 1 = .ok (BitVec.ofNat w (k + 1)) := by
      rw [Usize.plus_literal (k := 1) (by rw [hval]; exact hnext), hval]
    rw [if_neg (fun h => skips_iff.mp h hun), if_pos hun]
    simp only [hadd, lineText_checkedSub s (Nat.lt_trans hk hlines), hplus, lineText_some,
      Words.toNat_ofNat_of_lt hnext, liftM_ok, hat_]
    rfl
  · rw [if_pos (skips_iff.mpr hun), if_neg hun]
    rfl

theorem find_eq (file : ByteFile w) (hfile : file.bytes = s.toSlice) :
    find file (LineIndex.ofLines s.toSlice) =
      .ok ((List.range (lines s.toList).length).findSome? (finding s)) := by
  unfold find
  rw [LineIndex.toNat_numLines, ← length_lines]
  apply Loops.findSomeM?_ok
  intro k hk
  rw [List.mem_range] at hk
  have htext := List.getElem?_eq_getElem hk
  rw [length_lines] at hk
  show findRound (Cursor.new file.bytes) _ _ = _
  rw [hfile]
  exact findRound_eq (List.getElem?_eq_getElem hk) htext

theorem finding_eq_none {k : Nat} {content : List UInt8} (hk : (contents s.toList)[k]? = some content)
    (h : ¬ Unterminated content) : finding s k = none := by
  unfold finding
  rw [hk]
  split
  · rename_i heq
    cases heq
    exact if_neg h
  · rfl

theorem finding_eq_some {k : Nat} {content : List UInt8} (hk : (contents s.toList)[k]? = some content)
    (h : Unterminated content) (search : BinarySearch (Usize w)) :
    ∃ f line column, finding s k = some f ∧ f.offending = fromUtf8Lossy content ∧
      f.before = (if k = 0 then none else (contents s.toList)[k - 1]?.map fromUtf8Lossy) ∧
      f.after = (contents s.toList)[k + 1]?.map fromUtf8Lossy ∧
      (LineIndex.ofLines s.toSlice).lineColumn search f.at_ = .ok (some (line, column)) ∧
      line.toNat = k + 1 ∧ column.toNat = content.length + 1 := by
  rw [contents, List.getElem?_map, Option.map_eq_some_iff] at hk
  obtain ⟨text, htext, rfl⟩ := hk
  have hlt := (List.getElem?_eq_some_iff.mp htext).1
  rw [length_lines] at hlt
  have hstart := List.getElem?_eq_getElem hlt
  obtain ⟨hlocate, hle⟩ := locate_content hstart htext
  have hlength := s.length_succ_lt
  have hcontent : (contents s.toList)[k]? = some (trimAsciiEnd text) := by
    rw [contents, List.getElem?_map, htext]
    rfl
  have hat : (BytePos.new (BitVec.ofNat w ((MmapCursor.lineStarts s.toList)[k] +
      (trimAsciiEnd text).length))).toNat = _ := Words.toNat_ofNat_of_lt (by omega)
  obtain ⟨line, column, hlookup, hline, hcolumn⟩ :=
    LineIndex.lineColumn_spec search (s := s) (hat.symm ▸ hle)
  rw [hat, hlocate] at hline hcolumn
  have hfinding : finding s k = some {
      at_ := BytePos.new (BitVec.ofNat w ((MmapCursor.lineStarts s.toList)[k] +
        (trimAsciiEnd text).length))
      before := if k = 0 then none else (contents s.toList)[k - 1]?.map fromUtf8Lossy
      offending := fromUtf8Lossy (trimAsciiEnd text)
      after := (contents s.toList)[k + 1]?.map fromUtf8Lossy } := by
    unfold finding
    simp only [hstart, hcontent, if_pos h]
  exact ⟨_, line, column, hfinding, rfl, rfl, rfl, hlookup, hline, hcolumn⟩

theorem length_contents (l : List UInt8) : (contents l).length = (lines l).length :=
  List.length_map _

theorem find_none (file : ByteFile w) (hfile : file.bytes = s.toSlice)
    (hall : ∀ content ∈ contents s.toList, ¬ Unterminated content) :
    find file (LineIndex.ofLines s.toSlice) = .ok none := by
  rw [find_eq file hfile, Except.ok.injEq, List.findSome?_eq_none_iff]
  intro k hk
  rw [List.mem_range, ← length_contents] at hk
  exact finding_eq_none (List.getElem?_eq_getElem hk) (hall _ (List.getElem_mem hk))

theorem find_first (file : ByteFile w) (hfile : file.bytes = s.toSlice) {k : Nat}
    {content : List UInt8} (hk : (contents s.toList)[k]? = some content) {f : Finding w}
    (hf : finding s k = some f)
    (hleast : ∀ j < k, ∀ c, (contents s.toList)[j]? = some c → ¬ Unterminated c) :
    find file (LineIndex.ofLines s.toSlice) = .ok (some f) := by
  have hlt := (List.getElem?_eq_some_iff.mp hk).1
  rw [find_eq file hfile, Loops.findSome?_range (by rw [← length_contents]; exact hlt) hf]
  intro j hj
  have hget := List.getElem?_eq_getElem (Nat.lt_trans hj hlt)
  exact finding_eq_none hget (hleast j hj _ hget)

/-- **The first `ENDSEC` without a `;` is found**, whatever the file: its text and its neighbours'
are copied out, and the position resolves to its line, right behind its last byte. -/
theorem find_spec (build : Build w) (search : BinarySearch (Usize w)) (file : ByteFile w)
    (hfile : file.bytes = s.toSlice) :
    ∃ index, file.lineIndex build = .ok index ∧
      ((∀ content ∈ contents s.toList, ¬ Unterminated content) → find file index = .ok none) ∧
      ∀ k content, (contents s.toList)[k]? = some content → Unterminated content →
        (∀ j < k, ∀ c, (contents s.toList)[j]? = some c → ¬ Unterminated c) →
        ∃ f line column, find file index = .ok (some f) ∧ f.offending = fromUtf8Lossy content ∧
          f.before = (if k = 0 then none else (contents s.toList)[k - 1]?.map fromUtf8Lossy) ∧
          f.after = (contents s.toList)[k + 1]?.map fromUtf8Lossy ∧
          index.lineColumn search f.at_ = .ok (some (line, column)) ∧
          line.toNat = k + 1 ∧ column.toNat = content.length + 1 := by
  refine ⟨LineIndex.ofLines s.toSlice, ByteFile.lineIndex_eq build hfile, find_none file hfile,
    fun k content hk hun hleast => ?_⟩
  obtain ⟨f, line, column, hf, hrest⟩ := finding_eq_some hk hun search
  exact ⟨f, line, column, find_first file hfile hk hf hleast, hrest⟩

/-- `A;`, `ENDSEC`, `B`. -/
def threeLines : Snapshot 64 :=
  .ofList 64 [65, 59, 10, 69, 78, 68, 83, 69, 67, 13, 10, 66] (by decide)

theorem threeLines_first : ∀ j < 1, ∀ c, (contents threeLines.toList)[j]? = some c →
    ¬ Unterminated c := by
  intro j hj c hc
  obtain rfl : j = 0 := by omega
  have hzero : (contents threeLines.toList)[0]? = some [65, 59] := by decide
  rw [hzero, Option.some.injEq] at hc
  subst hc
  decide

/-- The second line is found. -/
theorem find_spec_second :
    ∃ index f, (⟨some threeLines.toSlice⟩ : ByteFile 64).lineIndex .fallback = .ok index ∧
      find ⟨some threeLines.toSlice⟩ index = .ok (some f) ∧ f.before = some "A;" ∧
      f.after = some "B" := by
  obtain ⟨index, hindex, -, hfirst⟩ := find_spec (s := threeLines) .fallback BinarySearch.halving
    ⟨some threeLines.toSlice⟩ rfl
  obtain ⟨f, line, column, hf, -, hbefore, hafter, -⟩ :=
    hfirst 1 ENDSEC (by decide) (by decide) threeLines_first
  exact ⟨index, f, hindex, hf, hbefore.trans (by decide), hafter.trans (by decide)⟩

end Find

/-! ## The message -/

/-- `SOURCE`. -/
def SOURCE : String := "sample.ifc"

/-- `" ".repeat(n)`. -/
def spaces (n : Nat) : String := String.ofList (List.replicate n ' ')

/-- `{number:>width$} | {text}`. -/
def numbered (width number : Nat) (text : String) : String :=
  spaces (width - (toString number).length) ++ (toString number ++ (" | " ++ text))

/-- `{gutter} | {}^ expected `;` here`, with `" ".repeat(column - 1)`. -/
def caretLine (width indent : Nat) : String :=
  spaces width ++ (" | " ++ (spaces indent ++ "^ expected `;` here"))

/-- A neighbour's line of the message, if there is a neighbour. -/
def neighbour (width : Nat) (number : Out (Usize w)) : Option String → Out (List String)
  | none => pure []
  | some text => do
    let number ← number
    pure [numbered width number.toNat text]

/-- The message of `main`, from the finding and the line index alone. -/
def render (search : BinarySearch (Usize w)) (index : LineIndex w) (finding : Finding w) :
    Out (List String) := do
  match ← index.lineColumn search finding.at_ with
  | none => pure []
  | some (line, column) => do
    let width := (toString line.toNat).length
    let gutter := spaces width
    let before ← neighbour width (Usize.minus line 1) finding.before
    let indent ← Usize.minus column 1
    let after ← neighbour width (liftM (Usize.plus line 1)) finding.after
    pure (["error: missing `;` at the end of ENDSEC",
        gutter ++ "--> " ++ SOURCE ++ ":" ++ toString line.toNat ++ ":" ++ toString column.toNat,
        gutter ++ " |"] ++
      before ++
      [numbered width line.toNat finding.offending,
        caretLine width indent.toNat] ++
      after ++
      [gutter ++ " |",
        "note: rendered after `drop(file)`; only the position and the index survived"])

/-- What `main` prints, once the file is open. -/
def report (build : Build w) (search : BinarySearch (Usize w)) (file : ByteFile w) :
    Out (List String) := do
  let index ← file.lineIndex build
  match ← find file index with
  | none => pure ["no missing `;` found in " ++ SOURCE]
  | some finding => render search index finding

/-- The column of the first `c` in a line of the message, if there is one. -/
def column (c : Char) (line : String) : Option Nat := line.toList.idxOf? c

theorem column_append_cons {c : Char} {front rest : List Char} (h : c ∉ front) :
    column c (String.ofList (front ++ c :: rest)) = some front.length := by
  unfold column
  rw [String.toList_ofList]
  induction front with
  | nil => simp [List.idxOf?_cons]
  | cons d front ih =>
    have hne : ¬ (d == c) = true := by
      rw [beq_iff_eq]
      rintro rfl
      exact h List.mem_cons_self
    rw [List.cons_append, List.idxOf?_cons, if_neg hne, ih (List.not_mem_of_not_mem_cons h)]
    rfl

theorem not_mem_digits {c : Char} (n : Nat) (h : c.isDigit = false) : c ∉ Decimal.digits n := by
  intro hc
  rw [Decimal.isDigit_of_mem hc] at h
  cases h

theorem toList_numbered (width number : Nat) (text : String) :
    (numbered width number text).toList =
      (List.replicate (width - (Decimal.digits number).length) ' ' ++ Decimal.digits number ++
        [' ']) ++ '|' :: ' ' :: text.toList := by
  unfold numbered spaces
  simp only [String.toList_append, String.toList_ofList, Decimal.toList_toString,
    ← String.length_toList]
  simp

/-- The bar stands behind the number, and never left of the gutter. -/
theorem column_bar_numbered (width number : Nat) (text : String) :
    column '|' (numbered width number text) =
      some (max width (Decimal.digits number).length + 1) := by
  rw [← String.ofList_toList (s := numbered width number text), toList_numbered,
    column_append_cons (by simp [not_mem_digits _ (show '|'.isDigit = false from rfl)])]
  simp only [List.length_append, List.length_replicate, List.length_singleton, Option.some.injEq]
  omega

theorem column_bar_gutter (width : Nat) : column '|' (spaces width ++ " |") = some (width + 1) := by
  have hsplit :
      (spaces width ++ " |").toList = (List.replicate width ' ' ++ [' ']) ++ '|' :: [] := by
    simp [spaces]
  rw [← String.ofList_toList (s := spaces width ++ " |"), hsplit, column_append_cons (by simp)]
  simp

theorem toList_caretLine (width indent : Nat) :
    (caretLine width indent).toList = List.replicate width ' ' ++
      (" | ".toList ++ (List.replicate indent ' ' ++ "^ expected `;` here".toList)) := by
  simp only [caretLine, spaces, String.toList_append, String.toList_ofList]

theorem column_bar_caretLine (width indent : Nat) :
    column '|' (caretLine width indent) = some (width + 1) := by
  have hsplit : (caretLine width indent).toList = (List.replicate width ' ' ++ [' ']) ++
      '|' :: ([' '] ++ (List.replicate indent ' ' ++ "^ expected `;` here".toList)) := by
    rw [toList_caretLine]
    simp
  rw [← String.ofList_toList (s := caretLine width indent), hsplit, column_append_cons (by simp)]
  simp

theorem column_caret_caretLine (width indent : Nat) :
    column '^' (caretLine width indent) = some (width + 3 + indent) := by
  have hsplit : (caretLine width indent).toList =
      (List.replicate width ' ' ++ [' ', '|', ' '] ++ List.replicate indent ' ') ++
        '^' :: " expected `;` here".toList := by
    rw [toList_caretLine]
    simp
  rw [← String.ofList_toList (s := caretLine width indent), hsplit, column_append_cons (by simp)]
  simp only [List.length_append, List.length_replicate, List.length_cons, List.length_nil]

theorem minus_ok {a b c : Usize w} (h : c.toNat + b.toNat = a.toNat) : Usize.minus a b = .ok c := by
  unfold Usize.minus
  rw [Words.checkedSub_eq_some_iff.mpr h]

theorem neighbour_ok (width : Nat) {number : Usize w} {x : Out (Usize w)} {text : Option String}
    (h : text.isSome → x = .ok number) :
    neighbour width x text = .ok (text.toList.map (numbered width number.toNat)) := by
  cases text with
  | none => rfl
  | some text =>
    rw [h rfl]
    rfl

/-- **The message**, for a finding that resolves to the line `k + 1` and the column `n + 1`. -/
theorem render_eq {search : BinarySearch (Usize w)} {index : LineIndex w} {f : Finding w}
    {line column : Usize w} (hlookup : index.lineColumn search f.at_ = .ok (some (line, column)))
    {k n : Nat} (hline : line.toNat = k + 1) (hcolumn : column.toNat = n + 1)
    (hafter : f.after.isSome → k + 2 < 2 ^ w) :
    render search index f = .ok (
      ["error: missing `;` at the end of ENDSEC",
        spaces (toString (k + 1)).length ++ "--> " ++ SOURCE ++ ":" ++ toString (k + 1) ++ ":" ++
          toString (n + 1),
        spaces (toString (k + 1)).length ++ " |"] ++
      f.before.toList.map (numbered (toString (k + 1)).length k) ++
      [numbered (toString (k + 1)).length (k + 1) f.offending,
        caretLine (toString (k + 1)).length n] ++
      f.after.toList.map (numbered (toString (k + 1)).length (k + 2)) ++
      [spaces (toString (k + 1)).length ++ " |",
        "note: rendered after `drop(file)`; only the position and the index survived"]) := by
  have hlt := line.isLt
  have hlt' := column.isLt
  have hone : (1 : Usize w).toNat = 1 :=
    Usize.toNat_literal (Nat.succ_pos k) (by omega : k + 1 < 2 ^ w)
  have hk : (BitVec.ofNat w k).toNat = k := Words.toNat_ofNat_of_lt (by omega)
  have hn : (BitVec.ofNat w n).toNat = n := Words.toNat_ofNat_of_lt (by omega)
  have hminus : Usize.minus line 1 = .ok (BitVec.ofNat w k) := minus_ok (by omega)
  have hindent : Usize.minus column 1 = .ok (BitVec.ofNat w n) := minus_ok (by omega)
  have hplus : f.after.isSome →
      (liftM (Usize.plus line 1) : Out (Usize w)) = .ok (BitVec.ofNat w (k + 2)) := by
    intro hsome
    have hfits := hafter hsome
    rw [Usize.plus_literal (k := 1) (by omega), hline]
    rfl
  have hval : ∀ width, f.after.toList.map (numbered width (BitVec.ofNat w (k + 2)).toNat) =
      f.after.toList.map (numbered width (k + 2)) := by
    intro width
    cases hsome : f.after with
    | none => simp
    | some text =>
      have hfits : k + 2 < 2 ^ w := hafter (by simp [hsome])
      simp only [Words.toNat_ofNat_of_lt hfits]
  unfold render
  simp only [hlookup, hindent, neighbour_ok _ fun _ => hminus, neighbour_ok _ hplus, hline,
    hcolumn, hk, hn, hval, liftM_ok, bind, Except.bind, pure, Except.pure]

theorem length_toString (n : Nat) : (toString n).length = (Decimal.digits n).length := by
  rw [← String.length_toList, Decimal.toList_toString]

theorem numbered_self (number : Nat) (text : String) :
    numbered (toString number).length number text = toString number ++ (" | " ++ text) := by
  unfold numbered spaces
  rw [Nat.sub_self]
  exact String.empty_append

theorem length_statement (number : Nat) (text : String) :
    (toString number ++ (" | " ++ text)).length = (toString number).length + 3 + text.length := by
  rw [String.length_append, String.length_append, ← Nat.add_assoc]
  rfl

theorem column_bar_before {k : Nat} {text : String} :
    column '|' (numbered (toString (k + 1)).length k text) =
      some ((toString (k + 1)).length + 1) := by
  have hmono := Decimal.length_digits_mono (Nat.le_add_right k 1)
  rw [column_bar_numbered, length_toString, Nat.max_eq_left hmono]

/-- The bar behind the statement is, unless the number there has a digit more. -/
theorem column_bar_after {k : Nat} {text : String} :
    column '|' (numbered (toString (k + 1)).length (k + 2) text) =
      some ((toString (k + 1)).length + 1) ↔ ∀ j, k + 2 ≠ 10 ^ j := by
  have hmono : (Decimal.digits (k + 1)).length ≤ (Decimal.digits (k + 2)).length :=
    Decimal.length_digits_mono (Nat.le_add_right (k + 1) 1)
  have hsucc : (Decimal.digits (k + 2)).length = (Decimal.digits (k + 1)).length ↔
      ∀ j, k + 2 ≠ 10 ^ j := Decimal.length_digits_succ (Nat.succ_pos k)
  rw [column_bar_numbered, length_toString, ← hsucc, Option.some.injEq]
  omega

theorem column_caret_statement (number : Nat) (content : List UInt8) :
    ∃ n, column '^' (caretLine (toString number).length content.length) = some n ∧
      n + (fromUtf8Lossy content).length =
        (toString number ++ (" | " ++ fromUtf8Lossy content)).length + content.length := by
  refine ⟨_, column_caret_caretLine _ _, ?_⟩
  rw [length_statement]
  omega

theorem length_before {l : List (List UInt8)} {k : Nat} (hk : k < l.length) :
    (if k = 0 then none else l[k - 1]?.map fromUtf8Lossy).toList.length = min k 1 := by
  by_cases hzero : k = 0
  · simp [hzero]
  · rw [if_neg hzero, List.getElem?_eq_getElem (by omega)]
    simp only [Option.map_some, Option.toList_some, List.length_singleton]
    omega

theorem length_after (l : List (List UInt8)) (k : Nat) :
    (l[k + 1]?.map fromUtf8Lossy).toList.length = min (l.length - (k + 1)) 1 := by
  cases hnext : l[k + 1]? with
  | none =>
    have hge := List.getElem?_eq_none_iff.mp hnext
    simp only [Option.map_none, Option.toList_none, List.length_nil]
    omega
  | some c =>
    have hlt := (List.getElem?_eq_some_iff.mp hnext).1
    simp only [Option.map_some, Option.toList_some, List.length_singleton]
    omega

end Diagnostic

end MmapCursor
