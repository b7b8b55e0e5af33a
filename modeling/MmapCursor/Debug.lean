import MmapCursor.CursorRuns
import MmapCursor.Messages
import MmapCursor.Lib.Escapes

/-!
# What `Debug` prints

Model of the `Debug` of `Cursor`, `LineIndex` and `ByteFile`, which are written by hand so that a
log line does not grow with the file.

* `Cursor.debug_spec` — the text of a reachable cursor: never a panic, never 256 bytes, and no more
  and no less in it than the position and the next 20 bytes, as far as they can be decoded;
* `ByteFile.debug_inj_iff`, `LineIndex.debug_inj_iff` — of the two others it is the numbers alone.
-/

set_option autoImplicit false

namespace MmapCursor

variable {w : Nat}

/-- `Debug` of `str`.  `printable` is the standard library's table of the characters that are
printed as they are. -/
def strDebug (printable : Char → Bool) (text : String) : String :=
  "\x22" ++ (String.ofList (Escapes.escape printable text.toList) ++ "\x22")

theorem strDebug_inj {printable : Char → Bool} {s t : String}
    (h : strDebug printable s = strDebug printable t) : s = t := by
  have hlist := congrArg String.toList h
  simp only [strDebug, String.toList_append, String.toList_ofList, List.append_cancel_left_eq,
    List.append_cancel_right_eq] at hlist
  exact String.toList_injective (Escapes.escape_inj hlist)

theorem size_strDebug_le (printable : Char → Bool) (text : String) :
    Escapes.size (strDebug printable text).toList ≤ 2 + 10 * text.length := by
  have hescape := Escapes.size_escape_le printable text.toList
  have hquote : Escapes.size "\x22".toList = 1 := by decide
  rw [String.length_toList] at hescape
  simp only [strDebug, String.toList_append, String.toList_ofList, Escapes.size_append, hquote]
  omega

theorem size_toString_le {n : Nat} (h : n < 2 ^ 64) : Escapes.size (toString n).toList ≤ 20 := by
  have hascii : ∀ c ∈ Decimal.digits n, c.utf8Size = 1 := by
    intro c hc
    have hdigit := Decimal.isDigit_of_mem hc
    rw [Char.isDigit_iff_toNat] at hdigit
    rw [Char.utf8Size_eq_one_iff, UInt32.le_iff_toNat_le]
    exact Nat.le_trans hdigit.2 (by decide)
  rw [Decimal.toList_toString, Escapes.size_of_ascii hascii]
  exact (Decimal.length_digits_le_iff (by decide)).mpr (by omega)

namespace Cursor

/-- `Debug` of `Cursor`. -/
def debug (printable : Char → Bool) (c : Cursor w) : Res String :=
  if c.isEof then .ok ("Cursor(pos=" ++ (c.pos.display ++ ", EOF)"))
  else do
    let tail ← c.source.rangeFrom c.pos.toUsize
    let snippet := fromUtf8Lossy (tail.take (min 20 tail.length))
    .ok ("Cursor(pos=" ++ (c.pos.display ++ (", next=" ++ (strDebug printable snippet ++ ")"))))

/-- What follows the position: the next bytes, or that there are none. -/
def debugNext (printable : Char → Bool) (next : List UInt8) : String :=
  if next = [] then ", EOF)"
  else ", next=" ++ (strDebug printable (fromUtf8Lossy next) ++ ")")

theorem debug_eq (printable : Char → Bool) {c : Cursor w} (h : c.Inv) :
    c.debug printable = .ok ("Cursor(pos=" ++
      (toString c.pos.toNat ++ debugNext printable (c.unread.take 20))) := by
  unfold debug debugNext
  by_cases hnil : c.unread = []
  · rw [if_pos ((isEof_iff h).mpr hnil), hnil]
    rfl
  · have htake : c.unread.take 20 ≠ [] := by simpa using hnil
    have hmin : c.unread.take (min 20 c.unread.length) = c.unread.take 20 := by
      rw [List.take_eq_take_iff]
      omega
    have htail : c.source.rangeFrom c.pos.toUsize = .ok c.unread :=
      Slice.rangeFrom_eq h.pos_le_length
    rw [if_neg fun heof => hnil ((isEof_iff h).mp heof), if_neg htake]
    simp only [htail, hmin, bind, Except.bind]
    rfl

theorem head?_debugNext (printable : Char → Bool) (next : List UInt8) {c : Char}
    (h : (debugNext printable next).toList.head? = some c) : ¬ c.isDigit := by
  have hcomma : (debugNext printable next).toList.head? = some ',' := by
    unfold debugNext
    split <;> simp
  rw [hcomma, Option.some.injEq] at h
  subst h
  decide

theorem debugNext_inj {printable : Char → Bool} {s t : List UInt8} :
    debugNext printable s = debugNext printable t ↔ fromUtf8Lossy s = fromUtf8Lossy t := by
  constructor
  · intro h
    have hlist := congrArg String.toList h
    unfold debugNext at hlist
    by_cases hs : s = [] <;> by_cases ht : t = []
    · rw [hs, ht]
    · simp [hs, ht] at hlist
    · simp [hs, ht] at hlist
    · simp only [if_neg hs, if_neg ht, String.toList_append, List.append_cancel_left_eq,
        List.append_cancel_right_eq] at hlist
      exact strDebug_inj (String.toList_injective hlist)
  · intro h
    have hnil : s = [] ↔ t = [] := by
      rw [← fromUtf8Lossy_eq_empty_iff, h, fromUtf8Lossy_eq_empty_iff]
    unfold debugNext
    rw [h, if_congr hnil rfl rfl]

theorem size_debugNext_le (printable : Char → Bool) {next : List UInt8} (h : next.length ≤ 20) :
    Escapes.size (debugNext printable next).toList ≤ 210 := by
  have hlossy := Lossy.length_decode_le next
  have hdebug := size_strDebug_le printable (fromUtf8Lossy next)
  have hnext : Escapes.size ", next=".toList = 7 := by decide
  have hclose : Escapes.size ")".toList = 1 := by decide
  have heof : Escapes.size ", EOF)".toList = 6 := by decide
  rw [length_fromUtf8Lossy] at hdebug
  unfold debugNext
  split
  · omega
  · simp only [String.toList_append, Escapes.size_append, hnext, hclose]
    omega

/-- **A log line, whatever the file**: `Debug` of a reachable cursor does not panic and prints less
than 256 bytes, which say where the cursor is and what the next 20 bytes look like, and nothing else
about the file. -/
theorem debug_spec (hw : w ≤ 64) (printable : Char → Bool) {s s' : Slice w} {c c' : Cursor w}
    (hc : Reachable s c) (hc' : Reachable s' c') :
    ∃ text text', c.debug printable = .ok text ∧ c'.debug printable = .ok text' ∧
      text.utf8ByteSize < 256 ∧
      (text = text' ↔ c.pos = c'.pos ∧
        fromUtf8Lossy ((s.toList.drop c.pos.toNat).take 20) =
          fromUtf8Lossy ((s'.toList.drop c'.pos.toNat).take 20)) := by
  obtain ⟨h, rfl⟩ := hc.inv
  obtain ⟨h', rfl⟩ := hc'.inv
  refine ⟨_, _, debug_eq printable h, debug_eq printable h', ?_, ?_⟩
  · have hpos : c.pos.toNat < 2 ^ 64 :=
      Nat.lt_of_lt_of_le c.pos.toNat_lt (Nat.pow_le_pow_right (by decide) hw)
    have hdigits := size_toString_le hpos
    have hnext := size_debugNext_le printable (List.length_take_le 20 c.unread)
    have hopen : Escapes.size "Cursor(pos=".toList = 11 := by decide
    rw [Escapes.utf8ByteSize_eq]
    simp only [String.toList_append, Escapes.size_append, hopen]
    omega
  · constructor
    · intro htext
      obtain ⟨hpos, hnext⟩ := Decimal.split_text (fun _ => head?_debugNext printable _)
        (fun _ => head?_debugNext printable _) htext
      exact ⟨BytePos.ext_toNat hpos, debugNext_inj.mp hnext⟩
    · rintro ⟨hpos, hnext⟩
      show _ ++ (_ ++ debugNext printable ((c.source.toList.drop c.pos.toNat).take 20)) = _
      rw [debugNext_inj.mpr hnext, hpos]
      rfl

/-- Two files that differ behind the next 20 bytes. -/
theorem debug_spec_same :
    ∃ text, (new ⟨List.replicate 25 97, by decide⟩ : Cursor 64).debug (fun _ => true) = .ok text ∧
      (new ⟨List.replicate 20 97 ++ [98], by decide⟩ : Cursor 64).debug (fun _ => true) =
        .ok text ∧
      text.utf8ByteSize < 256 := by
  have hc : Reachable (⟨List.replicate 25 97, by decide⟩ : Slice 64) (new _) := ⟨[], _, rfl⟩
  have hc' : Reachable (⟨List.replicate 20 97 ++ [98], by decide⟩ : Slice 64) (new _) :=
    ⟨[], _, rfl⟩
  obtain ⟨text, text', htext, htext', hsize, hiff⟩ :=
    debug_spec (Nat.le_refl 64) (fun _ => true) hc hc'
  obtain rfl := hiff.mpr ⟨rfl, rfl⟩
  exact ⟨text, htext, htext', hsize⟩

end Cursor

/-! ## The other views -/

/-- `Debug` of `ByteFile`. -/
def ByteFile.debug (file : ByteFile w) : String :=
  "ByteFile \x7b len: " ++ (toString file.len.toNat ++ " \x7d")

/-- `Debug` of `LineIndex`. -/
def LineIndex.debug (index : LineIndex w) : String :=
  "LineIndex \x7b num_lines: " ++ (toString index.numLines.toNat ++
    (", len: " ++ (toString index.len.toNat ++ " \x7d")))

/-- The length, and never the content. -/
theorem ByteFile.debug_inj_iff {file file' : ByteFile w} :
    file.debug = file'.debug ↔ file.len = file'.len := by
  constructor
  · intro h
    obtain ⟨hlen, -⟩ := Decimal.split_text (by simp) (by simp) h
    exact Words.eq_of_toNat hlen
  · intro h
    rw [ByteFile.debug, ByteFile.debug, h]

/-- The number of lines and the length, and never where the lines start. -/
theorem LineIndex.debug_inj_iff {index index' : LineIndex w} :
    index.debug = index'.debug ↔ index.numLines = index'.numLines ∧ index.len = index'.len := by
  refine ⟨fun h => ?_, fun h => ?_⟩
  · obtain ⟨hlines, hrest⟩ := Decimal.split_text (by simp) (by simp) h
    obtain ⟨hlen, -⟩ := Decimal.split_text (by simp) (by simp) hrest
    exact ⟨Words.eq_of_toNat hlines, Words.eq_of_toNat hlen⟩
  · obtain ⟨hlines, hlen⟩ := h
    unfold LineIndex.debug
    rw [hlines, hlen]

end MmapCursor
