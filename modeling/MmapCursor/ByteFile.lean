import MmapCursor.Cursor
import MmapCursor.Lookup
import MmapCursor.Lib.Calls
import Mathlib.Order.Bounds.Basic

/-!
# Opening a file

Model of `bytefile.rs`.  The operating system and `memmap2` are not the crate's own: `Os` holds the
three calls that `ByteFile::open` makes, on a world of which nothing is known, with the one thing
the crate relies on (`length_map`: a successful `map` with `len(n)` yields `n` bytes).  `ε` is
`io::Error`.

* `views_length` — `len`, `bytes`, `cursor` and `line_index` agree on the length of a snapshot;
* `open_outcomes` — what `open` returns, for every combination of outcomes of the three calls, and
  the world it leaves: a call that is not made changes nothing;
* `open_ofFiles` — over files that do not change, a snapshot holds the content of its file.
-/

set_option autoImplicit false

namespace MmapCursor

open Calls

variable {w : Nat} {σ ε Path File : Type}

/-- `Error`. -/
inductive Error (w : Nat) (ε : Type) where
  | io (error : ε)
  | fileTooLarge (len : U64)
  | reversedRange (start end_ : BytePos w)
  deriving DecidableEq, Repr

/-- `From<io::Error> for Error`. -/
def Error.fromIo (error : ε) : Error w ε := .io error

/-- `std::fs::Metadata`, of which the length is read. -/
structure Metadata where
  len : U64
  deriving DecidableEq, Repr

/-- The calls of `ByteFile::open` on its surroundings. -/
structure Os (w : Nat) (σ ε Path File : Type) where
  /-- `File::open`. -/
  openFile : Path → Call σ ε File
  /-- `File::metadata`. -/
  metadata : File → Call σ ε Metadata
  /-- `MmapOptions::new().len(len).map(&file)`, as the bytes of the mapping. -/
  map : File → Usize w → Call σ ε (Slice w)
  length_map : ∀ {file : File} {len : Usize w} {m : Slice w} {s s' : σ},
    outcome (map file len) s = (.ok m, s') → m.toList.length = len.toNat

/-- The calls on files whose content does not change.  A file shorter than the mapping asked for is
not mapped. -/
def Os.ofFiles (missing short : ε) (files : Path → Option (List UInt8)) :
    Os w σ ε Path (List UInt8) where
  openFile path :=
    match files path with
    | some content => pure content
    | none => throw missing
  metadata content := pure { len := BitVec.ofNat 64 content.length }
  map content len :=
    if h : len.toNat ≤ content.length then
      pure ⟨content.take len.toNat, by rw [List.length_take_of_le h]; exact len.isLt⟩
    else throw short
  length_map := by
    intro content len m s s' h
    split at h
    · rename_i hle
      cases h
      exact List.length_take_of_le hle
    · cases h

theorem Os.ofFiles_map (missing short : ε) (files : Path → Option (List UInt8))
    (content : List UInt8) {len : Usize w} (h : len.toNat ≤ content.length) (s : σ) :
    ∃ m, outcome ((Os.ofFiles missing short files).map content len) s = (.ok m, s) ∧
      m.toList = content.take len.toNat := by
  unfold Os.ofFiles
  simp only [dif_pos h]
  exact ⟨_, rfl, rfl⟩

/-- `ByteFile`. -/
structure ByteFile (w : Nat) where
  mmap : Option (Slice w)
  deriving DecidableEq, Repr

namespace ByteFile

/-- `?` on an `io::Result`. -/
def tryIo {α : Type} (x : Call σ ε α) : Call σ (Error w ε) α := ExceptT.adapt Error.fromIo x

/-- `ByteFile::open`. -/
def open_ (os : Os w σ ε Path File) (path : Path) : Call σ (Error w ε) (ByteFile w) := do
  let file ← tryIo (os.openFile path)
  let metadata ← tryIo (os.metadata file)
  let fileLen := metadata.len
  let len ←
    match Usize.tryFrom fileLen with
    | some len => pure len
    | none => throw (.fileTooLarge fileLen)
  let mmap ←
    if len = 0 then pure none
    else do
      let m ← tryIo (os.map file len)
      pure (some m)
  pure { mmap := mmap }

/-- `ByteFile::bytes`. -/
def bytes (f : ByteFile w) : Slice w := f.mmap.getD Slice.EMPTY

/-- `ByteFile::len`. -/
def len (f : ByteFile w) : Usize w := f.bytes.len

/-- `ByteFile::is_empty`. -/
def isEmpty (f : ByteFile w) : Bool := decide (f.len = 0)

/-- `ByteFile::cursor`. -/
def cursor (f : ByteFile w) : Cursor w := Cursor.new f.bytes

/-- `ByteFile::line_index`. -/
def lineIndex (build : Build w) (f : ByteFile w) : Res (LineIndex w) := LineIndex.new build f.bytes

/-! ## The length of a snapshot -/

theorem views_length (build : Build w) (search : BinarySearch (Usize w)) (f : ByteFile w) :
    f.len.toNat = f.bytes.toList.length ∧ f.cursor.eof.toNat = f.bytes.toList.length ∧
      ∃ idx, f.lineIndex build = .ok idx ∧ ∀ offset : BytePos w,
        (idx.lineForOffset search offset).isSome ↔ offset.toNat ≤ f.bytes.toList.length := by
  refine ⟨Slice.toNat_len f.bytes, Slice.toNat_len f.bytes, _, LineIndex.new_eq build f.bytes,
    fun offset => ?_⟩
  rw [LineIndex.lineForOffset_isSome_iff, ← Slice.toNat_len]
  exact Iff.rfl

theorem lineIndex_eq (build : Build w) {f : ByteFile w} {s : Snapshot w}
    (hf : f.bytes = s.toSlice) : f.lineIndex build = .ok (LineIndex.ofLines s.toSlice) := by
  unfold lineIndex
  rw [hf, LineIndex.new_eq]

theorem isEmpty_iff (f : ByteFile w) : f.isEmpty = true ↔ f.bytes.toList = [] := by
  have hlen : f.len.toNat = f.bytes.toList.length := Slice.toNat_len f.bytes
  unfold isEmpty
  rw [decide_eq_true_eq, BitVec.toNat_eq, Usize.toNat_zero, hlen]
  exact List.length_eq_zero_iff

/-! ## The outcomes of `open` -/

theorem tryIo_ok {α : Type} {x : Call σ ε α} {s s' : σ} {a : α} (h : outcome x s = (.ok a, s')) :
    outcome (tryIo x : Call σ (Error w ε) α) s = (.ok a, s') := outcome_adapt_ok _ h

theorem tryIo_error {α : Type} {x : Call σ ε α} {s s' : σ} {e : ε}
    (h : outcome x s = (.error e, s')) :
    outcome (tryIo x : Call σ (Error w ε) α) s = (.error (.io e), s') := outcome_adapt_error _ h

section Outcomes

variable {os : Os w σ ε Path File} {path : Path} {file : File} {metadata : Metadata}
  {s s₁ s₂ : σ}

theorem open_openFile_error {e : ε} (h : outcome (os.openFile path) s = (.error e, s₁)) :
    outcome (open_ os path) s = (.error (.io e), s₁) :=
  outcome_bind_error (tryIo_error h) _

theorem open_metadata_error {e : ε} (hfile : outcome (os.openFile path) s = (.ok file, s₁))
    (h : outcome (os.metadata file) s₁ = (.error e, s₂)) :
    outcome (open_ os path) s = (.error (.io e), s₂) := by
  unfold open_
  rw [outcome_bind_ok (tryIo_ok hfile)]
  exact outcome_bind_error (tryIo_error h) _

/-- **What follows a reported length**: the check, the shortcut for an empty file, and the map. -/
theorem open_metadata (hfile : outcome (os.openFile path) s = (.ok file, s₁))
    (hmetadata : outcome (os.metadata file) s₁ = (.ok metadata, s₂)) :
    outcome (open_ os path) s =
      match Usize.tryFrom metadata.len with
      | none => (.error (.fileTooLarge metadata.len), s₂)
      | some len =>
        if len = 0 then (.ok { mmap := none }, s₂)
        else
          match outcome (os.map file len) s₂ with
          | (.ok m, s₃) => (.ok { mmap := some m }, s₃)
          | (.error e, s₃) => (.error (.io e), s₃) := by
  unfold open_
  rw [outcome_bind_ok (tryIo_ok hfile), outcome_bind_ok (tryIo_ok hmetadata)]
  cases hlen : Usize.tryFrom metadata.len with
  | none =>
    simp only [hlen]
    rfl
  | some len =>
    simp only [hlen, pure_bind]
    by_cases hzero : len = 0
    · rw [if_pos hzero, if_pos hzero, outcome_pure]
    · rw [if_neg hzero, if_neg hzero]
      rcases hmap : outcome (os.map file len) s₂ with ⟨r, s₃⟩
      cases r with
      | ok m => exact outcome_bind_ok (tryIo_ok hmap) _
      | error e => exact outcome_bind_error (tryIo_error hmap) _

theorem open_tooLarge (hfile : outcome (os.openFile path) s = (.ok file, s₁))
    (hmetadata : outcome (os.metadata file) s₁ = (.ok metadata, s₂))
    (h : 2 ^ w ≤ metadata.len.toNat) :
    outcome (open_ os path) s = (.error (.fileTooLarge metadata.len), s₂) := by
  have hlen : Usize.tryFrom (w := w) metadata.len = none := Words.narrow_eq_none_iff.mpr h
  rw [open_metadata hfile hmetadata, hlen]

theorem open_empty (hfile : outcome (os.openFile path) s = (.ok file, s₁))
    (hmetadata : outcome (os.metadata file) s₁ = (.ok metadata, s₂))
    (h : metadata.len.toNat = 0) :
    outcome (open_ os path) s = (.ok { mmap := none }, s₂) := by
  have hlen : Usize.tryFrom metadata.len = some (0 : Usize w) :=
    Words.narrow_eq_some_iff.mpr (by rw [h, Usize.toNat_zero])
  rw [open_metadata hfile hmetadata, hlen]
  rfl

theorem open_map (hfile : outcome (os.openFile path) s = (.ok file, s₁))
    (hmetadata : outcome (os.metadata file) s₁ = (.ok metadata, s₂))
    {len : Usize w} (hlen : len.toNat = metadata.len.toNat) (h : 0 < metadata.len.toNat) :
    outcome (open_ os path) s =
      match outcome (os.map file len) s₂ with
      | (.ok m, s₃) => (.ok { mmap := some m }, s₃)
      | (.error e, s₃) => (.error (.io e), s₃) := by
  have hsome : Usize.tryFrom metadata.len = some len := Words.narrow_eq_some_iff.mpr hlen
  have hzero : len ≠ 0 := by
    rintro rfl
    rw [Usize.toNat_zero] at hlen
    omega
  rw [open_metadata hfile hmetadata, hsome]
  exact if_neg hzero

theorem length_bytes_of_open {f : ByteFile w} {s₃ : σ}
    (hfile : outcome (os.openFile path) s = (.ok file, s₁))
    (hmetadata : outcome (os.metadata file) s₁ = (.ok metadata, s₂))
    (h : outcome (open_ os path) s = (.ok f, s₃)) :
    f.bytes.toList.length = metadata.len.toNat := by
  rcases Nat.lt_or_ge metadata.len.toNat (2 ^ w) with hlt | hge
  · rcases Nat.eq_zero_or_pos metadata.len.toNat with hzero | hpos
    · rw [open_empty hfile hmetadata hzero] at h
      cases h
      exact hzero.symm
    · have hlen := Words.toNat_ofNat_of_lt hlt
      rw [open_map hfile hmetadata hlen hpos] at h
      rcases hmap : outcome (os.map file _) s₂ with ⟨r, s₄⟩
      rw [hmap] at h
      cases r with
      | ok m =>
        cases h
        exact (os.length_map hmap).trans hlen
      | error e => cases h
  · rw [open_tooLarge hfile hmetadata hge] at h
    cases h

end Outcomes

/-- **What `open` returns**, for every combination of outcomes of the three calls, and the length of
the snapshot. -/
theorem open_outcomes (os : Os w σ ε Path File) (path : Path) (build : Build w)
    (search : BinarySearch (Usize w)) (s : σ) :
    (∀ e s₁, outcome (os.openFile path) s = (.error e, s₁) →
      outcome (open_ os path) s = (.error (.io e), s₁)) ∧
    ∀ file s₁, outcome (os.openFile path) s = (.ok file, s₁) →
      (∀ e s₂, outcome (os.metadata file) s₁ = (.error e, s₂) →
        outcome (open_ os path) s = (.error (.io e), s₂)) ∧
      ∀ metadata s₂, outcome (os.metadata file) s₁ = (.ok metadata, s₂) →
        -- the world is left as `metadata` left it: there is no call of `map`
        (2 ^ w ≤ metadata.len.toNat →
          outcome (open_ os path) s = (.error (.fileTooLarge metadata.len), s₂)) ∧
        (metadata.len.toNat = 0 → outcome (open_ os path) s = (.ok { mmap := none }, s₂)) ∧
        (0 < metadata.len.toNat → metadata.len.toNat < 2 ^ w → ∃ len : Usize w,
          len.toNat = metadata.len.toNat ∧
          (∀ e s₃, outcome (os.map file len) s₂ = (.error e, s₃) →
            outcome (open_ os path) s = (.error (.io e), s₃)) ∧
          ∀ m s₃, outcome (os.map file len) s₂ = (.ok m, s₃) →
            outcome (open_ os path) s = (.ok { mmap := some m }, s₃)) ∧
        ∀ f s₃, outcome (open_ os path) s = (.ok f, s₃) →
          f.len.toNat = metadata.len.toNat ∧ f.bytes.len.toNat = metadata.len.toNat ∧
          f.cursor.eof.toNat = metadata.len.toNat ∧ ∃ idx, f.lineIndex build = .ok idx ∧
            IsGreatest {n | ∃ offset : BytePos w, offset.toNat = n ∧
              (idx.lineForOffset search offset).isSome} metadata.len.toNat := by
  refine ⟨fun e s₁ => open_openFile_error, fun file s₁ hfile =>
    ⟨fun e s₂ => open_metadata_error hfile, fun metadata s₂ hmetadata =>
      ⟨open_tooLarge hfile hmetadata, open_empty hfile hmetadata, fun hpos hlt => ?_,
        fun f s₃ hf => ?_⟩⟩⟩
  · have hlen := Words.toNat_ofNat_of_lt hlt
    have hopen := open_map hfile hmetadata hlen hpos
    refine ⟨_, hlen, fun e s₃ hmap => ?_, fun m s₃ hmap => ?_⟩
    · rw [hopen, hmap]
    · rw [hopen, hmap]
  · have hlength := length_bytes_of_open hfile hmetadata hf
    obtain ⟨hlen, heof, idx, hidx, hsome⟩ := views_length build search f
    rw [hlength] at hlen heof hsome
    refine ⟨hlen, hlen, heof, idx, hidx, ⟨f.cursor.eof, heof, ?_⟩, ?_⟩
    · exact (hsome f.cursor.eof).mpr (Nat.le_of_eq heof)
    · rintro n ⟨offset, rfl, hoffset⟩
      exact (hsome offset).mp hoffset

/-- A file of three bytes on a 64-bit target. -/
theorem open_outcomes_abc : ∃ f : ByteFile 64,
    outcome (open_ (Os.ofFiles () () fun _ : Unit => some [97, 98, 99]) ()) () = (.ok f, ()) ∧
      f.len.toNat = 3 := by
  obtain ⟨-, hopened⟩ := open_outcomes (w := 64)
    (Os.ofFiles () () fun _ : Unit => some [97, 98, 99]) () .fallback BinarySearch.halving ()
  obtain ⟨-, hreported⟩ := hopened [97, 98, 99] () rfl
  obtain ⟨-, -, hmapped, hlength⟩ := hreported ⟨3⟩ () rfl
  obtain ⟨len, hval, -, hok⟩ := hmapped (by decide) (by decide)
  obtain ⟨m, hmap, -⟩ := Os.ofFiles_map () () (fun _ : Unit => some [97, 98, 99]) [97, 98, 99]
    (Nat.le_of_eq hval) ()
  have hopen := hok m () hmap
  exact ⟨_, hopen, (hlength _ () hopen).1⟩

/-- A file of 4 GiB on a 32-bit target, whatever else the calls do. -/
example (map : Unit → Usize 32 → Call Unit Unit (Slice 32))
    (h : ∀ {file len m s s'}, outcome (map file len) s = (.ok m, s') →
      m.toList.length = len.toNat) :
    outcome (open_ ⟨fun _ : Unit => pure (), fun _ => pure ⟨4294967296⟩, map, h⟩ ()) () =
      (.error (.fileTooLarge 4294967296), ()) := rfl

/-- **A snapshot holds the content of its file**, and opening it changes nothing. -/
theorem open_ofFiles {missing short : ε} {files : Path → Option (List UInt8)}
    {path : Path} {content : List UInt8} (hfile : files path = some content)
    (h64 : content.length < 2 ^ 64) (hw : content.length < 2 ^ w) (s : σ) :
    ∃ f : ByteFile w, outcome (open_ (Os.ofFiles missing short files) path) s = (.ok f, s) ∧
      f.bytes.toList = content := by
  have hopen : outcome ((Os.ofFiles missing short files : Os w σ ε Path _).openFile path) s =
      (.ok content, s) := by
    unfold Os.ofFiles
    simp only [hfile]
    rfl
  have hmetadata : outcome ((Os.ofFiles missing short files : Os w σ ε Path _).metadata content) s =
      (.ok ⟨BitVec.ofNat 64 content.length⟩, s) := rfl
  have hval := Words.toNat_ofNat_of_lt h64
  rcases Nat.eq_zero_or_pos content.length with hzero | hpos
  · refine ⟨{ mmap := none }, open_empty hopen hmetadata (hval.trans hzero), ?_⟩
    exact (List.length_eq_zero_iff.mp hzero).symm
  · have hlen := Words.toNat_ofNat_of_lt hw
    rw [open_map hopen hmetadata (hlen.trans hval.symm) (by rw [hval]; exact hpos)]
    obtain ⟨m, hmap, hm⟩ := Os.ofFiles_map missing short files content (Nat.le_of_eq hlen) s
    refine ⟨{ mmap := some m }, by rw [hmap], ?_⟩
    show m.toList = content
    rw [hm, hlen, List.take_length]

end ByteFile

end MmapCursor
