import MmapCursor.Arithmetic
import MmapCursor.Lib.Decimal
import MmapCursor.Lib.Lossy

/-!
# Messages

The rest of `error.rs`: `Display`, `source` and `into_io` of the crate's error, and how the other
types are printed.  `io::Error` is not the crate's own; `IoErrors` is what is used of it.

* `into_io_spec` — an `io::Error` that was wrapped comes back unchanged; of the crate's own variants
  the message is kept, and it tells them apart;
* `open_into_io` — what a caller whose own API is `io::Result` gets from a failed `open`.
-/

set_option autoImplicit false

namespace MmapCursor

open Calls

variable {w : Nat} {σ ε Kind Path File : Type}

/-- `String::from_utf8_lossy`. -/
def fromUtf8Lossy (bytes : List UInt8) : String := String.ofList (Lossy.decode bytes)

theorem length_fromUtf8Lossy (bytes : List UInt8) :
    (fromUtf8Lossy bytes).length = (Lossy.decode bytes).length := String.length_ofList

theorem fromUtf8Lossy_eq_empty_iff {bytes : List UInt8} :
    fromUtf8Lossy bytes = "" ↔ bytes = [] := by
  rw [← Lossy.decode_eq_nil_iff]
  constructor
  · intro h
    have hlist := congrArg String.toList h
    rwa [fromUtf8Lossy, String.toList_ofList] at hlist
  · intro h
    rw [fromUtf8Lossy, h]

/-- `io::Error`, with its `ErrorKind`. -/
structure IoErrors (ε Kind : Type) where
  /-- `io::Error::new`, from a `String`. -/
  new : Kind → String → ε
  kind : ε → Kind
  display : ε → String
  /-- `ErrorKind::InvalidInput`. -/
  invalidInput : Kind
  kind_new : ∀ (k : Kind) (text : String), kind (new k text) = k
  display_new : ∀ (k : Kind) (text : String), display (new k text) = text

/-- The errors that `io::Error::new` makes. -/
def IoErrors.custom (invalidInput : Kind) : IoErrors (Kind × String) Kind where
  new kind text := (kind, text)
  kind := Prod.fst
  display := Prod.snd
  invalidInput := invalidInput
  kind_new _ _ := rfl
  display_new _ _ := rfl

/-- `Display` and `Debug` of `BytePos`. -/
def BytePos.display (p : BytePos w) : String := toString p.toNat

/-- `Debug` of `ByteRange`. -/
def ByteRange.debug (r : ByteRange w) : String := r.start.display ++ (".." ++ r.end_.display)

theorem ByteRange.debug_inj {r r' : ByteRange w} (h : r.debug = r'.debug) : r = r' := by
  obtain ⟨start, end_, _⟩ := r
  obtain ⟨start', end', _⟩ := r'
  have h' : "" ++ (toString start.toNat ++ (".." ++ end_.display)) =
      "" ++ (toString start'.toNat ++ (".." ++ end'.display)) := congrArg ("" ++ ·) h
  obtain ⟨hstart, htail⟩ := Decimal.split_text (by simp) (by simp) h'
  obtain rfl := BytePos.ext_toNat hstart
  have hend := congrArg String.toList htail
  simp only [String.toList_append, List.append_cancel_left_eq] at hend
  obtain rfl := BytePos.ext_toNat (Decimal.toString_inj (String.toList_injective hend))
  rfl

namespace Error

/-- `impl Display for Error`. -/
def display (io : IoErrors ε Kind) : Error w ε → String
  | .io error => io.display error
  | .fileTooLarge len =>
    "file of " ++ (toString len.toNat ++
      (" bytes is too large to address on this platform (usize holds at most " ++
        (toString (Usize.MAX : Usize w).toNat ++ " bytes)")))
  | .reversedRange start end_ =>
    "byte range start " ++ (start.display ++ (" is greater than end " ++ end_.display))

/-- `Error::source`. -/
def source : Error w ε → Option ε
  | .io error => some error
  | .fileTooLarge _ | .reversedRange _ _ => none

/-- `Error::into_io`. -/
def intoIo (io : IoErrors ε Kind) : Error w ε → ε
  | .io error => error
  | other => io.new io.invalidInput (display io other)

variable {io : IoErrors ε Kind}

theorem intoIo_of_source {e : Error w ε} {error : ε} (h : e.source = some error) :
    e.intoIo io = error := by
  cases e with
  | io error' => exact Option.some.inj h
  | fileTooLarge len => cases h
  | reversedRange start end_ => cases h

theorem intoIo_of_source_none {e : Error w ε} (h : e.source = none) :
    e.intoIo io = io.new io.invalidInput (e.display io) := by
  cases e with
  | io error => cases h
  | fileTooLarge len => rfl
  | reversedRange start end_ => rfl

theorem display_fileTooLarge (io : IoErrors ε Kind) (len : U64) :
    (fileTooLarge len : Error w ε).display io = "file of " ++ (toString len.toNat ++
      (" bytes is too large to address on this platform (usize holds at most " ++
        (toString (Usize.MAX : Usize w).toNat ++ " bytes)"))) := rfl

theorem head?_ne (text text' : String) :
    ("file of " ++ text).toList.head? ≠ ("byte range start " ++ text').toList.head? := by
  simp

/-- **The message tells the crate's own errors apart.** -/
theorem display_inj {e e' : Error w ε} (he : e.source = none) (he' : e'.source = none)
    (h : e.display io = e'.display io) : e = e' := by
  cases e with
  | io error => cases he
  | fileTooLarge len =>
    cases e' with
    | io error => cases he'
    | fileTooLarge len' =>
      obtain ⟨hlen, -⟩ := Decimal.split_text (by simp) (by simp) h
      rw [Words.eq_of_toNat hlen]
    | reversedRange start end_ =>
      have hhead := congrArg (fun text : String => text.toList.head?) h
      exact absurd hhead (head?_ne _ _)
  | reversedRange start end_ =>
    cases e' with
    | io error => cases he'
    | fileTooLarge len =>
      have hhead := congrArg (fun text : String => text.toList.head?) h
      exact absurd hhead.symm (head?_ne _ _)
    | reversedRange start' end' =>
      obtain ⟨hstart, hend⟩ := Decimal.split_text (by simp) (by simp) h
      have hend' := congrArg String.toList hend
      simp only [String.toList_append, List.append_cancel_left_eq] at hend'
      rw [BytePos.ext_toNat hstart,
        BytePos.ext_toNat (Decimal.toString_inj (String.toList_injective hend'))]

/-- **What `into_io` keeps**: an error with a source is that source again; any other one becomes
`InvalidInput` with its message, which no other one has. -/
theorem into_io_spec (io : IoErrors ε Kind) (e : Error w ε) :
    (∀ error, e.source = some error → e.intoIo io = error) ∧
    (e.source = none → io.kind (e.intoIo io) = io.invalidInput ∧
      io.display (e.intoIo io) = e.display io ∧
      ∀ e' : Error w ε, e'.source = none → e'.display io = e.display io → e' = e) := by
  refine ⟨fun error => intoIo_of_source, fun hown => ?_⟩
  rw [intoIo_of_source_none hown, io.kind_new, io.display_new]
  exact ⟨rfl, rfl, fun e' hown' => display_inj hown' hown⟩

end Error

/-! ## Opening, for a caller whose own API is `io::Result` -/

/-- The `io::Error` of that call of `ByteFile::open` which failed, and the world it left. -/
inductive FailedCall (os : Os w σ ε Path File) (path : Path) (s : σ) : ε → σ → Prop
  | openFile {error : ε} {s' : σ} (h : outcome (os.openFile path) s = (.error error, s')) :
    FailedCall os path s error s'
  | metadata {file : File} {s₁ : σ} (hfile : outcome (os.openFile path) s = (.ok file, s₁))
      {error : ε} {s' : σ} (h : outcome (os.metadata file) s₁ = (.error error, s')) :
    FailedCall os path s error s'
  | map {file : File} {s₁ : σ} (hfile : outcome (os.openFile path) s = (.ok file, s₁))
      {metadata : Metadata} {s₂ : σ}
      (hmetadata : outcome (os.metadata file) s₁ = (.ok metadata, s₂))
      {len : Usize w} (hlen : len.toNat = metadata.len.toNat)
      {error : ε} {s' : σ} (h : outcome (os.map file len) s₂ = (.error error, s')) :
    FailedCall os path s error s'

section Open

variable {os : Os w σ ε Path File} {path : Path} {s s' : σ} {e : Error w ε}

/-- **Why `open` failed**: one of its calls did, or the file is too large. -/
theorem open_failed (h : outcome (ByteFile.open_ os path) s = (.error e, s')) :
    (∃ error, e = .io error ∧ FailedCall os path s error s') ∨
      ∃ file s₁ metadata, outcome (os.openFile path) s = (.ok file, s₁) ∧
        outcome (os.metadata file) s₁ = (.ok metadata, s') ∧ 2 ^ w ≤ metadata.len.toNat ∧
        e = .fileTooLarge metadata.len := by
  rcases hfile : outcome (os.openFile path) s with ⟨error | file, s₁⟩
  · rw [ByteFile.open_openFile_error hfile] at h
    cases h
    exact Or.inl ⟨error, rfl, .openFile hfile⟩
  rcases hmetadata : outcome (os.metadata file) s₁ with ⟨error | metadata, s₂⟩
  · rw [ByteFile.open_metadata_error hfile hmetadata] at h
    cases h
    exact Or.inl ⟨error, rfl, .metadata hfile hmetadata⟩
  rcases Nat.lt_or_ge metadata.len.toNat (2 ^ w) with hlt | hge
  · rcases Nat.eq_zero_or_pos metadata.len.toNat with hzero | hpos
    · rw [ByteFile.open_empty hfile hmetadata hzero] at h
      cases h
    · have hlen := Words.toNat_ofNat_of_lt hlt
      rw [ByteFile.open_map hfile hmetadata hlen hpos] at h
      rcases hmap : outcome (os.map file _) s₂ with ⟨error | m, s₃⟩
      · rw [hmap] at h
        cases h
        exact Or.inl ⟨error, rfl, .map hfile hmetadata hlen hmap⟩
      · rw [hmap] at h
        cases h
  · rw [ByteFile.open_tooLarge hfile hmetadata hge] at h
    cases h
    exact Or.inr ⟨file, s₁, metadata, rfl, hmetadata, hge, rfl⟩

/-- **What a failed `open` becomes**: the error of the call that failed, unchanged, or
`InvalidInput` with both lengths in its message. -/
theorem open_into_io (io : IoErrors ε Kind)
    (h : outcome (ByteFile.open_ os path) s = (.error e, s')) :
    FailedCall os path s (e.intoIo io) s' ∨
      ∃ file s₁ metadata, outcome (os.openFile path) s = (.ok file, s₁) ∧
        outcome (os.metadata file) s₁ = (.ok metadata, s') ∧ 2 ^ w ≤ metadata.len.toNat ∧
        io.kind (e.intoIo io) = io.invalidInput ∧
        io.display (e.intoIo io) = "file of " ++ toString metadata.len.toNat ++
          " bytes is too large to address on this platform (usize holds at most " ++
          toString (2 ^ w - 1) ++ " bytes)" := by
  rcases open_failed h with ⟨error, rfl, hfailed⟩ | ⟨file, s₁, metadata, hfile, hmetadata, hge, rfl⟩
  · exact Or.inl hfailed
  · refine Or.inr ⟨file, s₁, metadata, hfile, hmetadata, hge, ?_⟩
    rw [Error.intoIo_of_source_none rfl, io.kind_new, io.display_new]
    refine ⟨rfl, ?_⟩
    have hmax : (Usize.MAX : Usize w).toNat = 2 ^ w - 1 := Words.toNat_maxWord
    rw [Error.display_fileTooLarge, hmax]
    simp only [String.append_assoc]

end Open

/-- A file of three bytes where a `usize` has one bit. -/
theorem open_into_io_narrow :
    let os : Os 1 Unit (Bool × String) Unit (List UInt8) :=
      .ofFiles (false, "") (false, "") fun _ => some [97, 98, 99]
    ∃ e : Error 1 (Bool × String), outcome (ByteFile.open_ os ()) () = (.error e, ()) ∧
      (IoErrors.custom true).display (e.intoIo (IoErrors.custom true)) =
        "file of 3 bytes is too large to address on this platform (usize holds at most 1 bytes)" := by
  intro os
  have hopen : outcome (ByteFile.open_ os ()) () = (.error (.fileTooLarge 3), ()) := rfl
  refine ⟨.fileTooLarge 3, hopen, ?_⟩
  rcases open_into_io (IoErrors.custom true) hopen with
    hfailed | ⟨file, s₁, metadata, hfile, hmetadata, -, -, hdisplay⟩
  · cases hfailed with
    | openFile h => cases h
    | metadata hfile h => cases h
    | @map _ _ hfile _ _ hmetadata len hlen =>
      cases hmetadata
      cases hfile
      have hlt := len.isLt
      rw [hlen] at hlt
      exact absurd hlt (by decide)
  · cases hfile
    cases hmetadata
    exact hdisplay

end MmapCursor
