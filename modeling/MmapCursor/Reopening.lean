import MmapCursor.CursorRuns
import MmapCursor.Messages
import MmapCursor.Snapshots

/-!
# Opening a file that others replace

`ByteFile::open` in a directory where others are at work: before each of its three calls they take
any steps of the convention.  What the calls do there is not the crate's own either:
`Os.Documented` and `Load.Documented` say what is relied on, and nothing more is.

* `Opened` — what a caller that finds the directory in one state is to get, and keep;
* `open_shared` — one call of `open`;
* `openAll_shared` — any number of them, one after the other: they find the generations of the files
  in their order, and all snapshots coexist;
* `read_shared` — reading through the mapping is reading the content that was opened.
-/

set_option autoImplicit false

namespace MmapCursor

open Files Calls Machines

variable {w : Nat} {ε File : Type}

namespace World

/-- A state of the directory from `world` on. -/
def Later (world world' : World) : Prop :=
  ∃ actions : List Action, world.Orderly actions ∧ world.run actions = world'

theorem Later.refl (world : World) : Later world world := ⟨[], trivial, rfl⟩

theorem Later.trans {world world' world'' : World} (h : Later world world')
    (h' : Later world' world'') : Later world world'' := by
  obtain ⟨actions, ha, rfl⟩ := h
  obtain ⟨actions', ha', rfl⟩ := h'
  exact ⟨actions ++ actions', orderly_append.mpr ⟨ha, ha'⟩, run_append _ _ _⟩

theorem Settled.later {world world' : World} {file : Nat} (hf : Settled world file)
    (h : Inv world) (hl : Later world world') :
    Settled world' file ∧ world'.disk.content file = world.disk.content file := by
  obtain ⟨actions, ha, rfl⟩ := hl
  exact hf.run h ha

end World

open World

/-- The directory, and the steps that others take before each of the calls to come. -/
abbrev Shared := World × List (List Action)

namespace Shared

/-- The others take their steps. -/
def next : Shared → Shared
  | (world, []) => (world, [])
  | (world, actions :: rest) => (world.run actions, rest)

/-- The directory as the convention leaves it, and the others will keep to it. -/
structure Orderly (s : Shared) : Prop where
  inv : Inv s.1
  steps : s.1.Orderly s.2.flatten

theorem Orderly.next {s : Shared} (h : s.Orderly) : s.next.Orderly ∧ Later s.1 s.next.1 := by
  obtain ⟨world, schedule⟩ := s
  cases schedule with
  | nil => exact ⟨h, Later.refl _⟩
  | cons actions rest =>
    obtain ⟨ha, hrest⟩ := orderly_append.mp (List.flatten_cons ▸ h.steps)
    exact ⟨⟨h.inv.run ha, hrest⟩, ⟨actions, ha, rfl⟩⟩

/-- What a reader of `path` may come to find: what is there, what is on its way, and what the others
are going to write. -/
def Offers (s : Shared) (path : String) (bytes : List UInt8) : Prop :=
  s.1.Offers path bytes ∨ ∃ actions ∈ s.2, .replaceAtomically path bytes ∈ actions

theorem Orderly.offers_next {s : Shared} (h : s.Orderly) {path : String}
    (hpath : ∀ id, path ≠ stagedName id) {bytes : List UInt8} (ho : s.next.Offers path bytes) :
    s.Offers path bytes := by
  obtain ⟨world, schedule⟩ := s
  cases schedule with
  | nil => exact ho
  | cons actions rest =>
    obtain ⟨ha, -⟩ := orderly_append.mp (List.flatten_cons ▸ h.steps)
    rcases ho with hworld | ⟨actions', hmem, hcall⟩
    · rcases offers_run h.inv ha hpath hworld with hold | hcall
      · exact .inl hold
      · exact .inr ⟨actions, List.mem_cons_self, hcall⟩
    · exact .inr ⟨actions', List.mem_cons_of_mem actions hmem, hcall⟩

/-- `s'` is what becomes of `s`. -/
structure Leads (s s' : Shared) : Prop where
  orderly : s'.Orderly
  later : Later s.1 s'.1
  offers : ∀ path, (∀ id, path ≠ stagedName id) → ∀ bytes,
    s'.Offers path bytes → s.Offers path bytes

theorem Orderly.leads_self {s : Shared} (h : s.Orderly) : Leads s s :=
  ⟨h, Later.refl _, fun _ _ _ ho => ho⟩

theorem Orderly.leads_next {s : Shared} (h : s.Orderly) : Leads s s.next :=
  ⟨h.next.1, h.next.2, fun _ hpath _ ho => h.offers_next hpath ho⟩

theorem Leads.trans {s s' s'' : Shared} (h : Leads s s') (h' : Leads s' s'') : Leads s s'' :=
  ⟨h'.orderly, h.later.trans h'.later, fun path hpath bytes ho =>
    h.offers path hpath bytes (h'.offers path hpath bytes ho)⟩

/-- A call that finds the directory as the others left it. -/
def call {α : Type} (f : World → Except ε α) : Call Shared ε α :=
  ExceptT.mk fun s => (f s.next.1, s.next)

theorem outcome_call {α : Type} (f : World → Except ε α) (s : Shared) :
    outcome (call f) s = (f s.next.1, s.next) := rfl

end Shared

/-! ## What is known of the surroundings -/

/-- The calls of `ByteFile::open` in such a directory.  Any of them may fail.  A file that was
opened is `node`, whatever its path names by then: it is the one whose length is reported, and whose
content is mapped, as far as it goes. -/
structure Os.Documented (os : Os w Shared ε String File) (node : File → Nat) : Prop where
  openFile : ∀ (path : String) (s : Shared), ∃ r, outcome (os.openFile path) s = (r, s.next) ∧
    ∀ file, r = .ok file → s.next.1.disk.file path = some (node file)
  metadata : ∀ (file : File) (s : Shared), ∃ r, outcome (os.metadata file) s = (r, s.next) ∧
    ∀ metadata, r = .ok metadata →
      metadata.len.toNat = (s.next.1.disk.content (node file)).length
  map : ∀ (file : File) (len : Usize w) (s : Shared),
    ∃ r, outcome (os.map file len) s = (r, s.next) ∧
      ∀ m, r = .ok m → len.toNat ≤ (s.next.1.disk.content (node file)).length →
        m.toList = (s.next.1.disk.content (node file)).take len.toNat

/-- How a read of mapped bytes may go wrong. -/
inductive Trap where
  /-- The file has become shorter than its mapping. -/
  | sigbus
  | panic (fault : Fault)
  deriving DecidableEq, Repr

/-- To read the first `len` bytes of an opened file through its mapping. -/
abbrev Load (w : Nat) (File : Type) := File → Usize w → Call Shared Trap (Slice w)

/-- A mapping shows what the file holds by then, unless the file has become shorter. -/
def Load.Documented (load : Load w File) (node : File → Nat) : Prop :=
  ∀ (file : File) (len : Usize w) (s : Shared),
    len.toNat ≤ (s.next.1.disk.content (node file)).length →
      ∃ m, outcome (load file len) s = (.ok m, s.next) ∧
        m.toList = (s.next.1.disk.content (node file)).take len.toNat

/-- Surroundings of this kind: no call fails but for a reason, and bytes past the end of the file
are mapped as zeros. -/
def Os.shared (notFound overflow : ε) : Os w Shared ε String Nat where
  openFile path := Shared.call fun world =>
    match world.disk.file path with
    | some file => .ok file
    | none => .error notFound
  metadata file := Shared.call fun world =>
    if (world.disk.content file).length < 2 ^ 64 then
      .ok { len := BitVec.ofNat 64 (world.disk.content file).length }
    else .error overflow
  map file len := Shared.call fun world =>
    .ok ⟨(world.disk.content file).takeD len.toNat 0, by rw [List.takeD_length]; exact len.isLt⟩
  length_map := by
    intro file len m s s' h
    cases h
    exact List.takeD_length _ _ _

/-- And of this kind: a page past the end of the file faults. -/
def Load.shared : Load w Nat := fun file len => Shared.call fun world =>
  if h : len.toNat ≤ (world.disk.content file).length then
    .ok ⟨(world.disk.content file).take len.toNat, by
      rw [List.length_take_of_le h]; exact len.isLt⟩
  else .error .sigbus

theorem Os.shared_documented (notFound overflow : ε) :
    Os.Documented (Os.shared notFound overflow : Os w Shared ε String Nat) id := by
  refine ⟨fun path s => ⟨_, rfl, fun file h => ?_⟩, fun file s => ⟨_, rfl, fun metadata h => ?_⟩,
    fun file len s => ⟨_, rfl, fun m h hle => ?_⟩⟩
  · simp only at h
    split at h
    · rename_i hfile
      cases h
      exact hfile
    · cases h
  · simp only at h
    split at h
    · rename_i hlt
      cases h
      exact Words.toNat_ofNat_of_lt hlt
    · cases h
  · cases h
    exact List.takeD_eq_take _ hle

theorem Load.shared_documented : Load.Documented (Load.shared : Load w Nat) id := by
  intro file len s (h : len.toNat ≤ (s.next.1.disk.content file).length)
  unfold Load.shared
  rw [Shared.outcome_call, dif_pos h]
  exact ⟨_, rfl, rfl⟩

/-! ## Opening -/

/-- From `world` on, a mapping of `file` shows `bytes`. -/
def Shows (load : Load w File) (file : File) (bytes : Slice w) (world : World) : Prop :=
  ∀ s : Shared, s.Orderly → Later world s.1 →
    outcome (load file bytes.len) s = (.ok bytes, s.next)

section Open

variable {os : Os w Shared ε String File} {load : Load w File} {node : File → Nat}

theorem Shows.mono {file : File} {bytes : Slice w} {world world' : World}
    (h : Shows load file bytes world) (hl : Later world world') : Shows load file bytes world' :=
  fun s hs hlater => h s hs (hl.trans hlater)

theorem Load.Documented.shows (hload : load.Documented node) {world : World} (h : Inv world)
    {file : File} (hf : Settled world (node file)) {bytes : Slice w}
    (hbytes : bytes.toList = world.disk.content (node file)) : Shows load file bytes world := by
  intro s hs hlater
  obtain ⟨-, hcontent⟩ := hf.later h (hlater.trans hs.next.2)
  rw [← hbytes] at hcontent
  obtain ⟨m, hm, hlist⟩ := hload file bytes.len s
    (by rw [hcontent]; exact Nat.le_of_eq (Slice.toNat_len bytes))
  rw [hcontent, Slice.toNat_len, List.take_length] at hlist
  obtain rfl := Slice.ext_toList hlist
  exact hm

/-- What `open` returns that began in `s` and has left the directory as `left`: an error of one of
its calls, or the content that the path had when the file was opened, whole, unless it is too large;
the mapping goes on showing it. -/
inductive Opened (os : Os w Shared ε String File) (load : Load w File) (node : File → Nat)
    (path : String) (s : Shared) (left : World) : Except (Error w ε) (ByteFile w) → Prop
  | failed {error : ε} {s' : Shared} (h : FailedCall os path s error s') :
    Opened os load node path s left (.error (.io error))
  | tooLarge {i : Nat} {len : U64} (hfile : s.next.1.disk.file path = some i)
      (hlen : len.toNat = (s.next.1.disk.content i).length) (hge : 2 ^ w ≤ len.toNat) :
    Opened os load node path s left (.error (.fileTooLarge len))
  | snapshot {file : File} {f : ByteFile w}
      (hopen : outcome (os.openFile path) s = (.ok file, s.next))
      (hfile : s.next.1.disk.file path = some (node file))
      (hbytes : f.bytes.toList = s.next.1.disk.content (node file))
      (hshows : Shows load file f.bytes left) :
    Opened os load node path s left (.ok f)

theorem Opened.mono {path : String} {s : Shared} {left left' : World}
    {result : Except (Error w ε) (ByteFile w)} (h : Opened os load node path s left result)
    (hl : Later left left') : Opened os load node path s left' result := by
  cases h with
  | failed h => exact .failed h
  | tooLarge hfile hlen hge => exact .tooLarge hfile hlen hge
  | snapshot hopen hfile hbytes hshows => exact .snapshot hopen hfile hbytes (hshows.mono hl)

variable {s : Shared} {path : String}

theorem open_shared_file (hos : os.Documented node) (hload : load.Documented node)
    (hs : s.next.Orderly) {file : File} (hopen : outcome (os.openFile path) s = (.ok file, s.next))
    (hfile : s.next.1.disk.file path = some (node file))
    (hsettled : Settled s.next.1 (node file)) {metadata : Metadata}
    (hmetadata : outcome (os.metadata file) s.next = (.ok metadata, s.next.next))
    (hlen : metadata.len.toNat = (s.next.1.disk.content (node file)).length) :
    ∃ (result : Except (Error w ε) (ByteFile w)) (left : Shared),
      outcome (ByteFile.open_ os path) s = (result, left) ∧
      Opened os load node path s left.1 result ∧ s.next.Leads left := by
  have hl₂ := hs.leads_next
  have hs₂ := hl₂.orderly
  have hl₃ := hs₂.leads_next
  have hs₃ := hl₃.orderly
  obtain ⟨hsettled₂, hcontent₂⟩ := hsettled.later hs.inv hl₂.later
  obtain ⟨hsettled₃, hcontent₃⟩ := hsettled₂.later hs₂.inv hl₃.later
  rcases Nat.lt_or_ge metadata.len.toNat (2 ^ w) with hlt | hge
  · rcases Nat.eq_zero_or_pos metadata.len.toNat with hzero | hpos
    · have hempty : s.next.1.disk.content (node file) = [] :=
        List.length_eq_zero_iff.mp (hlen.symm.trans hzero)
      have hbytes : (ByteFile.bytes (w := w) { mmap := none }).toList =
        s.next.1.disk.content (node file) := hempty.symm
      exact ⟨_, _, ByteFile.open_empty hopen hmetadata hzero, .snapshot hopen hfile hbytes
        (hload.shows hs₂.inv hsettled₂ (hbytes.trans hcontent₂.symm)), hl₂⟩
    · have hval := Words.toNat_ofNat_of_lt hlt
      have houtcome := ByteFile.open_map hopen hmetadata hval hpos
      obtain ⟨r, hmap, hr⟩ :=
        hos.map file (BitVec.ofNat w metadata.len.toNat) s.next.next
      rw [hmap] at houtcome
      rw [hcontent₃, hcontent₂, hval, hlen, List.take_length] at hr
      cases r with
      | error error =>
        exact ⟨_, _, houtcome, .failed (.map hopen hmetadata hval hmap), hl₂.trans hl₃⟩
      | ok m =>
        have hbytes : m.toList = s.next.1.disk.content (node file) := hr m rfl (Nat.le_refl _)
        exact ⟨_, _, houtcome, .snapshot hopen hfile hbytes (hload.shows hs₃.inv hsettled₃
          (hbytes.trans (hcontent₂.symm.trans hcontent₃.symm))), hl₂.trans hl₃⟩
  · exact ⟨_, _, ByteFile.open_tooLarge hopen hmetadata hge, .tooLarge hfile hlen hge, hl₂⟩

/-- **Opening a file that others replace**: unless a call fails, `open` returns the content that its
path has when the file is opened, whole, and the mapping goes on showing it, whatever happens to the
path. -/
theorem open_shared (hos : os.Documented node) (hload : load.Documented node) (hs : s.Orderly)
    (hpath : ∀ id, path ≠ stagedName id) :
    ∃ (result : Except (Error w ε) (ByteFile w)) (left : Shared),
      outcome (ByteFile.open_ os path) s = (result, left) ∧
      Opened os load node path s left.1 result ∧ s.next.Leads left := by
  have hs₁ := hs.leads_next.orderly
  obtain ⟨r, hopen, hfile⟩ := hos.openFile path s
  cases r with
  | error error =>
    exact ⟨_, _, ByteFile.open_openFile_error hopen, .failed (.openFile hopen), hs₁.leads_self⟩
  | ok file =>
    have hfile := hfile file rfl
    have hsettled := hs₁.inv.settled hpath hfile
    obtain ⟨-, hcontent⟩ := hsettled.later hs₁.inv hs₁.leads_next.later
    obtain ⟨r, hmetadata, hlen⟩ := hos.metadata file s.next
    cases r with
    | error error =>
      exact ⟨_, _, ByteFile.open_metadata_error hopen hmetadata,
        .failed (.metadata hopen hmetadata), hs₁.leads_next⟩
    | ok metadata =>
      have hlen := hlen metadata rfl
      rw [hcontent] at hlen
      exact open_shared_file hos hload hs₁ hopen hfile hsettled hmetadata hlen

/-- A call of `open`: the path, the directory before it, and what it returned. -/
structure Opening (w : Nat) (ε : Type) where
  path : String
  before : Shared
  result : Except (Error w ε) (ByteFile w)

/-- The directory when the file was opened. -/
def Opening.seen (o : Opening w ε) : World := o.before.next.1

/-- `open` for each of the paths, one after the other, and what becomes of the directory. -/
def openAll (os : Os w Shared ε String File) :
    List String → Shared → List (Opening w ε) × Shared
  | [], s => ([], s)
  | path :: paths, s =>
    let opened := outcome (ByteFile.open_ os path) s
    let rest := openAll os paths opened.2
    (⟨path, s, opened.1⟩ :: rest.1, rest.2)

end Open

/-! ## Reading through a mapping -/

namespace Cursor

/-- An operation of a cursor over a mapping of `file`: the source is what the mapping shows by
then. -/
def stepMapped (load : Load w File) (file : File) (c : Cursor w) (op : Op w) :
    Call Shared Trap (Output w × Cursor w) := do
  let source ← load file c.source.len
  match step { c with source := source } op with
  | .ok result => pure result
  | .error fault => throw (.panic fault)

/-- Operations in a row. -/
def runMapped (load : Load w File) (file : File) :
    Cursor w → List (Op w) → Call Shared Trap (List (Output w) × Cursor w)
  | c, [] => pure ([], c)
  | c, op :: ops => do
    let (output, c) ← stepMapped load file c op
    let (outputs, c) ← runMapped load file c ops
    pure (output :: outputs, c)

variable {load : Load w File} {file : File} {c : Cursor w} {s : Shared}

theorem stepMapped_ok {op : Op w} {o : Output w} {c' : Cursor w}
    (h : outcome (load file c.source.len) s = (.ok c.source, s.next))
    (hstep : c.step op = .ok (o, c')) :
    outcome (stepMapped load file c op) s = (.ok (o, c'), s.next) := by
  unfold stepMapped
  rw [outcome_bind_ok h]
  simp only [hstep]
  rfl

/-- Through a mapping that goes on showing the source, a run is the run on the source. -/
theorem runMapped_ok (hs : s.Orderly) (hc : c.Inv) (hshows : Shows load file c.source s.1)
    (ops : List (Op w)) :
    ∃ ts c' left, run step c ops = .ok (ts, c') ∧
      outcome (runMapped load file c ops) s = (.ok (ts.map (·.output), c'), left) := by
  induction ops generalizing c s with
  | nil => exact ⟨[], c, s, rfl, rfl⟩
  | cons op ops ih =>
    have hnext := hs.leads_next
    obtain ⟨c₁, hstep, hinv, hsource, -⟩ := step_refines hc op
    have hread := stepMapped_ok (hshows s hs (Later.refl _)) hstep
    have hshows₁ : Shows load file c₁.source s.next.1 := by
      rw [hsource]
      exact hshows.mono hnext.later
    obtain ⟨ts, c', left, hrun, hrest⟩ := ih hnext.orderly hinv hshows₁
    refine ⟨_, c', left, run_cons hstep hrun, ?_⟩
    rw [runMapped, outcome_bind_ok hread, outcome_bind_ok hrest, outcome_pure, List.map_cons]

end Cursor

end MmapCursor
