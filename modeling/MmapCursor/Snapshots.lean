import MmapCursor.Position
import MmapCursor.Lib.Decimal
import MmapCursor.Lib.Files

/-!
# Snapshots under atomic replacement

The write convention of the safety model: new contents go to a sibling file, which is then renamed
over the old path.  `replace_atomically` (`tests/support/mod.rs`) follows it in four steps: a number
from `NEXT_ID`, a staged file of that name, its bytes, piece by piece, and the `rename`.

* `World`, `World.step` — a directory, the `NEXT_ID` of the process that it belongs to, and any
  number of such calls in progress, one step at a time and in any order; a call may stop anywhere,
  as when its thread dies.
* `Orderly` — the convention, in a run: `NEXT_ID` wraps, and two calls with one number would share
  a staged file.  `orderly_of_count`: up to `2 ^ 64` numbers this does not happen.
* `Steps` — what a step can do; `World.Inv` — what every step keeps.
* `run_visible` — what readers see changes by whole contents only, one call at a time;
* `offers_run` — and is nothing but the content of some call;
* `run_replaces` — a call that takes all its steps takes effect at its rename: none is lost;
* `Settled.run` — a file that a path named keeps its content, whatever happens to the path.
* `content_overwrite` — which it does not if it is written in place.
-/

set_option autoImplicit false

namespace MmapCursor

open Files Function

/-- `format!("staged-{}", id)`. -/
def stagedName (id : U64) : String := "staged-" ++ toString id.toNat

theorem stagedName_inj {id id' : U64} (h : stagedName id = stagedName id') : id = id' := by
  have hlist := congrArg String.toList h
  simp only [stagedName, String.toList_append, Decimal.toList_toString] at hlist
  exact Words.eq_of_toNat (Decimal.digits_inj (List.append_cancel_left hlist))

/-- How far a call of `replace_atomically` has come. -/
inductive Stage where
  /-- It has its number. -/
  | numbered
  /-- Its staged file is open, and `unwritten` is still to be written to it. -/
  | staged (file : Nat) (unwritten : List UInt8)
  deriving DecidableEq, Repr

/-- A call of `replace_atomically` in progress, with the number it took. -/
structure Replacement where
  id : U64
  target : String
  bytes : List UInt8
  stage : Stage
  deriving DecidableEq, Repr

/-- A directory, the `NEXT_ID` of its process, and the calls in progress.  They are told apart by
how many numbers had been taken before theirs; `taken` is how many there are by now. -/
structure World where
  disk : Disk String UInt8
  nextId : U64
  taken : Nat
  calls : Nat → Option Replacement

/-- One step of one of the calls in the process, or of anyone else at work in the directory. -/
inductive Action where
  /-- `replace_atomically(target, bytes)` is called: `NEXT_ID.fetch_add(1)`. -/
  | replaceAtomically (target : String) (bytes : List UInt8)
  /-- `NEXT_ID.fetch_add(1)` for another directory: in `TempDir::new`, or to replace a file. -/
  | takeNumber
  /-- `fs::write(&staged, bytes)` opens the staged file. -/
  | create (call : Nat)
  /-- It writes the next bytes, `n` at most. -/
  | write (call n : Nat)
  /-- `fs::rename(&staged, target)`. -/
  | rename (call : Nat)
  /-- `fs::remove_file(path)`. -/
  | removeFile (path : String)
  /-- `fs::write(path, bytes)`, in place. -/
  | overwrite (path : String) (bytes : List UInt8)
  deriving DecidableEq, Repr

/-- A step of the convention: no file is written in place, and no one else touches the names of
staged files. -/
def Action.Conventional : Action → Prop
  | .replaceAtomically target _ => ∀ id, target ≠ stagedName id
  | .removeFile path => ∀ id, path ≠ stagedName id
  | .overwrite _ _ => False
  | _ => True

/-- The call that a step belongs to. -/
def Action.call : Action → Option Nat
  | .create call | .write call _ | .rename call => some call
  | _ => none

/-- A step that takes a number. -/
def Action.numbers : Action → Bool
  | .replaceAtomically _ _ | .takeNumber => true
  | _ => false

/-- What a step changes for readers. -/
inductive Event where
  | put (path : String) (bytes : List UInt8)
  | erase (path : String)
  deriving DecidableEq, Repr

/-- The content at `path` after an event. -/
def Event.update (path : String) (content : Option (List UInt8)) : Event → Option (List UInt8)
  | .put p bytes => if path = p then some bytes else content
  | .erase p => if path = p then none else content

namespace World

/-- One step.  A call that is not where the step belongs does nothing. -/
def step (world : World) : Action → World
  | .replaceAtomically target bytes =>
    { world with
      nextId := world.nextId + 1
      taken := world.taken + 1
      calls := update world.calls world.taken (some ⟨world.nextId, target, bytes, .numbered⟩) }
  | .takeNumber => { world with nextId := world.nextId + 1, taken := world.taken + 1 }
  | .create call =>
    match world.calls call with
    | some ⟨id, target, bytes, .numbered⟩ =>
      let created := world.disk.create (stagedName id)
      { world with
        disk := created.1
        calls := update world.calls call (some ⟨id, target, bytes, .staged created.2 bytes⟩) }
    | _ => world
  | .write call n =>
    match world.calls call with
    | some ⟨id, target, bytes, .staged file unwritten⟩ =>
      { world with
        disk := world.disk.write file (bytes.length - unwritten.length) (unwritten.take n)
        calls := update world.calls call
          (some ⟨id, target, bytes, .staged file (unwritten.drop n)⟩) }
    | _ => world
  | .rename call =>
    match world.calls call with
    | some ⟨id, target, _, .staged _ []⟩ =>
      { world with
        disk := (world.disk.rename (stagedName id) target).getD world.disk
        calls := update world.calls call none }
    | _ => world
  | .removeFile path => { world with disk := world.disk.remove path }
  | .overwrite path bytes =>
    let created := world.disk.create path
    { world with disk := created.1.append created.2 bytes }

/-- Steps in a row. -/
def run (world : World) (actions : List Action) : World := actions.foldl step world

@[simp] theorem run_cons (world : World) (a : Action) (actions : List Action) :
    world.run (a :: actions) = (world.step a).run actions := rfl

theorem run_append (world : World) (as bs : List Action) :
    world.run (as ++ bs) = (world.run as).run bs := List.foldl_append

/-- The content at `path`, for a reader. -/
def visible (world : World) (path : String) : Option (List UInt8) := world.disk.read path

/-- What a conventional step changes for readers. -/
def effect (world : World) : Action → Option Event
  | .rename call =>
    match world.calls call with
    | some ⟨_, target, bytes, .staged _ []⟩ => some (.put target bytes)
    | _ => none
  | .removeFile path => some (.erase path)
  | _ => none

/-- The events of a run. -/
def history (world : World) : List Action → List Event
  | [] => []
  | a :: actions => (world.effect a).toList ++ (world.step a).history actions

/-- A directory before the first call. -/
def start (disk : Disk String UInt8) (nextId : U64) : World := ⟨disk, nextId, 0, fun _ => none⟩

/-! ## The calls in progress, and their numbers -/

/-- A call that is in progress after a step was so before it, or begins with it. -/
theorem calls_step {world : World} {a : Action} {call : Nat} {r : Replacement}
    (hcall : (world.step a).calls call = some r) :
    (∃ stage, world.calls call = some ⟨r.id, r.target, r.bytes, stage⟩) ∨
      a = .replaceAtomically r.target r.bytes ∧ call = world.taken ∧ r.id = world.nextId := by
  have hold (h : world.calls call = some r) :
      ∃ stage, world.calls call = some ⟨r.id, r.target, r.bytes, stage⟩ := ⟨r.stage, h⟩
  cases a with
  | replaceAtomically target bytes =>
    rcases of_update_eq_some hcall with ⟨rfl, hr⟩ | ⟨-, h⟩
    · cases hr
      exact .inr ⟨rfl, rfl, rfl⟩
    · exact .inl (hold h)
  | takeNumber => exact .inl (hold hcall)
  | create call' =>
    simp only [step] at hcall
    split at hcall
    · rename_i hcall'
      rcases of_update_eq_some hcall with ⟨rfl, hr⟩ | ⟨-, h⟩
      · cases hr
        exact .inl ⟨_, hcall'⟩
      · exact .inl (hold h)
    · exact .inl (hold hcall)
  | write call' n =>
    simp only [step] at hcall
    split at hcall
    · rename_i hcall'
      rcases of_update_eq_some hcall with ⟨rfl, hr⟩ | ⟨-, h⟩
      · cases hr
        exact .inl ⟨_, hcall'⟩
      · exact .inl (hold h)
    · exact .inl (hold hcall)
  | rename call' =>
    simp only [step] at hcall
    split at hcall
    · rcases of_update_eq_some hcall with ⟨rfl, hr⟩ | ⟨-, h⟩
      · cases hr
      · exact .inl (hold h)
    · exact .inl (hold hcall)
  | removeFile path => exact .inl (hold hcall)
  | overwrite path bytes => exact .inl (hold hcall)

/-- No call in progress has the number that is taken next. -/
def Unused (world : World) : Prop :=
  ∀ {call : Nat} {r : Replacement}, world.calls call = some r → r.id ≠ world.nextId

/-- A step that may come next: it keeps to the convention, and a call that it begins shares its
number with none that is in progress. -/
structure Allows (world : World) (a : Action) : Prop where
  conventional : a.Conventional
  unused : ∀ {target : String} {bytes : List UInt8}, a = .replaceAtomically target bytes →
    world.Unused

/-- A run of such steps. -/
def Orderly (world : World) : List Action → Prop
  | [] => True
  | a :: actions => world.Allows a ∧ (world.step a).Orderly actions

theorem orderly_append {world : World} {as bs : List Action} :
    world.Orderly (as ++ bs) ↔ world.Orderly as ∧ (world.run as).Orderly bs := by
  induction as generalizing world with
  | nil => exact (iff_of_eq (true_and _)).symm
  | cons a as ih =>
    simp only [List.cons_append, Orderly, run_cons, ih]
    exact and_assoc.symm

/-- `NEXT_ID` has been raised once for every number since that of a call. -/
def Counted (world : World) : Prop :=
  ∀ {call : Nat} {r : Replacement}, world.calls call = some r →
    call < world.taken ∧ r.id + BitVec.ofNat 64 (world.taken - call) = world.nextId

theorem Counted.start (disk : Disk String UInt8) (nextId : U64) : Counted (start disk nextId) :=
  nofun

theorem numbers_step (world : World) (a : Action) :
    (world.step a).taken = world.taken + a.numbers.toNat ∧
      (world.step a).nextId = world.nextId + BitVec.ofNat 64 a.numbers.toNat := by
  have hzero : world.nextId = world.nextId + BitVec.ofNat 64 0 := (BitVec.add_zero _).symm
  cases a with
  | replaceAtomically target bytes => exact ⟨rfl, rfl⟩
  | takeNumber => exact ⟨rfl, rfl⟩
  | create call =>
    simp only [step]
    split <;> exact ⟨rfl, hzero⟩
  | write call n =>
    simp only [step]
    split <;> exact ⟨rfl, hzero⟩
  | rename call =>
    simp only [step]
    split <;> exact ⟨rfl, hzero⟩
  | removeFile path => exact ⟨rfl, hzero⟩
  | overwrite path bytes => exact ⟨rfl, hzero⟩

theorem Counted.step {world : World} (h : Counted world) (a : Action) :
    Counted (world.step a) := by
  intro call r hcall
  obtain ⟨htaken, hnextId⟩ := numbers_step world a
  rcases calls_step hcall with ⟨stage, hcall'⟩ | ⟨rfl, rfl, hid⟩
  · obtain ⟨hlt, hcount⟩ := h hcall'
    rw [htaken, hnextId, ← hcount, BitVec.add_assoc, ← BitVec.ofNat_add]
    exact ⟨by omega, by rw [Nat.sub_add_comm (Nat.le_of_lt hlt)]⟩
  · rw [htaken, hnextId, hid, Nat.add_sub_cancel_left]
    exact ⟨Nat.lt_succ_self _, rfl⟩

/-- **No two calls share a number** as long as `NEXT_ID` gives out no more than there are. -/
theorem orderly_of_count {world : World} (h : Counted world) {actions : List Action}
    (ha : ∀ a ∈ actions, a.Conventional)
    (hn : world.taken + actions.countP Action.numbers ≤ 2 ^ 64) : world.Orderly actions := by
  induction actions generalizing world with
  | nil => trivial
  | cons a actions ih =>
    obtain ⟨hfirst, hrest⟩ := List.forall_mem_cons.mp ha
    rw [List.countP_cons] at hn
    refine ⟨⟨hfirst, ?_⟩, ih (h.step a) hrest ?_⟩
    · rintro target bytes rfl call r hcall heq
      obtain ⟨hlt, hcount⟩ := h hcall
      rw [if_pos (by rfl)] at hn
      rw [← heq] at hcount
      exact Words.count_ne _ (Nat.sub_pos_of_lt hlt) (by omega) hcount
    · rw [(numbers_step world a).1]
      cases hnumbers : a.numbers with
      | false => simpa [hnumbers] using hn
      | true =>
        rw [hnumbers, if_pos rfl] at hn
        simp only [Bool.toNat_true]
        omega

/-! ## What every step keeps -/

/-- What is on disk for the call `r`: its target is no staged file, and its own staged file has one
name and holds what has been written to it. -/
structure OnDisk (disk : Disk String UInt8) (r : Replacement) : Prop where
  target : ∀ id, r.target ≠ stagedName id
  numbered : r.stage = .numbered → disk.file (stagedName r.id) = none
  staged : ∀ {file unwritten}, r.stage = .staged file unwritten →
    disk.content file ++ unwritten = r.bytes ∧ ∀ p, disk.file p = some file ↔ p = stagedName r.id

/-- The calls in progress have numbers of their own and are as far on disk as they say, and there
are no staged files but theirs. -/
structure Inv (world : World) : Prop where
  begun : ∀ {call r}, world.calls call = some r → call < world.taken
  apart : ∀ {call call' r r'}, world.calls call = some r → world.calls call' = some r' →
    r.id = r'.id → call = call'
  owned : ∀ {id file}, world.disk.file (stagedName id) = some file →
    ∃ call r unwritten, world.calls call = some r ∧ r.id = id ∧ r.stage = .staged file unwritten
  onDisk : ∀ {call r}, world.calls call = some r → OnDisk world.disk r

section Inv

variable {world world' : World} {call : Nat} {r : Replacement}

theorem Inv.start {disk : Disk String UInt8} {nextId : U64}
    (h : ∀ id, disk.file (stagedName id) = none) : Inv (start disk nextId) := by
  refine ⟨nofun, nofun, fun {id file} hfile => ?_, nofun⟩
  cases (h id).symm.trans hfile

theorem Inv.file_stagedName (h : Inv world) (hcall : world.calls call = some r) {file : Nat}
    {unwritten : List UInt8} (hr : r.stage = .staged file unwritten) :
    world.disk.file (stagedName r.id) = some file := (((h.onDisk hcall).staged hr).2 _).mpr rfl

theorem Inv.file_nextId (h : Inv world) (hunused : world.Unused) :
    world.disk.file (stagedName world.nextId) = none := by
  apply Option.eq_none_iff_forall_ne_some.mpr
  intro file hfile
  obtain ⟨call, r, unwritten, hcall, hid, -⟩ := h.owned hfile
  exact hunused hcall hid

/-- What is still to be written goes to the end of the staged file. -/
theorem Inv.length_content (h : Inv world) (hcall : world.calls call = some r) {file : Nat}
    {unwritten : List UInt8} (hr : r.stage = .staged file unwritten) :
    (world.disk.content file).length = r.bytes.length - unwritten.length := by
  obtain ⟨hbytes, -⟩ := (h.onDisk hcall).staged hr
  rw [← hbytes, List.length_append, Nat.add_sub_cancel]

/-- Two calls never share a staged file. -/
theorem Inv.file_ne (h : Inv world) (hcall : world.calls call = some r) {call' : Nat}
    {r' : Replacement} (hcall' : world.calls call' = some r') (hne : call' ≠ call)
    {file file' : Nat} {unwritten unwritten' : List UInt8} (hr : r.stage = .staged file unwritten)
    (hr' : r'.stage = .staged file' unwritten') : file' ≠ file := by
  intro heq
  subst heq
  have hname := h.file_stagedName hcall' hr'
  have hid := stagedName_inj ((((h.onDisk hcall).staged hr).2 _).mp hname)
  exact hne (h.apart hcall' hcall hid)

/-- A disk that is the same as far as a call is concerned. -/
theorem OnDisk.frame {disk disk' : Disk String UInt8} (h : OnDisk disk r)
    (hname : disk'.file (stagedName r.id) = disk.file (stagedName r.id))
    (hfile : ∀ {file unwritten}, r.stage = .staged file unwritten →
      disk'.content file = disk.content file ∧
        ∀ p, disk'.file p = some file ↔ disk.file p = some file) : OnDisk disk' r := by
  refine ⟨h.target, fun hr => hname.trans (h.numbered hr), fun {file unwritten} hr => ?_⟩
  obtain ⟨hcontent, hfiles⟩ := hfile hr
  obtain ⟨hbytes, hnames⟩ := h.staged hr
  exact ⟨by rw [hcontent, hbytes], fun p => (hfiles p).trans (hnames p)⟩

/-- A step of a call, which it leaves as `r'`, with its number. -/
theorem Inv.update_call (h : Inv world) (hcall : world.calls call = some r)
    {r' : Option Replacement} {disk' : Disk String UInt8}
    (hr' : ∀ {q}, r' = some q → q.id = r.id ∧ OnDisk disk' q)
    (howned : ∀ {file}, disk'.file (stagedName r.id) = some file →
      ∃ q unwritten, r' = some q ∧ q.stage = .staged file unwritten)
    (hnames : ∀ id, id ≠ r.id → disk'.file (stagedName id) = world.disk.file (stagedName id))
    (hfiles : ∀ {call' q file unwritten}, call' ≠ call → world.calls call' = some q →
      q.stage = .staged file unwritten → disk'.content file = world.disk.content file ∧
        ∀ p, disk'.file p = some file ↔ world.disk.file p = some file) :
    Inv { world with disk := disk', calls := update world.calls call r' } := by
  -- a call after the step is one before it, with the same number
  have hbefore {call' : Nat} {q : Replacement} (hq : update world.calls call r' call' = some q) :
      ∃ q', world.calls call' = some q' ∧ q'.id = q.id := by
    rcases of_update_eq_some hq with ⟨rfl, hnew⟩ | ⟨-, hold⟩
    · exact ⟨r, hcall, (hr' hnew).1.symm⟩
    · exact ⟨q, hold, rfl⟩
  refine ⟨fun {call' q} hq => ?_, fun {call₁ call₂ q₁ q₂} hq₁ hq₂ hid => ?_,
    fun {id file} hfile => ?_, fun {call' q} hq => ?_⟩
  · obtain ⟨q', hq', -⟩ := hbefore hq
    exact h.begun hq'
  · obtain ⟨q₁', hq₁', hid₁⟩ := hbefore hq₁
    obtain ⟨q₂', hq₂', hid₂⟩ := hbefore hq₂
    exact h.apart hq₁' hq₂' (hid₁.trans (hid.trans hid₂.symm))
  · simp only at hfile ⊢
    by_cases hid : id = r.id
    · subst hid
      obtain ⟨q, unwritten, hq, hstage⟩ := howned hfile
      exact ⟨call, q, unwritten, by rw [update_self, hq], (hr' hq).1, hstage⟩
    · rw [hnames id hid] at hfile
      obtain ⟨call', q, unwritten, hq, rfl, hstage⟩ := h.owned hfile
      have hne : call' ≠ call := by
        rintro rfl
        rw [hcall, Option.some.injEq] at hq
        exact hid (congrArg Replacement.id hq.symm)
      exact ⟨call', q, unwritten, by rw [update_of_ne hne, hq], rfl, hstage⟩
  · rcases of_update_eq_some hq with ⟨rfl, hnew⟩ | ⟨hne, hold⟩
    · exact (hr' hnew).2
    · have hid : q.id ≠ r.id := fun hid => hne (h.apart hold hcall hid)
      exact (h.onDisk hold).frame (hnames q.id hid) fun hstage => hfiles hne hold hstage

theorem Inv.replaceAtomically (h : Inv world) {target : String}
    (ht : ∀ id, target ≠ stagedName id) (hunused : world.Unused) (bytes : List UInt8) :
    Inv { world with
      nextId := world.nextId + 1
      taken := world.taken + 1
      calls := update world.calls world.taken
        (some ⟨world.nextId, target, bytes, .numbered⟩) } := by
  have hnew : world.calls world.taken = none := by
    apply Option.eq_none_iff_forall_ne_some.mpr
    intro r hcall
    exact Nat.lt_irrefl _ (h.begun hcall)
  refine ⟨fun {call q} hq => ?_, fun {call₁ call₂ q₁ q₂} hq₁ hq₂ hid => ?_,
    fun {id file} hfile => ?_, fun {call q} hq => ?_⟩
  · rcases of_update_eq_some hq with ⟨rfl, -⟩ | ⟨-, hold⟩
    · exact Nat.lt_succ_self _
    · exact Nat.lt_succ_of_lt (h.begun hold)
  · rcases of_update_eq_some hq₁ with ⟨rfl, ⟨⟩⟩ | ⟨-, hold₁⟩ <;>
      rcases of_update_eq_some hq₂ with ⟨rfl, ⟨⟩⟩ | ⟨-, hold₂⟩
    · rfl
    · exact absurd hid.symm (hunused hold₂)
    · exact absurd hid (hunused hold₁)
    · exact h.apart hold₁ hold₂ hid
  · obtain ⟨call, q, unwritten, hq, hid, hstage⟩ := h.owned hfile
    refine ⟨call, q, unwritten, ?_, hid, hstage⟩
    show update world.calls world.taken _ call = some q
    rw [update_of_ne (Nat.ne_of_lt (h.begun hq)), hq]
  · rcases of_update_eq_some hq with ⟨rfl, ⟨⟩⟩ | ⟨-, hold⟩
    · exact ⟨ht, fun _ => h.file_nextId hunused, nofun⟩
    · exact h.onDisk hold

theorem Inv.takeNumber (h : Inv world) :
    Inv { world with nextId := world.nextId + 1, taken := world.taken + 1 } :=
  ⟨fun hcall => Nat.lt_succ_of_lt (h.begun hcall), h.apart, h.owned, h.onDisk⟩

theorem Inv.create (h : Inv world) {id : U64} {target : String} {bytes : List UInt8}
    (hcall : world.calls call = some ⟨id, target, bytes, .numbered⟩) :
    Inv { world with
      disk := (world.disk.create (stagedName id)).1
      calls := update world.calls call
        (some ⟨id, target, bytes, .staged (world.disk.create (stagedName id)).2 bytes⟩) } := by
  have hnone : world.disk.file (stagedName id) = none := (h.onDisk hcall).numbered rfl
  obtain ⟨hnew, hfile, hcontent, -⟩ := Disk.create_of_none hnone
  apply h.update_call hcall
  · intro q hq
    rw [Option.some.injEq] at hq
    subst hq
    refine ⟨rfl, (h.onDisk hcall).target, nofun, fun {file unwritten} hstage => ?_⟩
    cases hstage
    rw [hnew, hcontent, update_self]
    refine ⟨rfl, fun p => ?_⟩
    by_cases hp : p = stagedName id
    · simp [hfile, hp]
    · rw [hfile, update_of_ne hp]
      exact iff_of_false (fun hold => Nat.lt_irrefl _ (world.disk.created hold)) hp
  · intro file hcreated
    rw [hfile, update_self, ← hnew, Option.some.injEq] at hcreated
    exact ⟨_, bytes, rfl, by rw [hcreated]⟩
  · intro id' hne
    rw [hfile, update_of_ne fun hname => hne (stagedName_inj hname)]
  · intro call' q file unwritten hne hq hstage
    have hold := h.file_stagedName hq hstage
    have hlt := world.disk.created hold
    refine ⟨by rw [hcontent, update_of_ne (Nat.ne_of_lt hlt)], fun p => ?_⟩
    by_cases hp : p = stagedName id
    · subst hp
      rw [hfile, update_self, hnone, Option.some.injEq]
      exact iff_of_false (Nat.ne_of_gt hlt) (by simp)
    · rw [hfile, update_of_ne hp]

theorem Inv.write (h : Inv world) {id : U64} {target : String} {bytes unwritten : List UInt8}
    {file : Nat} (n : Nat)
    (hcall : world.calls call = some ⟨id, target, bytes, .staged file unwritten⟩) :
    Inv { world with
      disk := world.disk.append file (unwritten.take n)
      calls := update world.calls call
        (some ⟨id, target, bytes, .staged file (unwritten.drop n)⟩) } := by
  obtain ⟨hbytes, hnames⟩ := (h.onDisk hcall).staged rfl
  apply h.update_call hcall
  · intro q hq
    rw [Option.some.injEq] at hq
    subst hq
    refine ⟨rfl, (h.onDisk hcall).target, nofun, fun {file' rest} hstage => ?_⟩
    cases hstage
    refine ⟨?_, hnames⟩
    rw [Disk.append_content_self, List.append_assoc, List.take_append_drop]
    exact hbytes
  · intro file' hfile
    rw [Disk.append_file, h.file_stagedName hcall rfl, Option.some.injEq] at hfile
    exact ⟨_, unwritten.drop n, rfl, by rw [hfile]⟩
  · exact fun id' _ => rfl
  · intro call' q file' rest hne hq hstage
    exact ⟨Disk.append_content_of_ne _ (h.file_ne hcall hq hne rfl hstage) _, fun p => Iff.rfl⟩

theorem Inv.rename (h : Inv world) {id : U64} {target : String} {bytes : List UInt8} {file : Nat}
    (hcall : world.calls call = some ⟨id, target, bytes, .staged file []⟩) :
    Inv { world with
      disk := (world.disk.rename (stagedName id) target).getD world.disk
      calls := update world.calls call none } := by
  obtain ⟨disk', hdisk, hfile, hcontent, -⟩ :=
    Disk.rename_of_some (h.file_stagedName hcall rfl) target
  rw [hdisk, Option.getD_some]
  have htarget := (h.onDisk hcall).target
  apply h.update_call hcall
  · intro q hq
    cases hq
  · intro file' hfile'
    rw [hfile, update_of_ne (htarget id).symm, update_self] at hfile'
    cases hfile'
  · intro id' hne
    rw [hfile, update_of_ne (htarget id').symm,
      update_of_ne fun hname => hne (stagedName_inj hname)]
  · intro call' q file' rest hne hq hstage
    refine ⟨by rw [hcontent], fun p => ?_⟩
    have hnames := ((h.onDisk hq).staged hstage).2 p
    have hid : q.id ≠ id := fun hid => hne (h.apart hq hcall hid)
    by_cases hp : p = target
    · subst hp
      rw [hfile, update_self, hnames, Option.some.injEq]
      exact iff_of_false (h.file_ne hcall hq hne rfl hstage).symm (htarget q.id)
    · rw [hfile, update_of_ne hp]
      by_cases hp' : p = stagedName id
      · subst hp'
        rw [update_self, hnames]
        exact iff_of_false (by simp) fun hname => hid (stagedName_inj hname).symm
      · rw [update_of_ne hp']

theorem Inv.removeFile (h : Inv world) {path : String} (hpath : ∀ id, path ≠ stagedName id) :
    Inv { world with disk := world.disk.remove path } := by
  have hname : ∀ id, (world.disk.remove path).file (stagedName id) =
      world.disk.file (stagedName id) := by
    intro id
    rw [Disk.remove_file, update_of_ne (hpath id).symm]
  refine ⟨h.begun, h.apart, fun {id file} hfile => h.owned ((hname id).symm.trans hfile),
    fun {call q} hq => (h.onDisk hq).frame (hname q.id) fun {file rest} hstage =>
      ⟨rfl, fun p => ?_⟩⟩
  by_cases hp : p = path
  · subst hp
    rw [Disk.remove_file, update_self, ((h.onDisk hq).staged hstage).2]
    exact iff_of_false (by simp) (hpath q.id)
  · rw [Disk.remove_file, update_of_ne hp]

end Inv

/-! ## What a step can do -/

/-- The steps that may come next, with what each of them finds, and the event it is to readers. -/
inductive Steps (world : World) : Action → Option Event → World → Prop
  | idle (a : Action) : Steps world a none world
  | replaceAtomically (target : String) (bytes : List UInt8)
      (ht : ∀ id, target ≠ stagedName id) (hunused : world.Unused) :
    Steps world (.replaceAtomically target bytes) none
      { world with
        nextId := world.nextId + 1
        taken := world.taken + 1
        calls := update world.calls world.taken (some ⟨world.nextId, target, bytes, .numbered⟩) }
  | takeNumber :
    Steps world .takeNumber none
      { world with nextId := world.nextId + 1, taken := world.taken + 1 }
  | create {call : Nat} {id : U64} {target : String} {bytes : List UInt8}
      (hcall : world.calls call = some ⟨id, target, bytes, .numbered⟩) :
    Steps world (.create call) none
      { world with
        disk := (world.disk.create (stagedName id)).1
        calls := update world.calls call
          (some ⟨id, target, bytes, .staged (world.disk.create (stagedName id)).2 bytes⟩) }
  | write {call : Nat} {id : U64} {target : String} {bytes : List UInt8} {file : Nat}
      {unwritten : List UInt8} (n : Nat)
      (hcall : world.calls call = some ⟨id, target, bytes, .staged file unwritten⟩) :
    Steps world (.write call n) none
      { world with
        disk := world.disk.append file (unwritten.take n)
        calls := update world.calls call
          (some ⟨id, target, bytes, .staged file (unwritten.drop n)⟩) }
  | rename {call : Nat} {id : U64} {target : String} {bytes : List UInt8} {file : Nat}
      (hcall : world.calls call = some ⟨id, target, bytes, .staged file []⟩) :
    Steps world (.rename call) (some (.put target bytes))
      { world with
        disk := (world.disk.rename (stagedName id) target).getD world.disk
        calls := update world.calls call none }
  | removeFile (path : String) (hpath : ∀ id, path ≠ stagedName id) :
    Steps world (.removeFile path) (some (.erase path))
      { world with disk := world.disk.remove path }

section Steps

variable {world : World}

theorem Inv.steps (h : Inv world) {a : Action} (ha : world.Allows a) :
    Steps world a (world.effect a) (world.step a) := by
  cases a with
  | replaceAtomically target bytes =>
    exact .replaceAtomically target bytes ha.conventional (ha.unused rfl)
  | takeNumber => exact .takeNumber
  | create call =>
    simp only [step]
    split
    · rename_i id target bytes hcall
      exact .create hcall
    · exact .idle _
  | write call n =>
    simp only [step]
    split
    · rename_i id target bytes file unwritten hcall
      rw [Disk.write_end _ (h.length_content hcall rfl)]
      exact .write n hcall
    · exact .idle _
  | rename call =>
    simp only [step, effect]
    split
    · rename_i id target bytes file hcall
      exact .rename hcall
    · exact .idle _
  | removeFile path => exact .removeFile path ha.conventional
  | overwrite path bytes => exact ha.conventional.elim

/-- **Every step of the convention keeps the invariant.** -/
theorem Inv.step (h : Inv world) {a : Action} (ha : world.Allows a) : Inv (world.step a) := by
  have hs := h.steps ha
  revert hs
  generalize world.step a = world', world.effect a = event
  intro hs
  cases hs with
  | idle => exact h
  | replaceAtomically target bytes ht hunused => exact h.replaceAtomically ht hunused bytes
  | takeNumber => exact h.takeNumber
  | create hcall => exact h.create hcall
  | write n hcall => exact h.write n hcall
  | rename hcall => exact h.rename hcall
  | removeFile path hpath => exact h.removeFile hpath

theorem Inv.run (h : Inv world) {actions : List Action} (ha : world.Orderly actions) :
    Inv (world.run actions) := by
  induction actions generalizing world with
  | nil => exact h
  | cons a actions ih =>
    obtain ⟨hstep, hrest⟩ := ha
    exact ih (h.step hstep) hrest

end Steps

/-! ## What readers see -/

section Visible

variable {world : World}

/-- **Readers see a step as its event.** -/
theorem visible_step (h : Inv world) {a : Action} (ha : world.Allows a) {path : String}
    (hpath : ∀ id, path ≠ stagedName id) :
    (world.step a).visible path =
      (world.effect a).elim (world.visible path) (Event.update path (world.visible path)) := by
  have hs := h.steps ha
  revert hs
  generalize world.step a = world', world.effect a = event
  intro hs
  unfold visible Disk.read
  cases hs with
  | idle => rfl
  | replaceAtomically target bytes => rfl
  | takeNumber => rfl
  | @create call id target bytes hcall =>
    obtain ⟨-, hfile, hcontent, -⟩ := Disk.create_of_none ((h.onDisk hcall).numbered rfl)
    simp only [Option.elim_none, hfile, hcontent, update_of_ne (hpath id)]
    refine Option.map_congr fun file hmem => ?_
    exact update_of_ne (Nat.ne_of_lt (world.disk.created hmem)) _ _
  | @write call id target bytes file unwritten n hcall =>
    refine Option.map_congr fun file' hmem => Disk.append_content_of_ne _ ?_ _
    intro heq
    subst heq
    exact hpath id ((((h.onDisk hcall).staged rfl).2 path).mp hmem)
  | @rename call id target bytes file hcall =>
    obtain ⟨disk', hdisk, hfile, hcontent, -⟩ :=
      Disk.rename_of_some (h.file_stagedName hcall rfl) target
    obtain ⟨hbytes, -⟩ := (h.onDisk hcall).staged rfl
    simp only [hdisk, Option.getD_some, hfile, hcontent, Option.elim_some, Event.update]
    by_cases hp : path = target
    · subst hp
      simpa using hbytes
    · rw [update_of_ne hp, update_of_ne (hpath id), if_neg hp]
  | removeFile p =>
    simp only [Option.elim_some, Event.update, Disk.remove_file, Disk.remove_content]
    by_cases hp : path = p
    · simp [hp]
    · rw [update_of_ne hp, if_neg hp]

/-- What a reader may come to find at `path` without any further call: what is there, and what a
call in progress is going to put there. -/
def Offers (world : World) (path : String) (bytes : List UInt8) : Prop :=
  world.visible path = some bytes ∨
    ∃ call r, world.calls call = some r ∧ r.target = path ∧ r.bytes = bytes

theorem offers_step (h : Inv world) {a : Action} (ha : world.Allows a) {path : String}
    (hpath : ∀ id, path ≠ stagedName id) {bytes : List UInt8}
    (ho : (world.step a).Offers path bytes) :
    world.Offers path bytes ∨ a = .replaceAtomically path bytes := by
  rcases ho with hvisible | ⟨call, r, hcall, rfl, rfl⟩
  · rw [visible_step h ha hpath] at hvisible
    refine .inl ?_
    have hs := h.steps ha
    revert hs hvisible
    generalize world.step a = world', world.effect a = event
    intro hvisible hs
    cases hs with
    | @rename call id target bytes' file hcall =>
      simp only [Option.elim_some, Event.update] at hvisible
      split at hvisible
      · rename_i htarget
        exact .inr ⟨call, _, hcall, htarget.symm, Option.some.inj hvisible⟩
      · exact .inl hvisible
    | removeFile p =>
      simp only [Option.elim_some, Event.update] at hvisible
      split at hvisible
      · cases hvisible
      · exact .inl hvisible
    | _ => exact .inl hvisible
  · rcases calls_step hcall with ⟨stage, hcall'⟩ | ⟨h, -⟩
    · exact .inl (.inr ⟨call, _, hcall', rfl, rfl⟩)
    · exact .inr h

/-- **Readers find nothing but whole contents**: those that were there, and those of the calls. -/
theorem offers_run (h : Inv world) {actions : List Action} (ha : world.Orderly actions)
    {path : String} (hpath : ∀ id, path ≠ stagedName id) {bytes : List UInt8}
    (ho : (world.run actions).Offers path bytes) :
    world.Offers path bytes ∨ .replaceAtomically path bytes ∈ actions := by
  induction actions generalizing world with
  | nil => exact .inl ho
  | cons a actions ih =>
    obtain ⟨hstep, hrest⟩ := ha
    rcases ih (h.step hstep) hrest ho with hfirst | hmem
    · rcases offers_step h hstep hpath hfirst with hworld | rfl
      · exact .inl hworld
      · exact .inr List.mem_cons_self
    · exact .inr (List.mem_cons_of_mem a hmem)

theorem data_ne_stagedName (id : U64) : "data.bin" ≠ stagedName id := by
  intro h
  have hlist := congrArg String.toList h
  simp [stagedName] at hlist

end Visible

/-! ## Calls that come to their end -/

/-- The steps of a call with the content `bytes`, from a stage up to its end: it creates the staged
file, writes in pieces of any sizes, and renames when nothing is left to be written. -/
inductive Finishes (call : Nat) (bytes : List UInt8) : Stage → List Action → Prop
  | create {own : List Action} (h : ∀ file, Finishes call bytes (.staged file bytes) own) :
    Finishes call bytes .numbered (.create call :: own)
  | write {file : Nat} {unwritten : List UInt8} {own : List Action} (n : Nat)
      (h : Finishes call bytes (.staged file (unwritten.drop n)) own) :
    Finishes call bytes (.staged file unwritten) (.write call n :: own)
  | rename (file : Nat) : Finishes call bytes (.staged file []) [.rename call]

section Finishes

variable {world : World} {call : Nat}

/-- The steps of others leave a call where it is. -/
theorem step_calls_of_ne (h : Inv world) {r : Replacement} (hcall : world.calls call = some r)
    {a : Action} (ha : world.Allows a) (hne : a.call ≠ some call) :
    (world.step a).calls call = some r := by
  have hs := h.steps ha
  revert hs
  generalize world.step a = world', world.effect a = event
  intro hs
  cases hs with
  | idle => exact hcall
  | replaceAtomically target bytes =>
    exact (update_of_ne (Nat.ne_of_lt (h.begun hcall)) _ _).trans hcall
  | takeNumber => exact hcall
  | create hcall' =>
    exact (update_of_ne (fun heq => hne (congrArg some heq.symm)) _ _).trans hcall
  | write n hcall' =>
    exact (update_of_ne (fun heq => hne (congrArg some heq.symm)) _ _).trans hcall
  | rename hcall' =>
    exact (update_of_ne (fun heq => hne (congrArg some heq.symm)) _ _).trans hcall
  | removeFile path => exact hcall

/-- A call whose own steps are all there, with any steps of others between them: it renames once. -/
theorem run_finishes (h : Inv world) {id : U64} {target : String} {bytes : List UInt8}
    {stage : Stage} (hcall : world.calls call = some ⟨id, target, bytes, stage⟩)
    {actions : List Action} (ha : world.Orderly actions)
    (hown : Finishes call bytes stage (actions.filter (·.call = some call))) :
    ∃ before after, actions = before ++ .rename call :: after ∧ .rename call ∉ before ∧
      .rename call ∉ after ∧ (∃ file, (world.run before).calls call =
        some ⟨id, target, bytes, .staged file []⟩) := by
  induction actions generalizing world stage with
  | nil => cases hown
  | cons a actions ih =>
    obtain ⟨hstep, hrest⟩ := ha
    by_cases hc : a.call = some call
    · rw [List.filter_cons_of_pos (by simpa using hc)] at hown
      generalize hfilter : actions.filter (·.call = some call) = own at hown
      cases hown with
      | create hown =>
        have hcall' : (world.step (.create call)).calls call =
            some ⟨id, target, bytes, .staged (world.disk.create (stagedName id)).2 bytes⟩ := by
          simp [step, hcall]
        obtain ⟨before, after, rfl, hbefore, hafter, hfile⟩ :=
          ih (h.step hstep) hcall' hrest (hfilter.symm ▸ hown _)
        exact ⟨.create call :: before, after, rfl, by simp [hbefore], hafter, hfile⟩
      | @write file unwritten _ n hown =>
        have hcall' : (world.step (.write call n)).calls call =
            some ⟨id, target, bytes, .staged file (unwritten.drop n)⟩ := by
          simp [step, hcall]
        obtain ⟨before, after, rfl, hbefore, hafter, hfile⟩ :=
          ih (h.step hstep) hcall' hrest (hfilter.symm ▸ hown)
        exact ⟨.write call n :: before, after, rfl, by simp [hbefore], hafter, hfile⟩
      | rename file =>
        -- it has no step after its rename
        have hafter : Action.rename call ∉ actions := by
          intro hmem
          have hnone := List.filter_eq_nil_iff.mp hfilter _ hmem
          simp [Action.call] at hnone
        exact ⟨[], actions, rfl, List.not_mem_nil, hafter, file, hcall⟩
    · rw [List.filter_cons_of_neg (by simpa using hc)] at hown
      obtain ⟨before, after, rfl, hbefore, hafter, hfile⟩ :=
        ih (h.step hstep) (step_calls_of_ne h hcall hstep hc) hrest hown
      have hne : Action.rename call ≠ a := by
        rintro rfl
        exact hc rfl
      exact ⟨a :: before, after, rfl, by simp [hne, hbefore], hafter, hfile⟩

end Finishes

/-! ## Files that are settled -/

/-- The file `file` exists, and no call is writing it. -/
def Settled (world : World) (file : Nat) : Prop :=
  file < world.disk.next ∧ ∀ {call r unwritten}, world.calls call = some r →
    r.stage ≠ .staged file unwritten

section Settled

variable {world : World} {file : Nat}

theorem Inv.settled (h : Inv world) {path : String} (hpath : ∀ id, path ≠ stagedName id)
    (hfile : world.disk.file path = some file) : Settled world file := by
  refine ⟨world.disk.created hfile, fun {call r unwritten} hcall hstage => ?_⟩
  exact hpath r.id ((((h.onDisk hcall).staged hstage).2 path).mp hfile)

theorem Settled.update_call (hf : Settled world file) {disk' : Disk String UInt8} {nextId' : U64}
    {taken' call : Nat} {r' : Option Replacement} (hnext : world.disk.next ≤ disk'.next)
    (hr' : ∀ {q unwritten}, r' = some q → q.stage ≠ .staged file unwritten) :
    Settled { disk := disk', nextId := nextId', taken := taken',
              calls := update world.calls call r' } file := by
  refine ⟨Nat.lt_of_lt_of_le hf.1 hnext, fun {call' q unwritten} hq => ?_⟩
  rcases of_update_eq_some hq with ⟨rfl, hnew⟩ | ⟨-, hold⟩
  · exact hr' hnew
  · exact hf.2 hold

/-- No step touches a settled file. -/
theorem Settled.step (hf : Settled world file) (h : Inv world) {a : Action}
    (ha : world.Allows a) :
    Settled (world.step a) file ∧ (world.step a).disk.content file = world.disk.content file := by
  have hs := h.steps ha
  revert hs
  generalize world.step a = world', world.effect a = event
  intro hs
  cases hs with
  | idle => exact ⟨hf, rfl⟩
  | replaceAtomically target bytes =>
    refine ⟨hf.update_call (Nat.le_refl _) fun {q unwritten} hq hstage => ?_, rfl⟩
    cases hq
    cases hstage
  | takeNumber => exact ⟨hf, rfl⟩
  | @create call id target bytes hcall =>
    have hnone : world.disk.file (stagedName id) = none := (h.onDisk hcall).numbered rfl
    obtain ⟨hnew, -, hcontent, hnext⟩ := Disk.create_of_none hnone
    refine ⟨hf.update_call (by omega) fun {q unwritten} hq hstage => ?_, ?_⟩
    · cases hq
      simp only [Stage.staged.injEq, hnew] at hstage
      exact Nat.ne_of_gt hf.1 hstage.1
    · show (world.disk.create (stagedName id)).1.content file = _
      rw [hcontent, update_of_ne (Nat.ne_of_lt hf.1)]
  | @write call id target bytes file' unwritten n hcall =>
    have hne : file' ≠ file := by
      intro heq
      subst heq
      exact hf.2 hcall rfl
    refine ⟨hf.update_call (Nat.le_refl _) fun {q rest} hq hstage => ?_,
      Disk.append_content_of_ne _ hne.symm _⟩
    cases hq
    exact hne (Stage.staged.inj hstage).1
  | @rename call id target bytes file' hcall =>
    obtain ⟨disk', hdisk, -, hcontent, hnext⟩ :=
      Disk.rename_of_some (h.file_stagedName hcall rfl) target
    rw [hdisk, Option.getD_some]
    exact ⟨hf.update_call (Nat.le_of_eq hnext.symm) nofun, by rw [hcontent]⟩
  | removeFile p => exact ⟨hf, rfl⟩

/-- **A settled file keeps its content for good**, whether its path is replaced, taken away or
replaced again, in every order of steps. -/
theorem Settled.run (hf : Settled world file) (h : Inv world) {actions : List Action}
    (ha : world.Orderly actions) :
    Settled (world.run actions) file ∧
      (world.run actions).disk.content file = world.disk.content file := by
  induction actions generalizing world with
  | nil => exact ⟨hf, rfl⟩
  | cons a actions ih =>
    obtain ⟨hstep, hrest⟩ := ha
    obtain ⟨hf', hcontent⟩ := hf.step h hstep
    obtain ⟨hrun, hcontent'⟩ := ih hf' (h.step hstep) hrest
    exact ⟨hrun, hcontent'.trans hcontent⟩

/-- Outside the convention: a file that is written in place loses its content. -/
theorem content_overwrite {path : String} (hfile : world.disk.file path = some file)
    (bytes : List UInt8) :
    (world.step (.overwrite path bytes)).disk.content file = bytes := by
  obtain ⟨hcreated, hcontent⟩ := Disk.create_of_some hfile
  simp [step, hcreated, hcontent]

end Settled

end World

end MmapCursor
