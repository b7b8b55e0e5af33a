import MmapCursor.Position
import MmapCursor.Lib.Decimal

/-!
# Directories of their own

Model of how `TempDir::new` (`tests/support/mod.rs`) names its directory, in any number of processes
that call it in any order: a process has its own `NEXT_ID`, which `replace_atomically` counts up as
well, and the name holds the process id and the number.

`tempDirs_nodup`: no two calls are given the same directory, until a counter wraps or the system
gives a process id a second time.
-/

set_option autoImplicit false

namespace MmapCursor

open Function

/-- `format!("mmap-cursor-test-{}-{id}-{tag}", process::id())`. -/
def tempDirName (pid : Nat) (id : U64) (tag : String) : String :=
  "mmap-cursor-test-" ++ (toString pid ++ ("-" ++ (toString id.toNat ++ ("-" ++ tag))))

theorem tempDirName_inj {pid pid' : Nat} {id id' : U64} {tag tag' : String}
    (h : tempDirName pid id tag = tempDirName pid' id' tag') : pid = pid' ∧ id = id' := by
  obtain ⟨hpid, hrest⟩ := Decimal.split_text (by simp) (by simp) h
  obtain ⟨hid, -⟩ := Decimal.split_text (by simp) (by simp) hrest
  exact ⟨hpid, BitVec.eq_of_toNat_eq hid⟩

/-- A call in one of the processes that takes a number: `TempDir::new(tag)`, or
`replace_atomically`, which has no tag. -/
structure Numbering where
  process : Nat
  tag : Option String
  deriving DecidableEq, Repr

/-- The directories of the calls, from the counters `next` of the processes on:
`NEXT_ID.fetch_add(1)` for each. -/
def tempDirs (pid : Nat → Nat) (next : Nat → U64) : List Numbering → List String
  | [] => []
  | call :: calls =>
    (call.tag.map (tempDirName (pid call.process) (next call.process))).toList ++
      tempDirs pid (update next call.process (next call.process + 1)) calls

theorem mem_tempDirs {pid : Nat → Nat} {next : Nat → U64} {calls : List Numbering} {name : String}
    (h : name ∈ tempDirs pid next calls) :
    ∃ call ∈ calls, ∃ tag i, i < calls.countP (·.process = call.process) ∧
      name = tempDirName (pid call.process) (next call.process + BitVec.ofNat 64 i) tag := by
  induction calls generalizing next with
  | nil => cases h
  | cons call calls ih =>
    rw [tempDirs, List.mem_append, Option.mem_toList, Option.map_eq_some_iff] at h
    rcases h with ⟨tag, -, rfl⟩ | h
    · exact ⟨call, List.mem_cons_self, tag, 0, by simp, by simp⟩
    · obtain ⟨call', hmem, tag, i, hi, rfl⟩ := ih h
      by_cases hp : call'.process = call.process
      · refine ⟨call', List.mem_cons_of_mem call hmem, tag, i + 1, ?_, ?_⟩
        · rw [List.countP_cons_of_pos (by simpa using hp.symm)]
          omega
        · rw [hp, update_self, Words.count_up]
      · refine ⟨call', List.mem_cons_of_mem call hmem, tag, i, ?_, by rw [update_of_ne hp]⟩
        rw [List.countP_cons]
        omega

/-- **No two calls share a directory**, in whatever order the processes call, as long as they have
ids of their own and none of them makes more than `2 ^ 64` calls. -/
theorem tempDirs_nodup {pid : Nat → Nat} {calls : List Numbering}
    (hpid : ∀ call ∈ calls, ∀ call' ∈ calls, pid call.process = pid call'.process →
      call.process = call'.process)
    (next : Nat → U64) (h : ∀ process, calls.countP (·.process = process) ≤ 2 ^ 64) :
    (tempDirs pid next calls).Nodup := by
  induction calls generalizing next with
  | nil => exact List.nodup_nil
  | cons call calls ih =>
    have hrest : ∀ process, calls.countP (·.process = process) ≤ 2 ^ 64 := by
      intro process
      have hprocess := h process
      rw [List.countP_cons] at hprocess
      omega
    have htail := ih (fun c hc c' hc' => hpid c (List.mem_cons_of_mem call hc) c'
      (List.mem_cons_of_mem call hc')) (update next call.process (next call.process + 1)) hrest
    rw [tempDirs]
    cases htag : call.tag with
    | none => exact htail
    | some tag =>
      refine List.nodup_cons.mpr ⟨fun hmem => ?_, htail⟩
      obtain ⟨call', hcall', tag', i, hi, hname⟩ := mem_tempDirs hmem
      obtain ⟨hsame, hid⟩ := tempDirName_inj hname
      have hprocess := hpid call List.mem_cons_self call' (List.mem_cons_of_mem call hcall') hsame
      -- the later call of the process would have to have wrapped the counter
      have hcount := h call.process
      rw [List.countP_cons_of_pos (by simp)] at hcount
      rw [← hprocess] at hi hid
      rw [update_self, Words.count_up] at hid
      exact Words.count_ne _ (Nat.succ_pos i) (by omega) hid.symm

/-- One tag in two processes, one of which takes a number for a staged file in between. -/
theorem tempDirs_nodup_one_tag :
    (tempDirs (fun process => 4000 + process) (fun _ => 0) [⟨1, some "rename"⟩, ⟨2, some "rename"⟩,
      ⟨1, none⟩, ⟨1, some "rename"⟩]).Nodup :=
  tempDirs_nodup (fun _ _ _ _ h => Nat.add_left_cancel h) _ fun _ =>
    Nat.le_trans List.countP_le_length (by simp)

/-- Two processes with one id, and both with their first number. -/
example : tempDirs (fun _ => 4000) (fun _ => 0) [⟨1, some "rename"⟩, ⟨2, some "rename"⟩] =
    ["mmap-cursor-test-4000-0-rename", "mmap-cursor-test-4000-0-rename"] := by decide

end MmapCursor
