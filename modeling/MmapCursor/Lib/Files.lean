import Mathlib.Data.List.TakeDrop
import Mathlib.Logic.Function.Basic

/-!
# Names and files

A disk on which names refer to files, and files hold their content, so that a name may be given to
another file, or be taken away, while the file it used to refer to lives on.

* `Disk` — the names, the contents, and a supply of new files; every named file has been created.
* `create`, `write`, `rename`, `remove` — what a file system does with them; after `read`, the
  content behind a name, the frame lemmas say what each of them leaves alone.
* `write_end` — to write at the end of a file is to `append`.
-/

set_option autoImplicit false

namespace Files

open Function

/-- What an updated table holds, it held before, unless it is the new entry. -/
theorem of_update_eq_some {κ β : Type} [DecidableEq κ] {f : κ → Option β} {k l : κ} {v : Option β}
    {x : β} (h : update f k v l = some x) : (l = k ∧ v = some x) ∨ (l ≠ k ∧ f l = some x) := by
  by_cases hl : l = k
  · subst hl
    rw [update_self] at h
    exact Or.inl ⟨rfl, h⟩
  · rw [update_of_ne hl] at h
    exact Or.inr ⟨hl, h⟩

/-- Names, and the files they refer to. -/
structure Disk (Path α : Type) where
  file : Path → Option Nat
  content : Nat → List α
  next : Nat
  created : ∀ {p : Path} {i : Nat}, file p = some i → i < next

namespace Disk

variable {Path α : Type}

/-- No names, and no files. -/
def empty : Disk Path α := ⟨fun _ => none, fun _ => [], 0, nofun⟩

/-- The content behind a name. -/
def read (d : Disk Path α) (p : Path) : Option (List α) := (d.file p).map d.content

/-- Write `s` behind the content of the file `i`. -/
def append (d : Disk Path α) (i : Nat) (s : List α) : Disk Path α :=
  { d with content := update d.content i (d.content i ++ s) }

@[simp] theorem append_file (d : Disk Path α) (i : Nat) (s : List α) :
    (d.append i s).file = d.file := rfl

@[simp] theorem append_content_self (d : Disk Path α) (i : Nat) (s : List α) :
    (d.append i s).content i = d.content i ++ s := by
  simp [append]

theorem append_content_of_ne (d : Disk Path α) {i j : Nat} (h : j ≠ i) (s : List α) :
    (d.append i s).content j = d.content j := by
  simp [append, h]

/-- Write `s` into the file `i` from `offset` on; what lies between its end and `offset` is filled
up. -/
def write [Inhabited α] (d : Disk Path α) (i offset : Nat) (s : List α) : Disk Path α :=
  if s.isEmpty then d
  else
    { d with
      content := update d.content i
        ((d.content i).takeD offset default ++ s ++ (d.content i).drop (offset + s.length)) }

theorem write_end [Inhabited α] (d : Disk Path α) {i offset : Nat}
    (h : (d.content i).length = offset) (s : List α) : d.write i offset s = d.append i s := by
  subst h
  unfold write append
  by_cases hs : s.isEmpty
  · rw [if_pos hs, List.isEmpty_iff.mp hs, List.append_nil, update_eq_self]
  · rw [if_neg hs, List.takeD_eq_take _ (Nat.le_refl _), List.take_length,
      List.drop_of_length_le (Nat.le_add_right _ _), List.append_nil]

section Names

variable [DecidableEq Path]

/-- Open a file for writing: empty it, or make a new one if there is none of that name. -/
def create (d : Disk Path α) (p : Path) : Disk Path α × Nat :=
  match h : d.file p with
  | some i => ({ d with content := update d.content i [] }, i)
  | none =>
    ({ file := update d.file p (some d.next)
       content := update d.content d.next []
       next := d.next + 1
       created := by
        intro q i hq
        by_cases hqp : q = p
        · subst hqp
          simp at hq
          omega
        · rw [update_of_ne hqp] at hq
          exact Nat.lt_succ_of_lt (d.created hq) }, d.next)

theorem create_of_none {d : Disk Path α} {p : Path} (h : d.file p = none) :
    (d.create p).2 = d.next ∧ (d.create p).1.file = update d.file p (some d.next) ∧
      (d.create p).1.content = update d.content d.next [] ∧ (d.create p).1.next = d.next + 1 := by
  unfold create
  split
  · rename_i i hi
    rw [h] at hi
    cases hi
  · exact ⟨rfl, rfl, rfl, rfl⟩

theorem create_of_some {d : Disk Path α} {p : Path} {i : Nat} (h : d.file p = some i) :
    (d.create p).2 = i ∧ (d.create p).1.content = update d.content i [] := by
  unfold create
  split
  · rename_i j hj
    obtain rfl : i = j := Option.some.inj (h.symm.trans hj)
    exact ⟨rfl, rfl⟩
  · rename_i hnone
    rw [h] at hnone
    cases hnone

/-- Take a name away.  The file stays. -/
def remove (d : Disk Path α) (p : Path) : Disk Path α :=
  { d with
    file := update d.file p none
    created := by
      intro q i hq
      by_cases hqp : q = p
      · subst hqp
        simp at hq
      · rw [update_of_ne hqp] at hq
        exact d.created hq }

@[simp] theorem remove_file (d : Disk Path α) (p : Path) :
    (d.remove p).file = update d.file p none := rfl

@[simp] theorem remove_content (d : Disk Path α) (p : Path) :
    (d.remove p).content = d.content := rfl

/-- Give the file named `p` the name `q`, which its former file loses; fails if `p` names none. -/
def rename (d : Disk Path α) (p q : Path) : Option (Disk Path α) :=
  match h : d.file p with
  | none => none
  | some i =>
    some { d with
      file := update (update d.file p none) q (some i)
      created := by
        intro r j hr
        by_cases hrq : r = q
        · subst hrq
          rw [update_self, Option.some.injEq] at hr
          exact hr ▸ d.created h
        · rw [update_of_ne hrq] at hr
          exact (d.remove p).created hr }

theorem rename_of_some {d : Disk Path α} {p : Path} {i : Nat} (h : d.file p = some i) (q : Path) :
    ∃ d', d.rename p q = some d' ∧ d'.file = update (update d.file p none) q (some i) ∧
      d'.content = d.content ∧ d'.next = d.next := by
  unfold rename
  split
  · rename_i hnone
    rw [h] at hnone
    cases hnone
  · rename_i j hj
    obtain rfl : i = j := Option.some.inj (h.symm.trans hj)
    exact ⟨_, rfl, rfl, rfl, rfl⟩

end Names

end Disk

end Files
