import Mathlib.Data.List.Basic

/-!
# Texts of records

A text of records is a list of fields, each closed by one symbol, with another symbol between two of
them, as `a;\nb;\nc;`.  Every list of symbols is such a text up to some point, where the last closed
field ends or where one is left open.

* `Text` — the ways in which a list of symbols is one; `exists_render`, `render_inj` — every list is
  in exactly one way.
* `Text.read` — the fields, and what follows them; `read_eq_some_iff`, `read_eq_none_iff` — the
  lists of symbols that can and that cannot be read.
-/

set_option autoImplicit false

namespace Records

variable {α : Type} {d j : α}

/-- The fields, each closed by `d`, with `j` between them. -/
def join (d j : α) : List (List α) → List α
  | [] => []
  | [field] => field ++ [d]
  | field :: next :: fields => field ++ d :: j :: join d j (next :: fields)

/-- A list of symbols, cut into the fields in front of each `d`, as long as `j` follows it. -/
inductive Text (d j : α) where
  /-- No `d` closes this field. -/
  | unclosed (field : List α) (hfield : d ∉ field)
  /-- No `j` announces a field behind this one. -/
  | last (field tail : List α) (hfield : d ∉ field) (htail : tail.head? ≠ some j)
  | more (field : List α) (hfield : d ∉ field) (text : Text d j)

namespace Text

/-- The list of symbols. -/
def render : Text d j → List α
  | unclosed field _ => field
  | last field tail _ _ => field ++ d :: tail
  | more field _ text => field ++ d :: j :: text.render

/-- The fields, and what is left behind them; nothing if one is not closed. -/
def read : Text d j → Option (List (List α) × List α)
  | unclosed _ _ => none
  | last field tail _ _ => some ([field], tail)
  | more field _ text => text.read.map fun result => (field :: result.1, result.2)

/-- **Every list of symbols** is a text of records. -/
theorem exists_render (d j : α) (u : List α) : ∃ text : Text d j, text.render = u := by
  induction hn : u.length using Nat.strongRecOn generalizing u with
  | ind n ih =>
    by_cases hd : d ∈ u
    · obtain ⟨field, tail, rfl, hfield⟩ := List.eq_append_cons_of_mem hd
      by_cases htail : tail.head? = some j
      · obtain ⟨rest, rfl⟩ := List.head?_eq_some_iff.mp htail
        obtain ⟨text, htext⟩ := ih rest.length (by simp at hn; omega) rest rfl
        exact ⟨more field hfield text, by rw [render, htext]⟩
      · exact ⟨last field tail hfield htail, rfl⟩
    · exact ⟨unclosed u hd, rfl⟩

theorem split_field {f g r s : List α} (hf : d ∉ f) (hg : d ∉ g) (h : f ++ d :: r = g ++ d :: s) :
    f = g ∧ r = s := by
  induction f generalizing g with
  | nil =>
    cases g with
    | nil => exact ⟨rfl, (List.cons.inj h).2⟩
    | cons b g => simp [(List.cons.inj h).1] at hg
  | cons a f ih =>
    cases g with
    | nil => simp [(List.cons.inj h).1] at hf
    | cons b g =>
      obtain ⟨rfl, hrest⟩ := List.cons.inj h
      obtain ⟨rfl, hrs⟩ :=
        ih (List.not_mem_of_not_mem_cons hf) (List.not_mem_of_not_mem_cons hg) hrest
      exact ⟨rfl, hrs⟩

theorem unclosed_ne {field f r : List α} (hfield : d ∉ field) : field ≠ f ++ d :: r := by
  rintro rfl
  simp at hfield

/-- **In exactly one way.** -/
theorem render_inj {s t : Text d j} (h : s.render = t.render) : s = t := by
  induction s generalizing t with
  | unclosed f hf =>
    cases t with
    | unclosed g hg => simpa [render] using h
    | last g tail hg htail => exact absurd h (unclosed_ne hf)
    | more g hg t => exact absurd h (unclosed_ne hf)
  | last f r hf hr =>
    cases t with
    | unclosed g hg => exact absurd h.symm (unclosed_ne hg)
    | last g tail hg htail =>
      obtain ⟨rfl, rfl⟩ := split_field hf hg h
      rfl
    | more g hg t =>
      obtain ⟨-, rfl⟩ := split_field hf hg h
      simp at hr
  | more f hf s ih =>
    cases t with
    | unclosed g hg => exact absurd h.symm (unclosed_ne hg)
    | last g tail hg htail =>
      obtain ⟨-, rfl⟩ := split_field hf hg h
      simp at htail
    | more g hg t =>
      obtain ⟨rfl, hrest⟩ := split_field hf hg h
      rw [ih (List.cons.inj hrest).2]

/-! ## What can be read -/

theorem join_cons {fields : List (List α)} (h : fields ≠ []) (field : List α) :
    join d j (field :: fields) = field ++ d :: j :: join d j fields := by
  obtain ⟨next, fields, rfl⟩ := List.exists_cons_of_ne_nil h
  rfl

theorem exists_join {fields : List (List α)} {tail : List α} (hne : fields ≠ [])
    (hfields : ∀ field ∈ fields, d ∉ field) (htail : tail.head? ≠ some j) :
    ∃ text : Text d j, text.render = join d j fields ++ tail ∧ text.read = some (fields, tail) := by
  induction fields with
  | nil => exact absurd rfl hne
  | cons field fields ih =>
    have hfield := hfields field List.mem_cons_self
    cases fields with
    | nil => exact ⟨last field tail hfield htail, by simp [render, join], rfl⟩
    | cons next fields =>
      obtain ⟨text, hrender, hread⟩ := ih (List.cons_ne_nil _ _)
        fun f hf => hfields f (List.mem_cons_of_mem field hf)
      exact ⟨more field hfield text, by simp [render, hrender, join], by simp [read, hread]⟩

theorem exists_unclosed {fields : List (List α)} {u : List α}
    (hfields : ∀ field ∈ fields, d ∉ field) (hu : d ∉ u) :
    ∃ text : Text d j, text.render = fields.flatMap (· ++ [d, j]) ++ u ∧ text.read = none := by
  induction fields with
  | nil => exact ⟨unclosed u hu, rfl, rfl⟩
  | cons field fields ih =>
    obtain ⟨text, hrender, hread⟩ := ih fun f hf => hfields f (List.mem_cons_of_mem field hf)
    refine ⟨more field (hfields field List.mem_cons_self) text, ?_, by simp [read, hread]⟩
    simp [render, hrender]

theorem render_of_read {text : Text d j} {fields : List (List α)} {tail : List α}
    (h : text.read = some (fields, tail)) :
    text.render = join d j fields ++ tail ∧ fields ≠ [] ∧ (∀ field ∈ fields, d ∉ field) ∧
      tail.head? ≠ some j := by
  induction text generalizing fields with
  | unclosed field hfield => cases h
  | last field rest hfield htail =>
    cases h
    exact ⟨by simp [render, join], List.cons_ne_nil _ _, by simpa using hfield, htail⟩
  | more field hfield text ih =>
    obtain ⟨⟨rest, tail'⟩, hread, heq⟩ := Option.map_eq_some_iff.mp h
    cases heq
    obtain ⟨hrender, hne, hfields, htail⟩ := ih hread
    refine ⟨?_, List.cons_ne_nil _ _, List.forall_mem_cons.mpr ⟨hfield, hfields⟩, htail⟩
    simp [render, hrender, join_cons hne]

theorem render_of_read_none {text : Text d j} (h : text.read = none) :
    ∃ (fields : List (List α)) (u : List α), text.render = fields.flatMap (· ++ [d, j]) ++ u ∧
      (∀ field ∈ fields, d ∉ field) ∧ d ∉ u := by
  induction text with
  | unclosed field hfield => exact ⟨[], field, rfl, nofun, hfield⟩
  | last field tail hfield htail => cases h
  | more field hfield text ih =>
    obtain ⟨fields, u, hrender, hfields, hu⟩ := ih (Option.map_eq_none_iff.mp h)
    refine ⟨field :: fields, u, ?_, List.forall_mem_cons.mpr ⟨hfield, hfields⟩, hu⟩
    simp [render, hrender]

/-- **What is read**: at least one field, as long as another one is announced. -/
theorem read_eq_some_iff {text : Text d j} {fields : List (List α)} {tail : List α} :
    text.read = some (fields, tail) ↔
      text.render = join d j fields ++ tail ∧ fields ≠ [] ∧ (∀ field ∈ fields, d ∉ field) ∧
        tail.head? ≠ some j := by
  refine ⟨render_of_read, ?_⟩
  rintro ⟨hrender, hne, hfields, htail⟩
  obtain ⟨text', hrender', hread⟩ := exists_join hne hfields htail
  rwa [render_inj (hrender.trans hrender'.symm)]

/-- **What is not**: an announced field, or the first one, is left open. -/
theorem read_eq_none_iff {text : Text d j} :
    text.read = none ↔ ∃ (fields : List (List α)) (u : List α),
      text.render = fields.flatMap (· ++ [d, j]) ++ u ∧ (∀ field ∈ fields, d ∉ field) ∧ d ∉ u := by
  refine ⟨render_of_read_none, ?_⟩
  rintro ⟨fields, u, hrender, hfields, hu⟩
  obtain ⟨text', hrender', hread⟩ := exists_unclosed (j := j) hfields hu
  rwa [render_inj (hrender.trans hrender'.symm)]

end Text

end Records
