import Mathlib.Algebra.Order.Ring.Nat

/-!
# Texts with enclosed parts

A text in which parts are enclosed in brackets of two symbols each, as `/* … */`.  A bracket opens
the next part at its first occurrence, and the part goes on to the first closing bracket after it;
there is no nesting, and the last part may be left open.

* `Text` — the stretches of such a text, each free of the bracket that would end it: the grammar.
* `render_parse` — every list of symbols is the rendering of a `Text`.
* `Text.spans` — where the parts lie; `Text.covers` — every opening bracket begins in one of them.
* `exists_append` — the parts of two texts in a row.
* `scan_cases` — what a search for the first symbol of a bracket runs into.
-/

set_option autoImplicit false

namespace Enclosed

variable {α : Type}

/-- `a` and `b` do not stand next to each other. -/
def Free (a b : α) (l : List α) : Prop := ¬ [a, b] <:+: l

instance [DecidableEq α] (a b : α) (l : List α) : Decidable (Free a b l) :=
  inferInstanceAs (Decidable (¬ _))

variable {a b : α}

theorem free_nil : Free a b [] := by
  intro h
  simpa using h.length_le

theorem Free.of_infix {l m : List α} (h : Free a b m) (hl : l <:+: m) : Free a b l :=
  fun hp => h (hp.trans hl)

theorem free_cons {x : α} {l : List α} :
    Free a b (x :: l) ↔ ¬ (x = a ∧ l.head? = some b) ∧ Free a b l := by
  have hpre : [a, b] <+: x :: l ↔ x = a ∧ l.head? = some b := by
    rw [List.cons_prefix_cons]
    cases l with
    | nil => simp
    | cons y l => simp [List.cons_prefix_cons, eq_comm]
  unfold Free
  rw [List.infix_cons_iff, hpre, not_or]

theorem Free.not_at {l : List α} (h : Free a b l) {i : Nat} (ha : l[i]? = some a) :
    l[i + 1]? ≠ some b := by
  induction l generalizing i with
  | nil => cases ha
  | cons x l ih =>
    rw [free_cons] at h
    cases i with
    | zero =>
      rw [List.getElem?_cons_succ, ← List.head?_eq_getElem?]
      exact fun hb => h.1 ⟨Option.some.inj ha, hb⟩
    | succ i => exact ih h.2 ha

/-- Behind an `a` that is not followed by `b`, everything is as free as before. -/
theorem free_append {l m : List α} (hl : Free a b l) (hm : Free a b m)
    (hcut : ¬ (l.getLast? = some a ∧ m.head? = some b)) : Free a b (l ++ m) := by
  induction l with
  | nil => exact hm
  | cons x l ih =>
    rw [free_cons] at hl
    rw [List.cons_append, free_cons]
    cases l with
    | nil => exact ⟨by simpa using hcut, hm⟩
    | cons y l =>
      exact ⟨by simpa using hl.1, ih hl.2 (by simpa using hcut)⟩

/-- **The search for `a` in a stretch free of `a b`**, with nothing or with an `a` behind it: it
runs out of the stretch, or into an `a` that is not followed by `b`. -/
theorem scan_cases [DecidableEq α] {g rest : List α} (hab : a ≠ b) (hfree : Free a b g)
    (hrest : rest = [] ∨ rest.head? = some a) :
    (a ∉ g ∧ (g ++ rest).dropWhile (· != a) = rest) ∨
      ∃ p g', g = p ++ a :: g' ∧ (g ++ rest).dropWhile (· != a) = a :: (g' ++ rest) ∧
        (g' ++ rest).head? ≠ some b ∧ Free a b g' := by
  by_cases hmem : a ∈ g
  · obtain ⟨p, g', rfl, hp⟩ := List.eq_append_cons_of_mem hmem
    refine Or.inr ⟨p, g', rfl, ?_, ?_, hfree.of_infix ⟨p ++ [a], [], by simp⟩⟩
    · rw [List.append_assoc, List.dropWhile_append_of_pos]
      · simp
      · intro x hx
        simpa using ne_of_mem_of_not_mem hx hp
    · have hg' : Free a b (a :: g') := hfree.of_infix ⟨p, [], by simp⟩
      rw [free_cons] at hg'
      cases g' with
      | nil =>
        rcases hrest with rfl | hrest
        · simp
        · rw [List.nil_append, hrest]
          simpa using hab
      | cons x g' => simpa using hg'.1
  · refine Or.inl ⟨hmem, ?_⟩
    rw [List.dropWhile_append_of_pos]
    · rcases hrest with rfl | hrest
      · rfl
      · cases rest with
        | nil => rfl
        | cons x rest =>
          obtain rfl : x = a := by simpa using hrest
          simp
    · intro x hx
      simpa using ne_of_mem_of_not_mem hx hmem

/-! ## Cutting at the first bracket -/

section Cut

variable [DecidableEq α]

/-- What stands in front of the first `a b`, and what behind it, if there is one. -/
def cut (a b : α) : List α → List α × Option (List α)
  | [] => ([], none)
  | [x] => ([x], none)
  | x :: y :: l =>
    if x = a ∧ y = b then ([], some l)
    else
      let r := cut a b (y :: l)
      (x :: r.1, r.2)

theorem cut_eq (a b : α) (l : List α) :
    (cut a b l).1 ++ ((cut a b l).2.elim [] fun rest => a :: b :: rest) = l := by
  fun_induction cut a b l with
  | case1 => rfl
  | case2 x => rfl
  | case3 x y l hxy =>
    obtain ⟨rfl, rfl⟩ := hxy
    rfl
  | case4 x y l hxy r ih => exact congrArg (x :: ·) ih

theorem cut_none {l : List α} (h : (cut a b l).2 = none) : l = (cut a b l).1 := by
  conv => lhs; rw [← cut_eq a b l]
  rw [h]
  exact List.append_nil _

theorem cut_some {l rest : List α} (h : (cut a b l).2 = some rest) :
    l = (cut a b l).1 ++ a :: b :: rest := by
  conv => lhs; rw [← cut_eq a b l]
  rw [h]
  rfl

theorem length_of_cut_some {l rest : List α} (h : (cut a b l).2 = some rest) :
    rest.length < l.length := by
  have hlen := congrArg List.length (cut_some h)
  simp only [List.length_append, List.length_cons] at hlen
  omega

theorem cut_free (a b : α) (l : List α) : Free a b (cut a b l).1 := by
  fun_induction cut a b l with
  | case1 => exact free_nil
  | case2 x => exact free_cons.mpr ⟨by simp, free_nil⟩
  | case3 x y l hxy => exact free_nil
  | case4 x y l hxy r ih =>
    refine free_cons.mpr ⟨?_, ih⟩
    rintro ⟨rfl, hhead⟩
    -- the stretch begins with `y`: it is not empty
    have hy := congrArg List.head? (cut_eq x b (y :: l))
    rw [List.head?_append, hhead] at hy
    exact hxy ⟨rfl, (Option.some.inj hy).symm⟩

end Cut

/-! ## Texts -/

/-- An opening and a closing bracket. -/
structure Brackets (α : Type) where
  open₁ : α
  open₂ : α
  close₁ : α
  close₂ : α
  open_ne : open₁ ≠ open₂

/-- A part with its brackets. -/
def Brackets.wrap (k : Brackets α) (body : List α) : List α :=
  k.open₁ :: k.open₂ :: (body ++ [k.close₁, k.close₂])

theorem Brackets.wrap_append (k : Brackets α) (body rest : List α) :
    k.wrap body ++ rest = k.open₁ :: k.open₂ :: (body ++ k.close₁ :: k.close₂ :: rest) := by
  simp [wrap]

@[simp] theorem Brackets.length_wrap (k : Brackets α) (body : List α) :
    (k.wrap body).length = body.length + 4 := by simp [wrap]

/-- A text: stretches without an opening bracket, and parts without a closing one. -/
inductive Text (k : Brackets α) where
  | plain (last : List α) (hlast : Free k.open₁ k.open₂ last)
  | unclosed (before : List α) (hbefore : Free k.open₁ k.open₂ before)
      (body : List α) (hbody : Free k.close₁ k.close₂ body)
  | enclosed (before : List α) (hbefore : Free k.open₁ k.open₂ before)
      (body : List α) (hbody : Free k.close₁ k.close₂ body) (rest : Text k)

namespace Text

variable {k : Brackets α}

def render : Text k → List α
  | plain last _ => last
  | unclosed before _ body _ => before ++ k.open₁ :: k.open₂ :: body
  | enclosed before _ body _ rest => before ++ (k.wrap body ++ rest.render)

/-- The parts, with their brackets. -/
def parts : Text k → List (List α)
  | plain _ _ => []
  | unclosed _ _ body _ => [k.open₁ :: k.open₂ :: body]
  | enclosed _ _ body _ rest => k.wrap body :: rest.parts

/-- Where the parts begin and end, in a text that begins at `n`. -/
def spans : Text k → Nat → List (Nat × Nat)
  | plain _ _, _ => []
  | unclosed before _ body _, n =>
    [(n + before.length, n + before.length + 2 + body.length)]
  | enclosed before _ body _ rest, n =>
    (n + before.length, n + before.length + 2 + body.length + 2) ::
      rest.spans (n + before.length + 2 + body.length + 2)

/-- The stretch behind the last part, if that is closed. -/
def last? : Text k → Option (List α)
  | plain last _ => some last
  | unclosed _ _ _ _ => none
  | enclosed _ _ _ _ rest => rest.last?

end Text

section Parse

variable [DecidableEq α] {k : Brackets α}

/-- The text of a list of symbols. -/
def parse (k : Brackets α) (l : List α) : Text k :=
  match _h : (cut k.open₁ k.open₂ l).2 with
  | none => .plain _ (cut_free k.open₁ k.open₂ l)
  | some rest =>
    match _h' : (cut k.close₁ k.close₂ rest).2 with
    | none => .unclosed _ (cut_free k.open₁ k.open₂ l) _ (cut_free k.close₁ k.close₂ rest)
    | some rest' =>
      .enclosed _ (cut_free k.open₁ k.open₂ l) _ (cut_free k.close₁ k.close₂ rest) (parse k rest')
termination_by l.length
decreasing_by exact Nat.lt_trans (length_of_cut_some _h') (length_of_cut_some _h)

theorem render_parse (l : List α) : (parse k l).render = l := by
  fun_induction parse k l with
  | case1 l h => exact (cut_none h).symm
  | case2 l rest h h' =>
    conv => rhs; rw [cut_some h]
    rw [Text.render, ← cut_none h']
  | case3 l rest h rest' h' ih =>
    conv => rhs; rw [cut_some h]
    rw [Text.render, Brackets.wrap_append, ih, ← cut_some h']

end Parse

/-! ## Where the parts lie -/

namespace Text

variable {k : Brackets α}

theorem spans_bounds (t : Text k) {n : Nat} {s : Nat × Nat} (h : s ∈ t.spans n) :
    n ≤ s.1 ∧ s.1 + 2 ≤ s.2 ∧ s.2 ≤ n + t.render.length := by
  induction t generalizing n with
  | plain last hlast => cases h
  | unclosed before hbefore body hbody =>
    rw [spans, List.mem_singleton] at h
    subst h
    simp only [render, List.length_append, List.length_cons]
    omega
  | enclosed before hbefore body hbody rest ih =>
    simp only [render, List.length_append, Brackets.length_wrap]
    rcases List.mem_cons.mp h with rfl | h
    · omega
    · have := ih h
      omega

theorem spans_pairwise (t : Text k) (n : Nat) :
    (t.spans n).Pairwise fun s s' => s.2 ≤ s'.1 := by
  induction t generalizing n with
  | plain last hlast => exact .nil
  | unclosed before hbefore body hbody => exact List.pairwise_singleton _ _
  | enclosed before hbefore body hbody rest ih =>
    exact List.pairwise_cons.mpr ⟨fun s hs => (rest.spans_bounds hs).1, ih _⟩

theorem spans_add (t : Text k) (m n : Nat) :
    t.spans (m + n) = (t.spans n).map fun s => (m + s.1, m + s.2) := by
  induction t generalizing n with
  | plain last hlast => rfl
  | unclosed before hbefore body hbody =>
    simp only [spans, List.map_cons, List.map_nil, Nat.add_assoc]
  | enclosed before hbefore body hbody rest ih =>
    simp only [spans, List.map_cons, Nat.add_assoc, ih]

theorem extract_spans (t : Text k) (pre : List α) :
    (t.spans pre.length).map (fun s => (pre ++ t.render).extract s.1 s.2) = t.parts := by
  induction t generalizing pre with
  | plain last hlast => rfl
  | unclosed before hbefore body hbody =>
    simp only [spans, parts, render, List.map_cons, List.map_nil, List.extract_eq_take_drop]
    rw [← List.append_assoc, ← List.length_append, List.drop_left, List.take_of_length_le]
    simp only [List.length_append, List.length_cons]
    omega
  | enclosed before hbefore body hbody rest ih =>
    have hlen : (pre ++ before ++ k.wrap body).length =
        pre.length + before.length + 2 + body.length + 2 := by
      simp only [List.length_append, Brackets.length_wrap]
      omega
    have hrender : pre ++ (enclosed before hbefore body hbody rest).render =
        (pre ++ before ++ k.wrap body) ++ rest.render := by
      simp only [render, List.append_assoc]
    rw [spans, parts, List.map_cons, hrender]
    congr 1
    · rw [List.append_assoc, List.extract_eq_take_drop, ← List.length_append, List.drop_left]
      apply List.take_left'
      rw [Brackets.length_wrap, List.length_append]
      omega
    · rw [← hlen]
      exact ih _

theorem spans_lengths (t : Text k) (n : Nat) :
    (t.spans n).map (fun s => s.2 - s.1) = t.parts.map List.length := by
  induction t generalizing n with
  | plain last hlast => rfl
  | unclosed before hbefore body hbody =>
    simp only [spans, parts, List.map_cons, List.map_nil, List.length_cons]
    congr 1
    omega
  | enclosed before hbefore body hbody rest ih =>
    simp only [spans, parts, List.map_cons, Brackets.length_wrap, ih]
    congr 1
    omega

theorem sum_length_parts_le (t : Text k) : (t.parts.map List.length).sum ≤ t.render.length := by
  induction t with
  | plain last hlast => exact Nat.zero_le _
  | unclosed before hbefore body hbody =>
    simp only [parts, render, List.map_cons, List.map_nil, List.sum_cons, List.sum_nil,
      List.length_append, List.length_cons]
    omega
  | enclosed before hbefore body hbody rest ih =>
    simp only [parts, render, List.map_cons, List.sum_cons, List.length_append]
    omega

@[simp] theorem length_parts (t : Text k) (n : Nat) : t.parts.length = (t.spans n).length := by
  rw [← t.extract_spans (List.replicate n k.open₁)]
  simp

/-- **Every part is closed, and has no closing bracket inside**, but the last one, which may be left
open and then runs to the end. -/
theorem parts_shape (t : Text k) {n j : Nat} {s : Nat × Nat} (h : (t.spans n)[j]? = some s) :
    (∃ body, Free k.close₁ k.close₂ body ∧ t.parts[j]? = some (k.wrap body)) ∨
      j + 1 = (t.spans n).length ∧ s.2 = n + t.render.length ∧ t.last? = none ∧
        ∃ body, Free k.close₁ k.close₂ body ∧ t.parts[j]? = some (k.open₁ :: k.open₂ :: body) := by
  induction t generalizing n j with
  | plain last hlast => cases h
  | unclosed before hbefore body hbody =>
    cases j with
    | zero =>
      cases h
      refine Or.inr ⟨rfl, ?_, rfl, body, hbody, rfl⟩
      simp only [render, List.length_append, List.length_cons]
      omega
    | succ j => cases h
  | enclosed before hbefore body hbody rest ih =>
    cases j with
    | zero => exact Or.inl ⟨body, hbody, rfl⟩
    | succ j =>
      rcases ih h with hclosed | ⟨hlast, hend, hnone, hopen⟩
      · exact Or.inl hclosed
      · refine Or.inr ⟨congrArg (· + 1) hlast, ?_, hnone, hopen⟩
        simp only [hend, render, List.length_append, Brackets.length_wrap]
        omega

theorem length_before_le {before : List α} (h : Free k.open₁ k.open₂ before) {r : List α} {i : Nat}
    (h₁ : (before ++ k.open₁ :: r)[i]? = some k.open₁)
    (h₂ : (before ++ k.open₁ :: r)[i + 1]? = some k.open₂) : before.length ≤ i := by
  apply Nat.le_of_not_lt
  intro hi
  rw [List.getElem?_append_left hi] at h₁
  rcases Nat.lt_or_ge (i + 1) before.length with hlt | hge
  · rw [List.getElem?_append_left hlt] at h₂
    exact h.not_at h₁ h₂
  · rw [List.getElem?_append_right hge, Nat.sub_eq_zero_of_le (by omega)] at h₂
    exact k.open_ne (Option.some.inj h₂)

/-- **Every opening bracket begins in a part.**  In `/**/*` one of them ends behind it. -/
theorem covers (t : Text k) {n i : Nat} (h₁ : t.render[i]? = some k.open₁)
    (h₂ : t.render[i + 1]? = some k.open₂) : ∃ s ∈ t.spans n, s.1 ≤ n + i ∧ n + i < s.2 := by
  induction t generalizing n i with
  | plain last hlast => exact absurd h₂ (hlast.not_at h₁)
  | unclosed before hbefore body hbody =>
    have hle := length_before_le hbefore h₁ h₂
    have hlt := (List.getElem?_eq_some_iff.mp h₁).1
    simp only [render, List.length_append, List.length_cons] at hlt
    refine ⟨_, List.mem_singleton_self _, ?_, ?_⟩
    · show n + before.length ≤ n + i
      omega
    · show n + i < n + before.length + 2 + body.length
      omega
  | enclosed before hbefore body hbody rest ih =>
    have hle := length_before_le hbefore (r := k.open₂ :: _)
      (by rwa [render, Brackets.wrap_append] at h₁) (by rwa [render, Brackets.wrap_append] at h₂)
    rcases Nat.lt_or_ge i (before.length + 2 + body.length + 2) with hlt | hge
    · refine ⟨_, List.mem_cons_self, ?_, ?_⟩
      · show n + before.length ≤ n + i
        omega
      · show n + i < n + before.length + 2 + body.length + 2
        omega
    · obtain ⟨j, rfl⟩ : ∃ j, i = (before ++ k.wrap body).length + j := by
        refine ⟨i - (before.length + 2 + body.length + 2), ?_⟩
        rw [List.length_append, Brackets.length_wrap]
        omega
      rw [render, ← List.append_assoc, List.getElem?_append_right (Nat.le_add_right _ _),
        Nat.add_sub_cancel_left] at h₁
      rw [render, ← List.append_assoc, Nat.add_assoc,
        List.getElem?_append_right (Nat.le_add_right _ _), Nat.add_sub_cancel_left] at h₂
      obtain ⟨s, hs, hs₁, hs₂⟩ := ih (n := n + before.length + 2 + body.length + 2) h₁ h₂
      rw [List.length_append, Brackets.length_wrap]
      exact ⟨s, List.mem_cons_of_mem _ hs, by omega, by omega⟩

/-! ## Reading a text from the front -/

/-- The stretch in front of the first part. -/
def before : Text k → List α
  | plain last _ => last
  | unclosed before _ _ _ => before
  | enclosed before _ _ _ _ => before

/-- The text from its first bracket on. -/
def tail : Text k → List α
  | plain _ _ => []
  | unclosed _ _ body _ => k.open₁ :: k.open₂ :: body
  | enclosed _ _ body _ rest => k.wrap body ++ rest.render

theorem render_eq (t : Text k) : t.render = t.before ++ t.tail := by
  cases t with
  | plain last hlast => exact (List.append_nil _).symm
  | unclosed before hbefore body hbody => rfl
  | enclosed before hbefore body hbody rest => rfl

theorem before_free (t : Text k) : Free k.open₁ k.open₂ t.before := by
  cases t with
  | plain last hlast => exact hlast
  | unclosed before hbefore body hbody => exact hbefore
  | enclosed before hbefore body hbody rest => exact hbefore

theorem exists_drop (t : Text k) {p l : List α} (h : t.before = p ++ l) :
    ∃ t' : Text k, t'.render = l ++ t.tail ∧ ∀ n, t.spans n = t'.spans (n + p.length) := by
  have hl : Free k.open₁ k.open₂ l := t.before_free.of_infix ⟨p, [], by rw [h, List.append_nil]⟩
  cases t with
  | plain last hlast => exact ⟨.plain l hl, (List.append_nil _).symm, fun _ => rfl⟩
  | unclosed before hbefore body hbody =>
    obtain rfl : before = p ++ l := h
    refine ⟨.unclosed l hl body hbody, rfl, fun n => ?_⟩
    simp only [spans, List.length_append, Nat.add_assoc]
  | enclosed before hbefore body hbody rest =>
    obtain rfl : before = p ++ l := h
    refine ⟨.enclosed l hl body hbody rest, rfl, fun n => ?_⟩
    simp only [spans, List.length_append, Nat.add_assoc]

/-- **What begins with the first bracket**: nothing, or a part that runs to the first closing
bracket or to the end, and another text. -/
theorem tail_cases (t : Text k) :
    (t.tail = [] ∧ ∀ n, t.spans n = []) ∨
      ∃ (body after : List α) (t' : Text k), Free k.close₁ k.close₂ body ∧
        (after = [] ∨ ∃ r, after = k.close₁ :: k.close₂ :: r) ∧
        t.tail = k.open₁ :: k.open₂ :: (body ++ after) ∧ t'.render = after.drop 2 ∧
        ∀ n, t.spans n = (n + t.before.length, n + t.render.length - t'.render.length) ::
          t'.spans (n + t.render.length - t'.render.length) := by
  cases t with
  | plain last hlast => exact Or.inl ⟨rfl, fun _ => rfl⟩
  | unclosed before hbefore body hbody =>
    refine Or.inr ⟨body, [], .plain [] free_nil, hbody, Or.inl rfl, ?_, rfl, fun n => ?_⟩
    · rw [List.append_nil]
      rfl
    · simp only [spans, render, Text.before, List.length_append, List.length_cons, List.length_nil]
      congr 2
      omega
  | enclosed before hbefore body hbody rest =>
    refine Or.inr ⟨body, k.close₁ :: k.close₂ :: rest.render, rest, hbody, Or.inr ⟨_, rfl⟩,
      k.wrap_append body rest.render, rfl, fun n => ?_⟩
    have hend : n + (enclosed before hbefore body hbody rest).render.length - rest.render.length =
        n + before.length + 2 + body.length + 2 := by
      simp only [render, List.length_append, Brackets.length_wrap]
      omega
    rw [hend]
    rfl

/-! ## Two texts in a row -/

theorem exists_prepend (t : Text k) {l : List α} (hl : Free k.open₁ k.open₂ l)
    (hcut : ¬ (l.getLast? = some k.open₁ ∧ t.render.head? = some k.open₂)) :
    ∃ t' : Text k, t'.render = l ++ t.render ∧ t'.parts = t.parts ∧
      ∀ n, t'.spans n = t.spans (n + l.length) := by
  have hbefore : ∀ {before r : List α}, Free k.open₁ k.open₂ before → t.render = before ++ r →
      Free k.open₁ k.open₂ (l ++ before) := by
    intro before r h hr
    refine free_append hl h fun hlast => hcut ⟨hlast.1, ?_⟩
    rw [hr, List.head?_append, hlast.2]
    rfl
  cases t with
  | plain last hlast =>
    exact ⟨.plain _ (hbefore hlast (List.append_nil _).symm), rfl, rfl, fun _ => rfl⟩
  | unclosed before h body hbody =>
    refine ⟨.unclosed _ (hbefore h rfl) body hbody, List.append_assoc _ _ _, rfl, fun n => ?_⟩
    simp only [spans, List.length_append, Nat.add_assoc]
  | enclosed before h body hbody rest =>
    refine ⟨.enclosed _ (hbefore h rfl) body hbody rest, List.append_assoc _ _ _, rfl, fun n => ?_⟩
    simp only [spans, List.length_append, Nat.add_assoc]

/-- **The parts of two texts in a row** are those of the first and those of the second, if all parts
of the first are closed and no bracket opens across the cut. -/
theorem exists_append (t u : Text k) {last : List α} (hclosed : t.last? = some last)
    (hcut : ¬ (last.getLast? = some k.open₁ ∧ u.render.head? = some k.open₂)) :
    ∃ v : Text k, v.render = t.render ++ u.render ∧ v.parts = t.parts ++ u.parts ∧
      ∀ n, v.spans n = t.spans n ++ u.spans (n + t.render.length) := by
  induction t with
  | plain l hlast =>
    cases hclosed
    exact exists_prepend u hlast hcut
  | unclosed before hbefore body hbody => cases hclosed
  | enclosed before hbefore body hbody rest ih =>
    obtain ⟨v, hrender, hparts, hspans⟩ := ih hclosed
    refine ⟨.enclosed before hbefore body hbody v, ?_, ?_, fun n => ?_⟩
    · simp only [render, hrender, List.append_assoc]
    · simp only [parts, hparts, List.cons_append]
    · simp only [spans, hspans, render, List.cons_append, List.length_append,
        Brackets.length_wrap]
      congr 3
      omega

end Text

end Enclosed
