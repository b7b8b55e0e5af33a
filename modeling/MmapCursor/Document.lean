import MmapCursor.Lines

/-!
# Documents

A document is a list of terminated lines and a last line without a terminator: the grammar of
`LineIndex`, as a type whose values are well formed by construction.

* `Document.render` joins the lines; `Document.parse` takes a byte string apart.
* A CR-terminated line in front of an empty LF-terminated one is not told apart from one CR LF line
  (`Splits`).  `Document.merge` joins these pairs; `Document.Unambiguous` documents have none.
* `lines_render` — the lines of a rendered document are those of the merged one.
* `render_parse`, `unambiguous_parse` — every byte string is rendered by an unambiguous document.
-/

set_option autoImplicit false

namespace MmapCursor

/-- A byte that belongs to no terminator. -/
def Plain (b : UInt8) : Prop := b ≠ CR ∧ b ≠ LF

instance : DecidablePred Plain := fun b => inferInstanceAs (Decidable (b ≠ CR ∧ b ≠ LF))

/-- A line's body: no CR and no LF. -/
def Clean (l : List UInt8) : Prop := ∀ b ∈ l, Plain b

instance : DecidablePred Clean := fun l => List.decidableBAll Plain l

/-- The three line terminators. -/
inductive Terminator where
  | lf
  | crlf
  | cr
  deriving DecidableEq, Repr

def Terminator.bytes : Terminator → List UInt8
  | .lf => [LF]
  | .crlf => [CR, LF]
  | .cr => [CR]

/-- A terminated line. -/
structure Line where
  body : List UInt8
  clean : Clean body
  terminator : Terminator
  deriving DecidableEq, Repr

def Line.bytes (ln : Line) : List UInt8 := ln.body ++ ln.terminator.bytes

/-- Terminated lines, and a last line without a terminator. -/
structure Document where
  lines : List Line
  last : List UInt8
  clean : Clean last
  deriving DecidableEq, Repr

namespace Document

/-- The bytes of each line. -/
def texts (d : Document) : List (List UInt8) := d.lines.map Line.bytes ++ [d.last]

/-- The lines, joined. -/
def render (d : Document) : List UInt8 := d.texts.flatten

end Document

namespace Document

@[simp] theorem length_texts (d : Document) : d.texts.length = d.lines.length + 1 := by
  rw [texts, List.length_append, List.length_map, List.length_singleton]

theorem texts_getElem?_line {d : Document} {i : Nat} (h : i < d.lines.length) :
    d.texts[i]? = d.lines[i]?.map Line.bytes := by
  rw [texts, List.getElem?_append_left (by rw [List.length_map]; exact h), List.getElem?_map]

theorem texts_getElem?_last (d : Document) : d.texts[d.lines.length]? = some d.last := by
  rw [texts, List.getElem?_append_right (by rw [List.length_map]), List.length_map, Nat.sub_self]
  rfl

theorem getLast?_texts (d : Document) : d.texts.getLast? = some d.last := by
  rw [texts, List.getLast?_concat]

end Document

/-- The CR of the first line and the LF of the second, empty one read as one CR LF. -/
def Splits (a b : Line) : Prop := a.terminator = .cr ∧ b.body = [] ∧ b.terminator = .lf

instance (a b : Line) : Decidable (Splits a b) :=
  inferInstanceAs (Decidable (a.terminator = .cr ∧ b.body = [] ∧ b.terminator = .lf))

/-- Join every pair that reads as one line. -/
def mergeLines : List Line → List Line
  | [] => []
  | [a] => [a]
  | a :: b :: rest =>
    if Splits a b then { a with terminator := .crlf } :: mergeLines rest
    else a :: mergeLines (b :: rest)

namespace Document

def merge (d : Document) : Document := { d with lines := mergeLines d.lines }

def Unambiguous (d : Document) : Prop := d.lines.IsChain fun a b => ¬ Splits a b

instance (d : Document) : Decidable d.Unambiguous :=
  inferInstanceAs (Decidable (d.lines.IsChain fun a b => ¬ Splits a b))

end Document

/-! ## The line starts of one line -/

theorem lineStarts_clean {l : List UInt8} (h : Clean l) : lineStarts l = [0] := by
  apply Segments.starts_of_none
  intro i hi
  have hget := List.getElem?_eq_getElem hi
  obtain ⟨hcr, hlf⟩ := h _ (List.mem_of_getElem? hget)
  exact not_endsLine hget hcr hlf

theorem lines_clean {l : List UInt8} (h : Clean l) : lines l = [l] := by
  unfold lines
  rw [lineStarts_clean h]
  rfl

theorem not_seam_of_clean {a : List UInt8} (b : List UInt8) (h : Clean a) : ¬ Seam a b := by
  rintro ⟨hlast, -⟩
  exact (h _ (List.mem_of_getLast? hlast)).1 rfl

theorem lineStarts_terminator (t : Terminator) : lineStarts t.bytes = [0, t.bytes.length] := by
  cases t <;> decide

theorem lineStarts_line (ln : Line) : lineStarts ln.bytes = [0, ln.bytes.length] := by
  unfold Line.bytes
  rw [lineStarts_append (not_seam_of_clean _ ln.clean), lineStarts_clean ln.clean,
    lineStarts_terminator, List.length_append]
  simp [Nat.add_comm]

theorem seam_line {ln : Line} {b : List UInt8} (h : Seam ln.bytes b) :
    ln.terminator = .cr ∧ b.head? = some LF := by
  obtain ⟨hlast, hhead⟩ := h
  refine ⟨?_, hhead⟩
  unfold Line.bytes at hlast
  cases ht : ln.terminator with
  | cr => rfl
  | lf => rw [ht] at hlast; simp [Terminator.bytes, LF_ne_CR] at hlast
  | crlf => rw [ht] at hlast; simp [Terminator.bytes, LF_ne_CR] at hlast

theorem head?_line {ln : Line} {rest : List UInt8} (h : (ln.bytes ++ rest).head? = some LF) :
    ln.body = [] ∧ ln.terminator = .lf := by
  unfold Line.bytes at h
  cases hb : ln.body with
  | nil =>
    refine ⟨rfl, ?_⟩
    cases ht : ln.terminator with
    | lf => rfl
    | crlf => rw [hb, ht] at h; simp [Terminator.bytes, Ne.symm LF_ne_CR] at h
    | cr => rw [hb, ht] at h; simp [Terminator.bytes, Ne.symm LF_ne_CR] at h
  | cons b bs =>
    have hplain := ln.clean b (by rw [hb]; exact List.mem_cons_self)
    rw [hb] at h
    exact absurd (by simpa using h) hplain.2

/-! ## The lines of a document -/

theorem lines_line {ln : Line} {rest : List UInt8}
    (h : ln.terminator = .cr → rest.head? ≠ some LF) :
    lines (ln.bytes ++ rest) = ln.bytes :: lines rest := by
  apply lines_append (lineStarts_line ln)
  intro hseam
  exact h (seam_line hseam).1 hseam.2

theorem Splits.bytes_eq {a b : Line} (h : Splits a b) :
    a.bytes ++ b.bytes = ({ a with terminator := .crlf } : Line).bytes := by
  obtain ⟨ha, hb, hb'⟩ := h
  simp [Line.bytes, ha, hb, hb', Terminator.bytes]

theorem lines_flatten {last : List UInt8} (hlast : Clean last) : ∀ lns : List Line,
    lines ((lns.map Line.bytes).flatten ++ last) = (mergeLines lns).map Line.bytes ++ [last]
  | [] => lines_clean hlast
  | [a] => by
    simp only [List.map_cons, List.map_nil, List.flatten_cons, List.flatten_nil, List.append_nil,
      mergeLines]
    rw [lines_line, lines_clean hlast]
    · rfl
    · intro _ hhead
      exact (hlast _ (List.mem_of_head? hhead)).2 rfl
  | a :: b :: rest => by
    simp only [List.map_cons, List.flatten_cons, mergeLines]
    by_cases h : Splits a b
    · -- the pair is one line, and its terminator ends in an LF
      rw [if_pos h, ← List.append_assoc, h.bytes_eq, List.append_assoc, lines_line (by simp),
        lines_flatten hlast rest]
      rfl
    · have hrec := lines_flatten hlast (b :: rest)
      simp only [List.map_cons, List.flatten_cons] at hrec
      rw [if_neg h, List.append_assoc, lines_line, hrec]
      · rfl
      · intro hcr hhead
        rw [List.append_assoc] at hhead
        exact h ⟨hcr, head?_line hhead⟩

namespace Document

/-- **The lines of a rendered document** are those of the merged document. -/
theorem lines_render (d : Document) : MmapCursor.lines d.render = d.merge.texts := by
  unfold render texts merge
  rw [List.flatten_append, List.flatten_singleton]
  exact lines_flatten d.clean d.lines

end Document

theorem mergeLines_of_isChain : ∀ {lns : List Line},
    lns.IsChain (fun a b => ¬ Splits a b) → mergeLines lns = lns
  | [], _ => rfl
  | [_], _ => rfl
  | a :: b :: rest, h => by
    obtain ⟨hab, hrest⟩ := List.isChain_cons_cons.mp h
    rw [mergeLines, if_neg hab, mergeLines_of_isChain hrest]

theorem Document.merge_of_unambiguous {d : Document} (h : d.Unambiguous) : d.merge = d := by
  unfold merge
  rw [mergeLines_of_isChain h]

/-- Pairs do not overlap: a pair is joined wherever it stands. -/
theorem mergeLines_pair {a b : Line} (h : Splits a b) (post : List Line) : ∀ pre : List Line,
    mergeLines (pre ++ a :: b :: post) =
      mergeLines pre ++ { a with terminator := .crlf } :: mergeLines post
  | [] => by simp only [List.nil_append, mergeLines, if_pos h]
  | [x] => by
    have hxa : ¬ Splits x a := fun hx => by
      have := h.1.symm.trans hx.2.2
      cases this
    simp only [List.cons_append, List.nil_append, mergeLines, if_neg hxa, if_pos h]
  | x :: y :: pre => by
    simp only [List.cons_append, mergeLines]
    by_cases hxy : Splits x y
    · rw [if_pos hxy, if_pos hxy, mergeLines_pair h post pre]; rfl
    · have hrec := mergeLines_pair h post (y :: pre)
      rw [List.cons_append] at hrec
      rw [if_neg hxy, if_neg hxy, hrec]; rfl

theorem Document.texts_merge_pair {d : Document} {pre post : List Line} {a b : Line}
    (hlines : d.lines = pre ++ a :: b :: post) (h : Splits a b) :
    d.merge.texts[(mergeLines pre).length]? = some (a.body ++ [CR, LF]) := by
  have hmerge : d.merge.lines =
      mergeLines pre ++ { a with terminator := .crlf } :: mergeLines post := by
    rw [merge, hlines, mergeLines_pair h]
  rw [texts_getElem?_line (by rw [hmerge, List.length_append, List.length_cons]; omega), hmerge,
    List.getElem?_append_right (Nat.le_refl _), Nat.sub_self]
  rfl

/-! ## Taking a byte string apart -/

namespace Document

/-- A line in front. -/
def cons (ln : Line) (d : Document) : Document := { d with lines := ln :: d.lines }

/-- A byte in front of the first body. -/
def push (b : UInt8) (hb : Plain b) (d : Document) : Document :=
  match d with
  | ⟨[], last, h⟩ => ⟨[], b :: last, List.forall_mem_cons.mpr ⟨hb, h⟩⟩
  | ⟨ln :: lns, last, h⟩ =>
    ⟨{ ln with body := b :: ln.body, clean := List.forall_mem_cons.mpr ⟨hb, ln.clean⟩ } :: lns,
      last, h⟩

/-- A terminator with nothing in front of it. -/
def blank (t : Terminator) : Line :=
  { body := [], clean := fun _ h => (by cases h), terminator := t }

/-- The document that a byte string renders. -/
def parse : List UInt8 → Document
  | [] => ⟨[], [], fun _ h => (by cases h)⟩
  | b :: bs =>
    if hb : Plain b then push b hb (parse bs)
    else if b = LF then cons (blank .lf) (parse bs)
    else
      match bs with
      | [] => cons (blank .cr) (parse [])
      | c :: cs =>
        if c = LF then cons (blank .crlf) (parse cs)
        else cons (blank .cr) (parse (c :: cs))

theorem render_cons (ln : Line) (d : Document) : (cons ln d).render = ln.bytes ++ d.render := by
  simp [cons, render, texts]

theorem render_push {b : UInt8} (hb : Plain b) (d : Document) :
    (push b hb d).render = b :: d.render := by
  obtain ⟨lns, last, h⟩ := d
  cases lns <;> simp [push, render, texts, Line.bytes]

theorem eq_CR {b : UInt8} (hb : ¬ Plain b) (hlf : b ≠ LF) : b = CR := by
  by_contra hcr
  exact hb ⟨hcr, hlf⟩

/-- **Every byte string is the rendering of its parse.** -/
theorem render_parse (l : List UInt8) : (parse l).render = l := by
  fun_induction parse l with
  | case1 => rfl
  | case2 b bs hb ih => rw [render_push, ih]
  | case3 bs hb ih => rw [render_cons, ih]; rfl
  | case4 b hb hlf ih => rw [render_cons, ih, eq_CR hb hlf]; rfl
  | case5 b hb hlf cs ih => rw [render_cons, ih, eq_CR hb hlf]; rfl
  | case6 b hb hlf c cs hc ih => rw [render_cons, ih, eq_CR hb hlf]; rfl

/-- A line in front keeps a document unambiguous unless it ends in a CR that the rest continues. -/
theorem unambiguous_cons {ln : Line} {d : Document} (hd : d.Unambiguous)
    (h : ln.terminator = .cr → d.render.head? ≠ some LF) : (cons ln d).Unambiguous := by
  obtain ⟨lns, last, hlast⟩ := d
  unfold Unambiguous cons at *
  cases lns with
  | nil => exact .singleton _
  | cons a lns =>
    refine List.isChain_cons_cons.mpr ⟨?_, hd⟩
    rintro ⟨hcr, hbody, hlf⟩
    apply h hcr
    simp [render, texts, Line.bytes, hbody, hlf, Terminator.bytes]

theorem unambiguous_push {b : UInt8} (hb : Plain b) {d : Document} (hd : d.Unambiguous) :
    (push b hb d).Unambiguous := by
  obtain ⟨lns, last, hlast⟩ := d
  unfold Unambiguous at *
  match lns, hd with
  | [], _ => exact .nil
  | [ln], _ => exact .singleton _
  | ln :: a :: lns, hd =>
    obtain ⟨hab, hrest⟩ := List.isChain_cons_cons.mp hd
    exact List.isChain_cons_cons.mpr ⟨hab, hrest⟩

/-- **The parse is unambiguous.** -/
theorem unambiguous_parse (l : List UInt8) : (parse l).Unambiguous := by
  fun_induction parse l with
  | case1 => exact .nil
  | case2 b bs hb ih => exact unambiguous_push hb ih
  | case3 bs hb ih => exact unambiguous_cons ih fun h => by cases h
  | case4 b hb hlf ih => exact unambiguous_cons ih fun _ => by simp [render_parse]
  | case5 b hb hlf cs ih => exact unambiguous_cons ih fun h => by cases h
  | case6 b hb hlf c cs hc ih =>
    refine unambiguous_cons ih fun _ => ?_
    rw [render_parse, List.head?_cons]
    exact fun he => hc (Option.some.inj he)

/-- **The lines of a byte string** are those of its parse. -/
theorem lines_eq_parse (l : List UInt8) : MmapCursor.lines l = (parse l).texts := by
  conv => lhs; rw [← render_parse l]
  rw [lines_render, merge_of_unambiguous (unambiguous_parse l)]

end Document

end MmapCursor
