import MmapCursor.Grammar
import MmapCursor.LineColumn

/-!
# One terminator style

`replaceTerminators t` writes every line terminator of a byte string as `t`.

* `replaceTerminators_eq_render` — it does to the lines what `Document.withTerminator` does;
* `replaceTerminators_append` — a string may be cut anywhere but inside a CR LF pair;
* `locate_render` — the pair of the end of a rendered document, whatever follows it;
* `terminator_style` — both indexes report the same bodies, and every body byte and EOF have the
  same line and column.
-/

set_option autoImplicit false

namespace MmapCursor

variable {w : Nat}

/-- Every LF, CR LF pair, and CR with no LF behind it, replaced by `t`. -/
def replaceTerminators (t : Terminator) : List UInt8 → List UInt8
  | [] => []
  | [b] => if b = CR ∨ b = LF then t.bytes else [b]
  | b :: c :: rest =>
    if b = CR ∧ c = LF then t.bytes ++ replaceTerminators t rest
    else if b = CR ∨ b = LF then t.bytes ++ replaceTerminators t (c :: rest)
    else b :: replaceTerminators t (c :: rest)

section Replace

variable {t : Terminator}

theorem replaceTerminators_plain {b : UInt8} (hb : Plain b) (bs : List UInt8) :
    replaceTerminators t (b :: bs) = b :: replaceTerminators t bs := by
  obtain ⟨hcr, hlf⟩ := hb
  cases bs <;> simp [replaceTerminators, hcr, hlf]

theorem replaceTerminators_LF (bs : List UInt8) :
    replaceTerminators t (LF :: bs) = t.bytes ++ replaceTerminators t bs := by
  cases bs <;> simp [replaceTerminators, LF_ne_CR]

theorem replaceTerminators_pair (bs : List UInt8) :
    replaceTerminators t (CR :: LF :: bs) = t.bytes ++ replaceTerminators t bs := by
  simp [replaceTerminators]

theorem replaceTerminators_CR {bs : List UInt8} (h : bs.head? ≠ some LF) :
    replaceTerminators t (CR :: bs) = t.bytes ++ replaceTerminators t bs := by
  cases bs with
  | nil => simp [replaceTerminators]
  | cons c cs =>
    have hc : c ≠ LF := by simpa using h
    simp [replaceTerminators, hc]

/-- **Cutting a string** anywhere but inside a pair. -/
theorem replaceTerminators_append (b : List UInt8) : ∀ {a : List UInt8}, ¬ Seam a b →
    replaceTerminators t (a ++ b) = replaceTerminators t a ++ replaceTerminators t b := by
  intro a
  induction a using Document.parse.induct with
  | case1 => intro _; rfl
  | case2 x xs hx ih =>
    intro h
    rw [List.cons_append, replaceTerminators_plain hx, replaceTerminators_plain hx,
      ih fun hs => h (seam_cons x hs), List.cons_append]
  | case3 xs hx ih =>
    intro h
    rw [List.cons_append, replaceTerminators_LF, replaceTerminators_LF,
      ih fun hs => h (seam_cons LF hs), List.append_assoc]
  | case4 x hx hlf ih =>
    intro h
    rw [Document.eq_CR hx hlf] at h ⊢
    have hhead : b.head? ≠ some LF := fun hhead => h ⟨rfl, hhead⟩
    rw [List.cons_append, List.nil_append, replaceTerminators_CR hhead,
      replaceTerminators_CR (by simp), List.append_assoc]
    rfl
  | case5 x hx hlf xs ih =>
    intro h
    rw [Document.eq_CR hx hlf] at h ⊢
    rw [List.cons_append, List.cons_append, replaceTerminators_pair, replaceTerminators_pair,
      ih fun hs => h (seam_cons CR (seam_cons LF hs)), List.append_assoc]
  | case6 x hx hlf c cs hc ih =>
    intro h
    rw [Document.eq_CR hx hlf] at h ⊢
    have hhead : ∀ cs', ((c :: cs) ++ cs').head? ≠ some LF := by
      intro cs'
      simpa using hc
    have hhead' := hhead []
    rw [List.append_nil] at hhead'
    rw [List.cons_append, replaceTerminators_CR (hhead b), replaceTerminators_CR hhead',
      ih fun hs => h (seam_cons CR hs), List.append_assoc]

end Replace

namespace Document

/-- Every line ends in `t`. -/
def withTerminator (t : Terminator) (d : Document) : Document :=
  { d with lines := d.lines.map fun ln => { ln with terminator := t } }

@[simp] theorem length_lines_withTerminator (t : Terminator) (d : Document) :
    (d.withTerminator t).lines.length = d.lines.length := List.length_map _

@[simp] theorem last_withTerminator (t : Terminator) (d : Document) :
    (d.withTerminator t).last = d.last := rfl

theorem unambiguous_withTerminator (t : Terminator) {d : Document} (h : d.Unambiguous) :
    (d.withTerminator t).Unambiguous := by
  apply List.isChain_map_of_isChain _ _ h
  rintro a b - ⟨hcr, -, hlf⟩
  have : Terminator.cr = Terminator.lf := hcr.symm.trans hlf
  cases this

theorem withTerminator_push (t : Terminator) {b : UInt8} (hb : Plain b) (d : Document) :
    (push b hb d).withTerminator t = push b hb (d.withTerminator t) := by
  obtain ⟨lns, last, h⟩ := d
  cases lns <;> rfl

theorem render_withTerminator_blank (t u : Terminator) (d : Document) :
    ((cons (blank u) d).withTerminator t).render = t.bytes ++ (d.withTerminator t).render :=
  render_cons (blank t) (d.withTerminator t)

end Document

theorem replaceTerminators_eq_render (t : Terminator) (l : List UInt8) :
    replaceTerminators t l = ((Document.parse l).withTerminator t).render := by
  fun_induction Document.parse l with
  | case1 => rfl
  | case2 b bs hb ih =>
    rw [replaceTerminators_plain hb, ih, Document.withTerminator_push, Document.render_push]
  | case3 bs hb ih =>
    rw [replaceTerminators_LF, ih, Document.render_withTerminator_blank]
  | case4 b hb hlf ih =>
    rw [Document.eq_CR hb hlf, replaceTerminators_CR (by simp), ih,
      Document.render_withTerminator_blank]
  | case5 b hb hlf cs ih =>
    rw [Document.eq_CR hb hlf, replaceTerminators_pair, ih, Document.render_withTerminator_blank]
  | case6 b hb hlf c cs hc ih =>
    rw [Document.eq_CR hb hlf, replaceTerminators_CR (by simpa using hc), ih,
      Document.render_withTerminator_blank]

theorem lines_replaceTerminators (t : Terminator) (l : List UInt8) :
    lines (replaceTerminators t l) = ((Document.parse l).withTerminator t).texts := by
  rw [replaceTerminators_eq_render, Document.lines_render, Document.merge_of_unambiguous
    (Document.unambiguous_withTerminator t (Document.unambiguous_parse l))]

namespace Document

theorem texts_withTerminator (t : Terminator) (d : Document) {i : Nat} (h : i < d.texts.length) :
    ∃ text text', d.texts[i]? = some text ∧ (d.withTerminator t).texts[i]? = some text' ∧
      (i + 1 < d.texts.length → ∃ (body : List UInt8) (u : Terminator), Clean body ∧
        text = body ++ u.bytes ∧ text' = body ++ t.bytes) ∧
      (i + 1 = d.texts.length → Clean text ∧ text' = text) := by
  rw [length_texts] at h ⊢
  have hlen := length_lines_withTerminator t d
  rcases Nat.lt_or_ge i d.lines.length with hlt | hge
  · have hget : (d.withTerminator t).lines[i]? = d.lines[i]?.map _ := List.getElem?_map
    refine ⟨_, _, ?_, ?_, fun _ => ⟨d.lines[i].body, d.lines[i].terminator, d.lines[i].clean,
      rfl, rfl⟩, fun hlast => by omega⟩
    · rw [texts_getElem?_line hlt, List.getElem?_eq_getElem hlt]
      rfl
    · rw [texts_getElem?_line (by rw [hlen]; exact hlt), hget, List.getElem?_eq_getElem hlt]
      rfl
  · have hi : i = d.lines.length := by omega
    have hlast := texts_getElem?_last (d.withTerminator t)
    rw [hlen] at hlast
    subst hi
    exact ⟨d.last, d.last, texts_getElem?_last d, hlast, fun hmore => by omega,
      fun _ => ⟨d.clean, rfl⟩⟩

/-- **The end of a document** is behind its last line, whatever does not continue it. -/
theorem locate_render {d : Document} (hd : d.Unambiguous) {b : List UInt8}
    (h : ¬ Seam d.render b) :
    Segments.locate (EndsLine (d.render ++ b)) d.render.length =
      (d.lines.length, d.last.length) := by
  rw [Segments.locate_congr _ fun i hi => endsLine_append h hi]
  have htexts : MmapCursor.lines d.render = d.texts := by
    rw [lines_render, merge_of_unambiguous hd]
  have hlen := congrArg List.length htexts
  rw [length_lines, length_lineStarts, length_texts] at hlen
  have hcount : Nat.count (EndsLine d.render) d.render.length = d.lines.length := by omega
  -- the last piece runs from the last start to the end
  have hstart : (lineStarts d.render)[Nat.count (EndsLine d.render) d.render.length]? =
      some (Segments.startOf (EndsLine d.render) d.render.length) :=
    Segments.starts_getElem?_count _ (Nat.le_refl _)
  have hpiece := Segments.pieces_getElem? d.render hstart
  have hnone : (lineStarts d.render)[Nat.count (EndsLine d.render) d.render.length + 1]? = none :=
    List.getElem?_eq_none (by rw [length_lineStarts])
  rw [hnone, hcount] at hpiece
  have hlast : d.render.extract (Segments.startOf (EndsLine d.render) d.render.length)
      d.render.length = d.last := by
    have hsome := texts_getElem?_last d
    rw [← htexts] at hsome
    exact Option.some.inj (hpiece.symm.trans hsome)
  have hle := Segments.startOf_le (EndsLine d.render) d.render.length
  apply Prod.ext
  · exact hcount
  · show d.render.length - Segments.startOf (EndsLine d.render) d.render.length = d.last.length
    rw [← hlast, List.extract_eq_take_drop, List.length_take, List.length_drop, Nat.min_self]

end Document

/-- A body byte, or EOF. -/
def BodyOrEof (l : List UInt8) (o : Nat) : Prop :=
  o = l.length ∨ ∃ b, l[o]? = some b ∧ Plain b

theorem BodyOrEof.ne_LF {l : List UInt8} {o : Nat} (h : BodyOrEof l o) : l[o]? ≠ some LF := by
  intro hlf
  rcases h with rfl | ⟨b, hb, hplain⟩
  · rw [List.getElem?_eq_none (Nat.le_refl _)] at hlf
    cases hlf
  · rw [hb, Option.some.injEq] at hlf
    exact hplain.2 hlf

theorem BodyOrEof.le {l : List UInt8} {o : Nat} (h : BodyOrEof l o) : o ≤ l.length := by
  rcases h with rfl | ⟨b, hb, -⟩
  · exact Nat.le_refl _
  · exact Nat.le_of_lt (List.getElem?_eq_some_iff.mp hb).1

/-- A body byte stays, in front of what follows it. -/
theorem BodyOrEof.head?_replace (t : Terminator) {l : List UInt8} {o : Nat} (h : BodyOrEof l o) :
    (replaceTerminators t (l.drop o)).head? = l[o]? := by
  rcases h with rfl | ⟨b, hb, hplain⟩
  · rw [List.drop_length, List.getElem?_eq_none (Nat.le_refl _)]
    rfl
  · obtain ⟨hlt, rfl⟩ := List.getElem?_eq_some_iff.mp hb
    rw [List.drop_eq_getElem_cons hlt, replaceTerminators_plain hplain, hb]
    rfl

/-- **The image of a body byte, or of EOF**, is behind the rewritten bytes in front of it; it keeps
its segment and its distance from the start of the segment. -/
theorem BodyOrEof.image (t : Terminator) {l : List UInt8} {o : Nat} (h : BodyOrEof l o) :
    (replaceTerminators t (l.take o)).length ≤ (replaceTerminators t l).length ∧
      (replaceTerminators t l)[(replaceTerminators t (l.take o)).length]? = l[o]? ∧
      Segments.locate (EndsLine (replaceTerminators t l))
          (replaceTerminators t (l.take o)).length =
        Segments.locate (EndsLine l) o := by
  have hhead := h.head?_replace t
  have hcut : ¬ Seam (l.take o) (l.drop o) := fun hs =>
    h.ne_LF (List.head?_drop.symm.trans hs.2)
  have hcut' : ¬ Seam (replaceTerminators t (l.take o)) (replaceTerminators t (l.drop o)) :=
    fun hs => h.ne_LF (hhead.symm.trans hs.2)
  have hsplit := replaceTerminators_append (t := t) (l.drop o) hcut
  rw [List.take_append_drop] at hsplit
  rw [hsplit]
  refine ⟨?_, ?_, ?_⟩
  · rw [List.length_append]
    exact Nat.le_add_right _ _
  · rw [List.getElem?_append_right (Nat.le_refl _), Nat.sub_self, ← hhead, List.head?_eq_getElem?]
  · -- both are the end of the lines in front, which differ in their terminators only
    have hparse := Document.unambiguous_parse (l.take o)
    have hd := Document.render_parse (l.take o)
    have hdt := replaceTerminators_eq_render t (l.take o)
    rw [← hd] at hcut
    rw [hdt] at hcut' ⊢
    have hloc := Document.locate_render hparse hcut
    rw [hd, List.take_append_drop, List.length_take_of_le h.le] at hloc
    rw [hloc, Document.locate_render (Document.unambiguous_withTerminator t hparse) hcut',
      Document.length_lines_withTerminator, Document.last_withTerminator]

namespace LineIndex

/-- **The terminator style does not move content.** -/
theorem terminator_style (build : Build w) (search : BinarySearch (Usize w)) (t : Terminator)
    (s st : Snapshot w) (hst : st.toList = replaceTerminators t s.toList) :
    ∃ idx idxt, new build s.toSlice = .ok idx ∧ new build st.toSlice = .ok idxt ∧
      idxt.numLines = idx.numLines ∧
      (∀ line : Usize w, line < idx.numLines → ∃ r rt text textt,
        idx.lineRange line = .ok (some r) ∧ (Cursor.new s.toSlice).slice r = .ok (some text) ∧
        idxt.lineRange line = .ok (some rt) ∧
        (Cursor.new st.toSlice).slice rt = .ok (some textt) ∧
        (line.toNat + 1 < idx.numLines.toNat → ∃ (body : List UInt8) (u : Terminator),
          Clean body ∧ text = body ++ u.bytes ∧ textt = body ++ t.bytes) ∧
        (line.toNat + 1 = idx.numLines.toNat → Clean text ∧ textt = text)) ∧
      ∀ o : BytePos w, BodyOrEof s.toList o.toNat → ∃ o' : BytePos w,
        o'.toNat = (replaceTerminators t (s.toList.take o.toNat)).length ∧
        st.toList[o'.toNat]? = s.toList[o.toNat]? ∧
        idxt.lineColumn search o' = idx.lineColumn search o := by
  have hR := reports_lines s
  have hRt := reports_lines st
  have hlines := Document.lines_eq_parse s.toList
  rw [hst, lines_replaceTerminators] at hRt
  rw [hlines] at hR
  refine ⟨_, _, new_eq build s.toSlice, new_eq build st.toSlice, ?_, fun line hline => ?_,
    fun o ho => ?_⟩
  · apply Words.eq_of_toNat
    rw [hR.numLines_eq, hRt.numLines_eq]
    simp
  · have hlt : line.toNat < (ofLines s.toSlice).numLines.toNat := hline
    rw [hR.numLines_eq] at hlt ⊢
    obtain ⟨text, textt, htext, htextt, hbody⟩ :=
      Document.texts_withTerminator t (Document.parse s.toList) hlt
    obtain ⟨r, hr, hs⟩ := hR.slice_eq line text htext
    obtain ⟨rt, hrt, hs'⟩ := hRt.slice_eq line textt htextt
    exact ⟨r, rt, text, textt, hr, hs, hrt, hs', hbody⟩
  · obtain ⟨hle, hbyte, hloc⟩ := ho.image t
    have hfits := st.length_succ_lt
    rw [← hst] at hle hbyte hloc
    have hval : (BytePos.new (BitVec.ofNat w
        (replaceTerminators t (s.toList.take o.toNat)).length)).toNat =
          (replaceTerminators t (s.toList.take o.toNat)).length :=
      Words.toNat_ofNat_of_lt (by omega)
    refine ⟨_, hval, by rw [hval]; exact hbyte, ?_⟩
    rw [(lineColumn_eq_pairAt search (by rw [hval]; exact hle)).1,
      (lineColumn_eq_pairAt search ho.le).1, pairAt, pairAt, hval, hloc]

/-- `a CR LF CR b LF` with every terminator a CR: EOF keeps its line and column. -/
theorem terminator_style_cr :
    ∃ idx idxt : LineIndex 64,
      new .fallback (Snapshot.ofList 64 [97, 13, 10, 13, 98, 10] (by decide)).toSlice = .ok idx ∧
      new .fallback (Snapshot.ofList 64 [97, 13, 13, 98, 13] (by decide)).toSlice = .ok idxt ∧
      idxt.numLines = idx.numLines ∧
      ∃ o' : BytePos 64, o'.toNat = 5 ∧ idxt.lineColumn BinarySearch.halving o' =
        idx.lineColumn BinarySearch.halving ⟨6⟩ := by
  obtain ⟨idx, idxt, hidx, hidxt, hlines, -, hpair⟩ := terminator_style .fallback
    BinarySearch.halving .cr (Snapshot.ofList 64 [97, 13, 10, 13, 98, 10] (by decide))
    (Snapshot.ofList 64 [97, 13, 13, 98, 13] (by decide)) (by decide)
  obtain ⟨o', ho', -, heq⟩ := hpair ⟨6⟩ (Or.inl rfl)
  exact ⟨idx, idxt, hidx, hidxt, hlines, o', ho', heq⟩

end LineIndex

end MmapCursor
