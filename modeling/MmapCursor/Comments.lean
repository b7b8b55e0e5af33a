import MmapCursor.ByteFile
import MmapCursor.CursorRuns
import MmapCursor.Lib.Enclosed

/-!
# Remarks

Model of `comments` in `examples/comments.rs`, a caller that finds every `/* … */` remark of a file
with two nested loops over one cursor.  What a remark is, is the grammar `Enclosed.Text` for the
brackets `/*` and `*/`.

* `closeRound_spec`, `commentsRound_spec` — one round of either loop;
* `comments_spans` — the ranges are the spans of the file's text.
-/

set_option autoImplicit false

namespace MmapCursor

open Enclosed

variable {w : Nat}

/-- The byte `b'/'`. -/
def SLASH : UInt8 := 47

/-- The byte `b'*'`. -/
def STAR : UInt8 := 42

/-- `/*` and `*/`. -/
def remarkBrackets : Brackets UInt8 where
  open₁ := SLASH
  open₂ := STAR
  close₁ := STAR
  close₂ := SLASH
  open_ne := by decide

/-- A byte string, taken apart at its remarks. -/
abbrev Remarks := Text remarkBrackets

/-- Both ends of a range. -/
def ByteRange.bounds (r : ByteRange w) : Nat × Nat := (r.start.toNat, r.end_.toNat)

@[simp] theorem ByteRange.bounds_fst (r : ByteRange w) : r.bounds.1 = r.start.toNat := rfl

@[simp] theorem ByteRange.bounds_snd (r : ByteRange w) : r.bounds.2 = r.end_.toNat := rfl

namespace Cursor

/-- One round of the inner `loop` of `comments`. -/
def closeRound (c : Cursor w) : Res (ForInStep (Cursor w)) := do
  let c ← c.advanceTo STAR
  if c.isEof then .ok (.done c)
  else
    let c := c.advance
    if c.peek = some SLASH then .ok (.done c.advance)
    else .ok (.yield c)

/-- One round of the outer `while` of `comments`. -/
def commentsRound (st : Cursor w × List (ByteRange w)) :
    Res (ForInStep (Cursor w × List (ByteRange w))) :=
  if st.1.isEof then .ok (.done st)
  else do
    let c ← st.1.advanceTo SLASH
    if c.isEof then .ok (.done (c, st.2))
    else if c.peekNAhead 1 ≠ some STAR then .ok (.yield (c.advance, st.2))
    else do
      let start := c.position
      let c := c.advanceNAhead 2
      let c ← Loops.loop .outOfFuel closeRound (c.source.toList.length + 1) c
      let range ← ByteRange.new start c.position
      .ok (.yield (c, st.2 ++ [range]))

end Cursor

/-- `comments`.  Every round of either loop passes at least one byte. -/
def comments (file : ByteFile w) : Res (List (ByteRange w)) := do
  let st ← Loops.loop .outOfFuel Cursor.commentsRound (file.bytes.toList.length + 1)
    (file.cursor, [])
  pure st.2

namespace Cursor

/-! ## The inner loop -/

/-- **One round of the inner loop**: over the closing bracket, to EOF, or past a `*` of the body. -/
theorem closeRound_spec {c : Cursor w} (h : c.Inv) {body after : List UInt8}
    (hbody : Free STAR SLASH body) (hafter : after = [] ∨ ∃ r, after = STAR :: SLASH :: r)
    (hu : c.unread = body ++ after) :
    (∃ c', closeRound c = .ok (.done c') ∧ c'.Inv ∧ c'.source = c.source ∧
        c'.unread = after.drop 2) ∨
      ∃ c' body', closeRound c = .ok (.yield c') ∧ c'.Inv ∧ c'.source = c.source ∧
        Free STAR SLASH body' ∧ c'.unread = body' ++ after ∧
        c'.unread.length < c.unread.length := by
  obtain ⟨d, hd, hdinv, hds, -, hdu⟩ := advanceUntil_spec h (· != STAR)
  have hhead : after = [] ∨ after.head? = some STAR := by
    rcases hafter with rfl | ⟨r, rfl⟩
    · exact Or.inl rfl
    · exact Or.inr rfl
  unfold closeRound advanceTo
  simp only [hd, bind, Except.bind]
  rcases scan_cases (by decide) hbody hhead with ⟨-, hscan⟩ | ⟨p, g, hp, hscan, hnext, hg⟩
  · -- the body is passed
    rw [hu, hscan] at hdu
    rcases hafter with rfl | ⟨r, rfl⟩
    · exact Or.inl ⟨d, by rw [if_pos ((isEof_iff hdinv).mpr hdu)], hdinv, hds, hdu⟩
    · obtain ⟨heinv, heu⟩ := advance_spec hdinv
      obtain ⟨hfinv, hfu⟩ := advance_spec heinv
      rw [hdu] at heu
      rw [heu] at hfu
      refine Or.inl ⟨d.advance.advance, ?_, hfinv, hds, hfu⟩
      rw [if_neg (not_isEof hdinv hdu), if_pos]
      rw [peek_eq, heu]
      rfl
  · -- a `*` of the body: no `/` follows
    rw [hu, hscan] at hdu
    obtain ⟨heinv, heu⟩ := advance_spec hdinv
    rw [hdu] at heu
    refine Or.inr ⟨d.advance, g, ?_, heinv, hds, hg, heu, ?_⟩
    · rw [if_neg (not_isEof hdinv hdu), if_neg]
      rw [peek_eq, heu]
      exact hnext
    · rw [heu, hu, hp]
      simp only [List.drop_succ_cons, List.drop_zero, List.length_append, List.length_cons]
      omega

theorem closeLoop_spec {c : Cursor w} (h : c.Inv) {body after : List UInt8}
    (hbody : Free STAR SLASH body) (hafter : after = [] ∨ ∃ r, after = STAR :: SLASH :: r)
    (hu : c.unread = body ++ after) :
    ∃ c', Loops.loop .outOfFuel closeRound (c.source.toList.length + 1) c = .ok c' ∧ c'.Inv ∧
      c'.source = c.source ∧ c'.unread = after.drop 2 := by
  refine Loops.loop_total _ _
    (fun d => d.Inv ∧ d.source = c.source ∧ ∃ body, Free STAR SLASH body ∧ d.unread = body ++ after)
    (fun d => d.unread.length) _ ?_ _ c ⟨h, rfl, body, hbody, hu⟩ ?_
  · rintro d ⟨hd, hs, body, hbody, hu⟩
    rcases closeRound_spec hd hbody hafter hu with ⟨e, he, heinv, hes, heu⟩ |
      ⟨e, body', he, heinv, hes, hbody', heu, hlt⟩
    · exact Or.inl ⟨e, he, heinv, hes.trans hs, heu⟩
    · exact Or.inr ⟨e, he, ⟨heinv, hes.trans hs, body', hbody', heu⟩, hlt⟩
  · have := pos_add_unread h
    omega

/-! ## The outer loop -/

/-- The recorded ranges, and then the remarks of the unread bytes, are the spans `spans`. -/
structure RemarksInv (source : Slice w) (spans : List (Nat × Nat))
    (st : Cursor w × List (ByteRange w)) : Prop where
  inv : st.1.Inv
  source_eq : st.1.source = source
  recorded : ∃ t : Remarks, st.1.unread = t.render ∧
    st.2.map ByteRange.bounds ++ t.spans st.1.pos.toNat = spans

theorem toNat_literal {c : Cursor w} {k : Nat} (hk : k ≤ c.unread.length) :
    (OfNat.ofNat k : Usize w).toNat = k := by
  rw [unread, List.length_drop] at hk
  exact Usize.toNat_literal (Nat.le_trans hk (Nat.sub_le _ _)) c.source.fits

theorem peekNAhead_one {c : Cursor w} {b : UInt8} {bs : List UInt8} (hu : c.unread = b :: bs) :
    c.peekNAhead 1 = bs.head? := by
  rw [peekNAhead_eq, toNat_literal (c := c) (k := 1) (by simp [hu]), hu, List.getElem?_cons_succ,
    List.head?_eq_getElem?]

theorem advanceTo_slash {c : Cursor w} (h : c.Inv) {t : Remarks} (hu : c.unread = t.render) :
    ∃ d, c.advanceTo SLASH = .ok d ∧ d.Inv ∧ d.source = c.source ∧
      (d.unread = t.tail ∨ ∃ p g, t.before = p ++ SLASH :: g ∧ d.unread = SLASH :: (g ++ t.tail) ∧
        (g ++ t.tail).head? ≠ some STAR) := by
  obtain ⟨d, hd, hdinv, hds, -, hdu⟩ := advanceUntil_spec h (· != SLASH)
  have htail : t.tail = [] ∨ t.tail.head? = some SLASH := by
    rcases t.tail_cases with ⟨hnil, -⟩ | ⟨body, after, t', -, -, htail, -⟩
    · exact Or.inl hnil
    · exact Or.inr (by rw [htail]; rfl)
  refine ⟨d, hd, hdinv, hds, ?_⟩
  rw [hdu, hu, t.render_eq]
  rcases scan_cases (a := SLASH) (b := STAR) (by decide) t.before_free htail with
    ⟨-, hscan⟩ | ⟨p, g, hp, hscan, hnext, -⟩
  · exact Or.inl hscan
  · exact Or.inr ⟨p, g, hp, hscan, hnext⟩

theorem remark_spec {c d : Cursor w} (h : c.Inv) (hd : d.Inv) (hs : d.source = c.source)
    {t t' : Remarks} (hu : c.unread = t.render) (hdu : d.unread = t.tail) {body after : List UInt8}
    (hbody : Free STAR SLASH body) (hafter : after = [] ∨ ∃ r, after = STAR :: SLASH :: r)
    (htail : t.tail = SLASH :: STAR :: (body ++ after)) (hrender : t'.render = after.drop 2) :
    d.peekNAhead 1 = some STAR ∧ ∃ e range,
      Loops.loop .outOfFuel closeRound ((d.advanceNAhead 2).source.toList.length + 1)
        (d.advanceNAhead 2) = .ok e ∧
      ByteRange.new d.position e.position = .ok range ∧ e.Inv ∧ e.source = c.source ∧
      e.unread = t'.render ∧ e.unread.length < c.unread.length ∧
      e.pos.toNat = c.pos.toNat + t.render.length - t'.render.length ∧
      range.bounds = (c.pos.toNat + t.before.length, e.pos.toNat) := by
  have hdu' : d.unread = SLASH :: STAR :: (body ++ after) := hdu.trans htail
  obtain ⟨hinv₂, hu₂⟩ := advanceNAhead_spec hd 2
  rw [toNat_literal (c := d) (k := 2) (by simp [hdu']), hdu'] at hu₂
  obtain ⟨e, he, heinv, hes, heu⟩ := closeLoop_spec hinv₂ hbody hafter hu₂
  have hec : e.source = c.source := hes.trans hs
  have hcd : c.unread = t.before ++ d.unread := by rw [hu, t.render_eq, hdu]
  have hposd := pos_of_append h hd hs hcd
  have hc := pos_add_unread h
  have hd' := pos_add_unread hd
  have he' := pos_add_unread heinv
  have hlen : e.unread.length + 2 ≤ d.unread.length := by
    rw [heu, hdu']
    simp only [List.length_drop, List.length_cons, List.length_append]
    omega
  rw [hec] at he'
  rw [hs] at hd'
  have hle : d.pos ≤ e.pos := by
    rw [BytePos.le_iff]
    omega
  refine ⟨?_, e, _, he, ByteRange.new_eq hle, heinv, hec, heu.trans hrender.symm, ?_, ?_, ?_⟩
  · rw [peekNAhead_one hdu']
    rfl
  · omega
  · rw [← hu, hrender, ← heu]
    omega
  · exact Prod.ext hposd rfl

/-- **One round of the outer loop**: to EOF, past a lone `/`, or over one remark. -/
theorem commentsRound_spec {source : Slice w} {spans : List (Nat × Nat)}
    {st : Cursor w × List (ByteRange w)} (h : RemarksInv source spans st) :
    (∃ st', commentsRound st = .ok (.done st') ∧ st'.2.map ByteRange.bounds = spans) ∨
      ∃ st', commentsRound st = .ok (.yield st') ∧ RemarksInv source spans st' ∧
        st'.1.unread.length < st.1.unread.length := by
  obtain ⟨c, recorded⟩ := st
  have hinv : c.Inv := h.inv
  have hsource : c.source = source := h.source_eq
  obtain ⟨t, hu, hrec⟩ := h.recorded
  simp only at hu hrec
  unfold commentsRound
  by_cases hnil : c.unread = []
  · refine Or.inl ⟨(c, recorded), by rw [if_pos ((isEof_iff hinv).mpr hnil)], ?_⟩
    rcases t.tail_cases with ⟨-, hnone⟩ | ⟨body, after, t', -, -, htail, -⟩
    · simpa [hnone] using hrec
    · rw [hu, t.render_eq, htail] at hnil
      simp at hnil
  · obtain ⟨d, hd, hdinv, hds, hdu⟩ := advanceTo_slash hinv hu
    simp only [if_neg fun heof => hnil ((isEof_iff hinv).mp heof), hd, bind, Except.bind]
    rcases hdu with hdu | ⟨p, g, hp, hdu, hnext⟩
    · rcases t.tail_cases with ⟨hempty, hnone⟩ |
        ⟨body, after, t', hbody, hafter, htail, hrender, hspans⟩
      · -- no remark is left
        rw [hempty] at hdu
        refine Or.inl ⟨(d, recorded), by rw [if_pos ((isEof_iff hdinv).mpr hdu)], ?_⟩
        simpa [hnone] using hrec
      · -- over the remark
        obtain ⟨hpeek, e, range, he, hrange, heinv, hes, heu, hlt, hpos, hbounds⟩ :=
          remark_spec hinv hdinv hds hu hdu hbody hafter htail hrender
        refine Or.inr ⟨(e, recorded ++ [range]), ?_, ⟨heinv, hes.trans hsource, t', heu, ?_⟩, hlt⟩
        · rw [if_neg (not_isEof hdinv (hdu.trans htail)), if_neg (by simpa using hpeek), he]
          simp only [hrange]
        · rw [← hrec, hspans, List.map_append, ← hpos, List.append_assoc]
          simp [hbounds]
    · -- past a lone `/`
      obtain ⟨heinv, heu⟩ := advance_spec hdinv
      rw [hdu, List.drop_succ_cons, List.drop_zero] at heu
      obtain ⟨t', hrender, hspans⟩ := t.exists_drop (p := p ++ [SLASH]) (l := g) (by simpa using hp)
      have hce : c.unread = (p ++ [SLASH]) ++ d.advance.unread := by
        rw [hu, t.render_eq, hp, heu]
        simp
      have hpos := pos_of_append hinv heinv hds hce
      refine Or.inr ⟨(d.advance, recorded), ?_,
        ⟨heinv, hds.trans hsource, t', heu.trans hrender.symm, ?_⟩, ?_⟩
      · rw [if_neg (not_isEof hdinv hdu), if_pos (by rw [peekNAhead_one hdu]; exact hnext)]
      · rw [← hrec, hspans, hpos]
      · show d.advance.unread.length < c.unread.length
        rw [hce]
        simp
        omega

end Cursor

/-- **The ranges are the spans of the file's text**: for every file, whatever its bytes. -/
theorem comments_spans (file : ByteFile w) {t : Remarks} (h : t.render = file.bytes.toList) :
    ∃ ranges, comments file = .ok ranges ∧ ranges.map ByteRange.bounds = t.spans 0 := by
  have hstart : Cursor.RemarksInv file.bytes (t.spans 0) (file.cursor, []) :=
    ⟨Cursor.new_inv _, rfl, t, by rw [h]; exact Cursor.new_unread _,
      by simp [ByteFile.cursor, Cursor.new]⟩
  obtain ⟨st, hrun, hst⟩ := Loops.loop_total Fault.outOfFuel Cursor.commentsRound
    (Cursor.RemarksInv file.bytes (t.spans 0)) (fun st => st.1.unread.length)
    (fun st => st.2.map ByteRange.bounds = t.spans 0)
    (fun st hst => Cursor.commentsRound_spec hst) (file.bytes.toList.length + 1) (file.cursor, [])
    hstart (by simp [ByteFile.cursor])
  refine ⟨st.2, ?_, hst⟩
  unfold comments
  rw [hrun]
  rfl

theorem slice_remark (file : ByteFile w) {t : Remarks} (h : t.render = file.bytes.toList)
    {ranges : List (ByteRange w)} (hspans : ranges.map ByteRange.bounds = t.spans 0) :
    ranges.map file.cursor.slice = t.parts.map fun text => .ok (some text) := by
  have hslice : ∀ r ∈ ranges, file.cursor.slice r =
      .ok (some (t.render.extract r.bounds.1 r.bounds.2)) := by
    intro r hr
    have hmem : r.bounds ∈ t.spans 0 := hspans ▸ List.mem_map_of_mem hr
    have hend : r.end_.toNat ≤ file.bytes.toList.length := by
      rw [← h]
      simpa using (t.spans_bounds hmem).2.2
    rw [h]
    exact (Cursor.slice_eq (Cursor.new_inv file.bytes) r).trans (congrArg Except.ok (if_pos hend))
  rw [List.map_congr_left hslice, ← t.extract_spans [], List.length_nil, ← hspans, List.map_map,
    List.map_map]
  rfl

/-- **Lexing gives back what was joined.**  A file that is rendered from stretches without `/*` and
remarks without `*/` has its remarks found, each where it was put, and nothing else. -/
theorem comments_render (file : ByteFile w) (t : Remarks) (h : t.render = file.bytes.toList) :
    ∃ ranges, comments file = .ok ranges ∧
      ranges.map (fun r => (r.start.toNat, r.end_.toNat)) = t.spans 0 ∧
      ranges.map file.cursor.slice = t.parts.map fun text => .ok (some text) := by
  obtain ⟨ranges, hranges, hspans⟩ := comments_spans file h
  exact ⟨ranges, hranges, hspans, slice_remark file h hspans⟩

/-- `a/*b*/`. -/
theorem comments_render_one :
    ∃ ranges, comments (⟨some ⟨[97, 47, 42, 98, 42, 47], by decide⟩⟩ : ByteFile 64) = .ok ranges ∧
      ranges.map (fun r => (r.start.toNat, r.end_.toNat)) = [(1, 6)] := by
  obtain ⟨ranges, hranges, hspans, -⟩ := comments_render (w := 64)
    ⟨some ⟨[97, 47, 42, 98, 42, 47], by decide⟩⟩
    (.enclosed [97] (by decide) [98] (by decide) (.plain [] (by decide))) rfl
  exact ⟨ranges, hranges, hspans⟩

/-- **Every remark is found, and nothing else**: the ranges lie one behind the other, every `/*` of
the file begins in one of them, and each of them is a remark up to its first `*/`, or up to EOF. -/
theorem comments_sound_complete (file : ByteFile w) :
    ∃ ranges, comments file = .ok ranges ∧
      ranges.Pairwise (fun r s => r.end_ ≤ s.start) ∧
      (∀ i, file.bytes.toList[i]? = some SLASH → file.bytes.toList[i + 1]? = some STAR →
        ∃ r ∈ ranges, r.start.toNat ≤ i ∧ i < r.end_.toNat) ∧
      ∀ j r, ranges[j]? = some r → ∃ body, ¬ [STAR, SLASH] <:+: body ∧
        (file.cursor.slice r = .ok (some ([SLASH, STAR] ++ body ++ [STAR, SLASH])) ∨
          j + 1 = ranges.length ∧ r.end_ = file.cursor.eof ∧
            file.cursor.slice r = .ok (some ([SLASH, STAR] ++ body))) := by
  obtain ⟨t, ht⟩ : ∃ t : Remarks, t.render = file.bytes.toList :=
    ⟨parse _ file.bytes.toList, render_parse _⟩
  obtain ⟨ranges, hranges, hspans⟩ := comments_spans file ht
  have hslice := slice_remark file ht hspans
  refine ⟨ranges, hranges, ?_, ?_, ?_⟩
  · have hpair := t.spans_pairwise 0
    rw [← hspans, List.pairwise_map] at hpair
    exact hpair
  · intro i h₁ h₂
    rw [← ht] at h₁ h₂
    obtain ⟨s, hs, hle, hlt⟩ := t.covers (n := 0) h₁ h₂
    rw [← hspans] at hs
    obtain ⟨r, hr, rfl⟩ := List.mem_map.mp hs
    exact ⟨r, hr, by simpa using hle, by simpa using hlt⟩
  · intro j r hr
    have hs : (t.spans 0)[j]? = some r.bounds := by rw [← hspans, List.getElem?_map, hr]; rfl
    have hj : ∀ {text}, t.parts[j]? = some text → file.cursor.slice r = .ok (some text) := by
      intro text htext
      have := congrArg (·[j]?) hslice
      simpa [hr, htext] using this
    rcases t.parts_shape hs with ⟨body, hbody, hpart⟩ | ⟨hlast, hend, -, body, hbody, hpart⟩
    · exact ⟨body, hbody, Or.inl (hj hpart)⟩
    · refine ⟨body, hbody, Or.inr ⟨?_, ?_, hj hpart⟩⟩
      · rw [hlast, ← hspans, List.length_map]
      · apply BytePos.ext_toNat
        rw [Nat.zero_add, ht] at hend
        exact hend.trans (Slice.toNat_len file.bytes).symm

/-- **Appending to a file** keeps its remarks and adds those of the new bytes, unless the last
remark is open or a `/*` lies across the cut. -/
theorem comments_append (a b ab : ByteFile w) {t : Remarks} {last : List UInt8}
    (hab : ab.bytes.toList = a.bytes.toList ++ b.bytes.toList)
    (ht : t.render = a.bytes.toList) (hclosed : t.last? = some last)
    (hcut : ¬ (last.getLast? = some SLASH ∧ b.bytes.toList.head? = some STAR)) :
    ∃ ra rb rab, comments a = .ok ra ∧ comments b = .ok rb ∧ comments ab = .ok rab ∧
      rab.map (fun r => (r.start.toNat, r.end_.toNat)) =
        ra.map (fun r => (r.start.toNat, r.end_.toNat)) ++ rb.map fun r =>
          (a.bytes.toList.length + r.start.toNat, a.bytes.toList.length + r.end_.toNat) := by
  obtain ⟨u, hu⟩ : ∃ u : Remarks, u.render = b.bytes.toList :=
    ⟨parse _ b.bytes.toList, render_parse _⟩
  obtain ⟨v, hv, -, hspans⟩ := t.exists_append u hclosed (by rw [hu]; exact hcut)
  rw [ht, hu, ← hab] at hv
  obtain ⟨ra, hra, hsa⟩ := comments_spans a ht
  obtain ⟨rb, hrb, hsb⟩ := comments_spans b hu
  obtain ⟨rab, hrab, hsab⟩ := comments_spans ab hv
  refine ⟨ra, rb, rab, hra, hrb, hrab, ?_⟩
  calc rab.map ByteRange.bounds = t.spans 0 ++ u.spans (a.bytes.toList.length + 0) := by
        rw [hsab, hspans, ht, Nat.zero_add, Nat.add_zero]
    _ = _ := by rw [u.spans_add, ← hsa, ← hsb, List.map_map]; rfl

/-- `/**/` in front of `*/`: the `/` that closes a remark opens none. -/
theorem comments_append_close :
    ∃ ranges, comments (⟨some ⟨[47, 42, 42, 47, 42, 47], by decide⟩⟩ : ByteFile 64) = .ok ranges ∧
      ranges.length = 1 := by
  obtain ⟨ra, rb, rab, ha, hb, hab, h⟩ := comments_append (w := 64)
    ⟨some ⟨[47, 42, 42, 47], by decide⟩⟩ ⟨some ⟨[42, 47], by decide⟩⟩
    ⟨some ⟨[47, 42, 42, 47, 42, 47], by decide⟩⟩
    (t := .enclosed [] (by decide) [] (by decide) (.plain [] (by decide))) rfl rfl rfl (by decide)
  obtain ⟨ra', ha', hra⟩ := comments_spans (w := 64) ⟨some ⟨[47, 42, 42, 47], by decide⟩⟩
    (t := .enclosed [] (by decide) [] (by decide) (.plain [] (by decide))) rfl
  obtain ⟨rb', hb', hrb⟩ := comments_spans (w := 64) ⟨some ⟨[42, 47], by decide⟩⟩
    (t := .plain [42, 47] (by decide)) rfl
  rw [ha, Except.ok.injEq] at ha'
  rw [hb, Except.ok.injEq] at hb'
  subst ha' hb'
  refine ⟨rab, hab, ?_⟩
  have hlen := congrArg List.length h
  have hlena := congrArg List.length hra
  have hlenb := congrArg List.length hrb
  simp only [List.length_map, List.length_append] at hlen hlena hlenb
  rw [hlen, hlena, hlenb]
  rfl

end MmapCursor
