import MmapCursor.CursorRuns
import MmapCursor.Lib.Separated

/-!
# Where scans stop

`advance_until` stops at the least offset in front of EOF whose byte fails the predicate, or at EOF
(`advanceUntil_isLeast`); the two wrappers around it follow.  `scan_stops` states this for every
reachable cursor, with what it means for scanning again, for starting in between, and for repeated
calls of `advance_through`.
-/

set_option autoImplicit false

namespace MmapCursor

variable {w : Nat}

namespace Cursor

theorem advanceUntil_isLeast {c : Cursor w} (h : c.Inv) (f : UInt8 → Bool) :
    ∃ c', c.advanceUntil f = .ok c' ∧ c'.Inv ∧ c'.source = c.source ∧
      IsLeast (Separated.stops f c.source.toList c.pos.toNat) c'.pos.toNat := by
  obtain ⟨c', heq, hinv, hs, -, hu⟩ := advanceUntil_spec h f
  refine ⟨c', heq, hinv, hs, ?_⟩
  rw [pos_of_append h hinv hs (unread_of_dropWhile hu)]
  exact Separated.isLeast_takeWhile h.pos_le_length

/-- A scan from a position that the scan of `c` passes ends where that scan ends. -/
theorem advanceUntil_between {c c' d : Cursor w} {f : UInt8 → Bool} (h' : c'.Inv) (hd : d.Inv)
    (hs : c'.source = c.source) (hsd : d.source = c.source)
    (hleast : IsLeast (Separated.stops f c.source.toList c.pos.toNat) c'.pos.toNat)
    (hle : c.pos.toNat ≤ d.pos.toNat) (hle' : d.pos.toNat ≤ c'.pos.toNat) :
    d.advanceUntil f = .ok c' := by
  obtain ⟨d', heq, hinv, hsrc, hleast'⟩ := advanceUntil_isLeast hd f
  rw [hsd] at hleast' hsrc
  have hpos := hleast'.unique (Separated.IsLeast.stops_mono hleast hle hle')
  rw [heq, eq_of_pos h' hinv (hsrc.trans hs.symm) hpos]

theorem stops_ne (l : List UInt8) (stop : UInt8) (p : Nat) :
    Separated.stops (· != stop) l p = {q | p ≤ q ∧ (q = l.length ∨ l[q]? = some stop)} := by
  ext q
  rw [Separated.mem_stops]
  simp

theorem advanceThrough_isLeast {c : Cursor w} (h : c.Inv) (stop : UInt8) :
    ∃ c' q, c.advanceThrough stop = .ok c' ∧
      IsLeast (Separated.stops (· != stop) c.source.toList c.pos.toNat) q ∧
      c'.pos.toNat = if q < c.eof.toNat then q + 1 else c.eof.toNat := by
  obtain ⟨d, hd, hdinv, hds, hleast⟩ := advanceUntil_isLeast h (· != stop)
  have heof : d.eof.toNat = c.eof.toNat := by rw [hdinv.eof_eq, h.eof_eq, hds]
  unfold advanceThrough advanceTo
  simp only [hd, bind, Except.bind]
  rcases hleast.1.2 with hend | ⟨b, hb, hf⟩
  · have hnil : d.unread = [] := by rw [unread, hds, hend, List.drop_length]
    refine ⟨d, d.pos.toNat, ?_, hleast, ?_⟩
    · rw [peek_eq, hnil, if_neg (by simp)]
    · rw [h.eof_eq, hend, if_neg (Nat.lt_irrefl _)]
  · have hb' : b = stop := by simpa using hf
    have hlt := (List.getElem?_eq_some_iff.mp hb).1
    have hpeek : d.peek = some stop := by
      rw [peek_eq, unread, List.head?_drop, hds, hb, hb']
    obtain ⟨hinv, hu⟩ := advance_spec hdinv
    have hsplit : d.unread = d.unread.take 1 ++ d.advance.unread := by
      rw [hu, List.take_append_drop]
    have hlen := length_unread hdinv
    rw [heof, h.eof_eq] at hlen
    refine ⟨d.advance, d.pos.toNat, by rw [if_pos hpeek], hleast, ?_⟩
    rw [pos_of_append hdinv hinv rfl hsplit, List.length_take_of_le (by omega),
      if_pos (by rw [h.eof_eq]; exact hlt)]

/-- `k` calls of `advance_through`. -/
def advanceThroughTimes (stop : UInt8) : Nat → Cursor w → Res (Cursor w)
  | 0, c => .ok c
  | k + 1, c => do
    let c ← c.advanceThrough stop
    advanceThroughTimes stop k c

theorem advanceThroughTimes_spec (stop : UInt8) : ∀ (k : Nat) {c : Cursor w}, c.Inv →
    ∃ c', advanceThroughTimes stop k c = .ok c' ∧ c'.Inv ∧ c'.source = c.source ∧
      c'.unread = (Separated.past stop)^[k] c.unread
  | 0, c, h => ⟨c, rfl, h, rfl, rfl⟩
  | k + 1, c, h => by
    obtain ⟨d, hd, hdinv, hds, -, hu⟩ := advanceThrough_spec h stop
    obtain ⟨c', heq, hinv, hs, hu'⟩ := advanceThroughTimes_spec stop k hdinv
    refine ⟨c', ?_, hinv, hs.trans hds, ?_⟩
    · unfold advanceThroughTimes
      simp only [hd, bind, Except.bind]
      exact heq
    · rw [hu', hu, Function.iterate_succ_apply]
      rfl

/-- Behind the `k + 1`-st `stop`, or at EOF. -/
theorem advanceThroughTimes_pos {c : Cursor w} (h : c.Inv) (stop : UInt8) (k : Nat) :
    ∃ c', advanceThroughTimes stop (k + 1) c = .ok c' ∧
      (c.unread.count stop ≤ k → c'.pos.toNat = c.eof.toNat) ∧
      (k < c.unread.count stop → ∃ q, c.pos.toNat ≤ q ∧ c.source.toList[q]? = some stop ∧
        (c.source.toList.extract c.pos.toNat q).count stop = k ∧ c'.pos.toNat = q + 1) := by
  obtain ⟨c', heq, hinv, hs, hu⟩ := advanceThroughTimes_spec stop (k + 1) h
  obtain ⟨hfew, hmany⟩ := Separated.iterate_past k c.unread
  rw [← hu] at hfew hmany
  refine ⟨c', heq, fun hcount => ?_, fun hcount => ?_⟩
  · have heof := (unread_eq_nil hinv).mp (hfew hcount)
    have hle := hinv.pos_le
    rw [hinv.eof_eq, hs, ← h.eof_eq] at heof hle
    omega
  · obtain ⟨pre, hpre, hk⟩ := hmany hcount
    have hsplit : c.unread = (pre ++ [stop]) ++ c'.unread := by
      rw [List.append_assoc]; exact hpre
    have hpos := pos_of_append h hinv hs hsplit
    rw [List.length_append, List.length_singleton] at hpos
    refine ⟨c.pos.toNat + pre.length, Nat.le_add_right _ _, ?_, ?_, by omega⟩
    · rw [← List.getElem?_drop, ← unread, hpre, List.getElem?_append_right (Nat.le_refl _),
        Nat.sub_self]
      rfl
    · rw [List.extract_eq_take_drop, ← unread, hpre, Nat.add_sub_cancel_left, List.take_left]
      exact hk

/-- **Where scans stop**, from any reachable cursor. -/
theorem scan_stops {s : Slice w} {c : Cursor w} (hc : Reachable s c) :
    (∀ f : UInt8 → Bool, ∃ c', c.advanceUntil f = .ok c' ∧
      IsLeast {q | c.pos.toNat ≤ q ∧
        (q = c.eof.toNat ∨ ∃ b, s.toList[q]? = some b ∧ f b = false)} c'.pos.toNat ∧
      c'.advanceUntil f = .ok c' ∧
      ∀ d, Reachable s d → c.pos ≤ d.pos → d.pos ≤ c'.pos → d.advanceUntil f = .ok c') ∧
    (∀ stop : UInt8, ∃ c', c.advanceTo stop = .ok c' ∧
      IsLeast {q | c.pos.toNat ≤ q ∧ (q = c.eof.toNat ∨ s.toList[q]? = some stop)}
        c'.pos.toNat) ∧
    (∀ stop : UInt8, ∃ c' q, c.advanceThrough stop = .ok c' ∧
      IsLeast {q | c.pos.toNat ≤ q ∧ (q = c.eof.toNat ∨ s.toList[q]? = some stop)} q ∧
      c'.pos.toNat = if q < c.eof.toNat then q + 1 else c.eof.toNat) ∧
    ∀ (stop : UInt8) (k : Nat), ∃ c', advanceThroughTimes stop (k + 1) c = .ok c' ∧
      ((s.toList.drop c.pos.toNat).count stop ≤ k → c'.pos.toNat = c.eof.toNat) ∧
      (k < (s.toList.drop c.pos.toNat).count stop → ∃ q, c.pos.toNat ≤ q ∧
        s.toList[q]? = some stop ∧ (s.toList.extract c.pos.toNat q).count stop = k ∧
        c'.pos.toNat = q + 1) := by
  obtain ⟨h, hs⟩ := hc.inv
  subst hs
  rw [h.eof_eq]
  refine ⟨fun f => ?_, fun stop => ?_, fun stop => ?_, fun stop k => ?_⟩
  · obtain ⟨c', heq, hinv, hs, hleast⟩ := advanceUntil_isLeast h f
    refine ⟨c', heq, hleast, ?_, fun d hd hle hle' => ?_⟩
    · exact advanceUntil_between hinv hinv hs hs hleast hleast.1.1 (Nat.le_refl _)
    · exact advanceUntil_between hinv hd.inv.1 hs hd.inv.2 hleast hle hle'
  · obtain ⟨c', heq, -, -, hleast⟩ := advanceUntil_isLeast h (· != stop)
    rw [stops_ne] at hleast
    exact ⟨c', heq, hleast⟩
  · obtain ⟨c', q, heq, hleast, hpos⟩ := advanceThrough_isLeast h stop
    rw [stops_ne] at hleast
    rw [h.eof_eq] at hpos
    exact ⟨c', q, heq, hleast, hpos⟩
  · obtain ⟨c', heq, hfew, hmany⟩ := advanceThroughTimes_pos h stop k
    rw [h.eof_eq] at hfew
    exact ⟨c', heq, hfew, hmany⟩

/-- Behind the second `;` of `a;b;`, which is its last byte. -/
theorem scan_stops_last :
    ∃ c' q, advanceThroughTimes 59 2 (new (⟨[97, 59, 98, 59], by decide⟩ : Slice 64)) = .ok c' ∧
      ([97, 59, 98, 59] : List UInt8)[q]? = some 59 ∧
      (([97, 59, 98, 59] : List UInt8).extract 0 q).count 59 = 1 ∧ c'.pos.toNat = q + 1 := by
  have hreach : Reachable (⟨[97, 59, 98, 59], by decide⟩ : Slice 64)
      (new ⟨[97, 59, 98, 59], by decide⟩) := ⟨[], _, rfl⟩
  obtain ⟨c', heq, -, hmany⟩ := (scan_stops hreach).2.2.2 59 1
  obtain ⟨q, -, hq, hk, hpos⟩ := hmany (by decide)
  exact ⟨c', q, heq, hq, hk, hpos⟩

end Cursor

end MmapCursor
