import MmapCursor.ByteFile

/-!
# Arithmetic on positions

The rest of `position.rs`: the three families of `+` and `-` on `BytePos` (`checked_*`, the
panicking operators, `saturating_*`) and the other constructors of `ByteRange`.

* `Panic`, `Out` — why a caller of the crate does not return, and its result; a call that faults
  inside the crate is lifted to it;
* `walks_agree` — a whole walk of additions and subtractions, done in each of the families;
* `tryNew_eq_ok_iff`, `tryNew_eq_error_iff` — `ByteRange::try_new`, which accepts what
  `ByteRange::new` accepts.
-/

set_option autoImplicit false

namespace MmapCursor

variable {w : Nat} {ε : Type}

/-- Why a caller does not return a value. -/
inductive Panic where
  /-- A fault inside the crate. -/
  | fault (f : Fault)
  /-- `expect` on a `None`, or an assertion, with its message. -/
  | expect (message : String)
  deriving DecidableEq, Repr

/-- A caller that returns, or panics. -/
abbrev Out (α : Type) := Except Panic α

instance : MonadLift (Except Fault) (Except Panic) := ⟨Except.mapError .fault⟩

@[simp] theorem liftM_ok {α : Type} (a : α) : (liftM (Except.ok a : Res α) : Out α) = .ok a := rfl

namespace BytePos

/-- `BytePos::checked_add`. -/
def checkedAdd (a b : BytePos w) : Option (BytePos w) :=
  match Words.checkedAdd a.toUsize b.toUsize with
  | some sum => some ⟨sum⟩
  | none => none

/-- `BytePos::checked_sub`. -/
def checkedSub (a b : BytePos w) : Option (BytePos w) :=
  match Words.checkedSub a.toUsize b.toUsize with
  | some difference => some ⟨difference⟩
  | none => none

/-- `impl Add<BytePos> for BytePos`. -/
def add (a b : BytePos w) : Out (BytePos w) :=
  match Words.checkedAdd a.toUsize b.toUsize with
  | some sum => .ok ⟨sum⟩
  | none => .error (.expect "BytePos addition overflowed")

/-- `impl Sub<BytePos> for BytePos`. -/
def sub (a b : BytePos w) : Out (BytePos w) :=
  match Words.checkedSub a.toUsize b.toUsize with
  | some difference => .ok ⟨difference⟩
  | none => .error (.expect "BytePos subtraction underflowed")

/-- `BytePos::as_range`. -/
def asRange (a : BytePos w) : ByteRange w := ⟨a, a, Nat.le_refl _⟩

theorem checkedAdd_eq_some_iff {a b c : BytePos w} :
    a.checkedAdd b = some c ↔ c.toNat = a.toNat + b.toNat := by
  have hword := Words.checkedAdd_eq_some_iff (a := a.toUsize) (b := b.toUsize) (c := c.toUsize)
  simp only [toNat_toUsize] at hword
  rw [← hword, checkedAdd]
  cases c
  cases Words.checkedAdd a.toUsize b.toUsize <;> simp

theorem checkedSub_eq_some_iff {a b c : BytePos w} :
    a.checkedSub b = some c ↔ c.toNat + b.toNat = a.toNat := by
  have hword := Words.checkedSub_eq_some_iff (a := a.toUsize) (b := b.toUsize) (c := c.toUsize)
  simp only [toNat_toUsize] at hword
  rw [← hword, checkedSub]
  cases c
  cases Words.checkedSub a.toUsize b.toUsize <;> simp

/-- The operators return what the checked methods return, and panic where these return `None`. -/
theorem add_eq (a b : BytePos w) :
    a.add b = (a.checkedAdd b).elim (.error (.expect "BytePos addition overflowed")) .ok := by
  unfold add checkedAdd
  cases Words.checkedAdd a.toUsize b.toUsize <;> rfl

theorem sub_eq (a b : BytePos w) :
    a.sub b = (a.checkedSub b).elim (.error (.expect "BytePos subtraction underflowed")) .ok := by
  unfold sub checkedSub
  cases Words.checkedSub a.toUsize b.toUsize <;> rfl

theorem add_ok {a b : BytePos w} (h : a.toNat + b.toNat < 2 ^ w) :
    ∃ c, a.add b = .ok c ∧ c.toNat = a.toNat + b.toNat := by
  have hval : (BitVec.ofNat w (a.toNat + b.toNat)).toNat = _ := Words.toNat_ofNat_of_lt h
  refine ⟨⟨BitVec.ofNat w (a.toNat + b.toNat)⟩, ?_, hval⟩
  rw [add_eq, checkedAdd_eq_some_iff.mpr hval]
  rfl

end BytePos

/-! ## Walks -/

/-- One `+` or `-` on a position. -/
inductive Shift (w : Nat) where
  | plus (n : BytePos w)
  | minus (n : BytePos w)
  deriving DecidableEq, Repr

namespace Shift

/-- By how much a shift changes the exact position. -/
def offset : Shift w → Int
  | .plus n => n.toNat
  | .minus n => -n.toNat

/-- The shift, with `checked_add` and `checked_sub`. -/
def checked (p : BytePos w) : Shift w → Option (BytePos w)
  | .plus n => p.checkedAdd n
  | .minus n => p.checkedSub n

/-- The shift, with the operators. -/
def panicking (p : BytePos w) : Shift w → Out (BytePos w)
  | .plus n => p.add n
  | .minus n => p.sub n

/-- The shift, with `saturating_add` and `saturating_sub`. -/
def saturating (p : BytePos w) : Shift w → BytePos w
  | .plus n => p.saturatingAdd n
  | .minus n => p.saturatingSub n

/-- What the operator panics with. -/
def message : Shift w → String
  | .plus _ => "BytePos addition overflowed"
  | .minus _ => "BytePos subtraction underflowed"

/-- The exact distance of a walk. -/
def total : List (Shift w) → Int
  | [] => 0
  | m :: shifts => m.offset + total shifts

@[simp] theorem total_nil : total ([] : List (Shift w)) = 0 := rfl

@[simp] theorem total_cons (m : Shift w) (shifts : List (Shift w)) :
    total (m :: shifts) = m.offset + total shifts := rfl

/-- **One shift** reaches the exact position, if that is a position at all. -/
theorem checked_eq_some_iff {p q : BytePos w} {m : Shift w} :
    m.checked p = some q ↔ (q.toNat : Int) = p.toNat + m.offset := by
  cases m with
  | plus n =>
    simp only [checked, offset, BytePos.checkedAdd_eq_some_iff]
    omega
  | minus n =>
    simp only [checked, offset, BytePos.checkedSub_eq_some_iff]
    omega

theorem checked_isSome_iff {p : BytePos w} {m : Shift w} :
    (m.checked p).isSome ↔ 0 ≤ p.toNat + m.offset ∧ p.toNat + m.offset < 2 ^ w := by
  rw [Option.isSome_iff_exists]
  constructor
  · rintro ⟨q, hq⟩
    have hlt := q.toNat_lt
    rw [checked_eq_some_iff] at hq
    rw [← hq]
    exact ⟨by omega, by exact_mod_cast hlt⟩
  · rintro ⟨hpos, hlt⟩
    obtain ⟨n, hn⟩ := Int.eq_ofNat_of_zero_le hpos
    rw [hn] at hlt
    have hlt' : n < 2 ^ w := by exact_mod_cast hlt
    refine ⟨⟨BitVec.ofNat w n⟩, checked_eq_some_iff.mpr ?_⟩
    rw [hn]
    exact congrArg Int.ofNat (Words.toNat_ofNat_of_lt hlt')

theorem panicking_eq (p : BytePos w) (m : Shift w) :
    m.panicking p = (m.checked p).elim (.error (.expect m.message)) .ok := by
  cases m with
  | plus n => exact BytePos.add_eq p n
  | minus n => exact BytePos.sub_eq p n

theorem saturating_eq {p q : BytePos w} {m : Shift w} (h : m.checked p = some q) :
    m.saturating p = q := by
  have hlt := q.toNat_lt
  rw [checked_eq_some_iff] at h
  apply BytePos.ext_toNat
  cases m with
  | plus n =>
    simp only [saturating, offset, BytePos.toNat_saturatingAdd] at h ⊢
    omega
  | minus n =>
    simp only [saturating, offset, BytePos.toNat_saturatingSub] at h ⊢
    omega

end Shift

/-- A walk, with the checked methods. -/
def checkedWalk (start : BytePos w) (shifts : List (Shift w)) : Option (BytePos w) :=
  shifts.foldlM Shift.checked start

/-- A walk, with the operators. -/
def panickingWalk (start : BytePos w) (shifts : List (Shift w)) : Out (BytePos w) :=
  shifts.foldlM Shift.panicking start

/-- A walk, with the saturating methods. -/
def saturatingWalk (start : BytePos w) (shifts : List (Shift w)) : BytePos w :=
  shifts.foldl Shift.saturating start

/-- The walk never leaves the address space. -/
def InRange (start : BytePos w) (shifts : List (Shift w)) : Prop :=
  ∀ pre, pre <+: shifts → 0 ≤ start.toNat + Shift.total pre ∧ start.toNat + Shift.total pre < 2 ^ w

theorem inRange_nil (start : BytePos w) : InRange start [] := by
  intro pre hpre
  have hlt := start.toNat_lt
  rw [List.prefix_nil.mp hpre, Shift.total_nil, Int.add_zero]
  exact ⟨by omega, by exact_mod_cast hlt⟩

theorem inRange_cons {start q : BytePos w} {m : Shift w} {shifts : List (Shift w)}
    (hq : m.checked start = some q) : InRange start (m :: shifts) ↔ InRange q shifts := by
  rw [Shift.checked_eq_some_iff] at hq
  constructor
  · intro h pre hpre
    have hm := h (m :: pre) (List.cons_prefix_cons.mpr ⟨rfl, hpre⟩)
    rwa [Shift.total_cons, ← Int.add_assoc, ← hq] at hm
  · intro h pre hpre
    rcases List.prefix_cons_iff.mp hpre with rfl | ⟨pre', rfl, hpre'⟩
    · exact inRange_nil start [] List.prefix_rfl
    · rw [Shift.total_cons, ← Int.add_assoc, ← hq]
      exact h pre' hpre'

theorem checkedWalk_cons (start : BytePos w) (m : Shift w) (shifts : List (Shift w)) :
    checkedWalk start (m :: shifts) =
      (m.checked start).bind fun q => checkedWalk q shifts := rfl

/-- **A checked walk** reaches the exact position, if it never leaves the address space. -/
theorem checkedWalk_eq_some_iff {start p : BytePos w} {shifts : List (Shift w)} :
    checkedWalk start shifts = some p ↔
      InRange start shifts ∧ (p.toNat : Int) = start.toNat + Shift.total shifts := by
  induction shifts generalizing start with
  | nil =>
    rw [Shift.total_nil, Int.add_zero, Int.natCast_inj]
    constructor
    · intro h
      cases h
      exact ⟨inRange_nil _, rfl⟩
    · rintro ⟨-, h⟩
      exact congrArg some (BytePos.ext_toNat h).symm
  | cons m shifts ih =>
    rw [checkedWalk_cons]
    cases hm : m.checked start with
    | none =>
      constructor
      · intro h
        cases h
      · rintro ⟨h, -⟩
        have hfirst := h [m] (List.cons_prefix_cons.mpr ⟨rfl, List.nil_prefix⟩)
        rw [Shift.total_cons, Shift.total_nil, Int.add_zero, ← Shift.checked_isSome_iff,
          hm] at hfirst
        cases hfirst
    | some q =>
      rw [Option.bind_some, ih, inRange_cons hm, Shift.total_cons, ← Int.add_assoc,
        ← Shift.checked_eq_some_iff.mp hm]

/-- The operators walk as the checked methods do; where these give up, they panic at that shift. -/
theorem panickingWalk_spec (start : BytePos w) (shifts : List (Shift w)) :
    (∃ p, checkedWalk start shifts = some p ∧ panickingWalk start shifts = .ok p) ∨
      ∃ (pre post : List (Shift w)) (m : Shift w) (q : BytePos w),
        shifts = pre ++ m :: post ∧ checkedWalk start pre = some q ∧ m.checked q = none ∧
        checkedWalk start shifts = none ∧ panickingWalk start shifts = .error (.expect m.message) := by
  induction shifts generalizing start with
  | nil => exact Or.inl ⟨start, rfl, rfl⟩
  | cons m shifts ih =>
    have hpanicking : panickingWalk start (m :: shifts) =
        m.panicking start >>= fun q => panickingWalk q shifts := rfl
    rw [hpanicking, checkedWalk_cons, Shift.panicking_eq]
    cases hm : m.checked start with
    | none => exact Or.inr ⟨[], shifts, m, start, rfl, rfl, hm, rfl, rfl⟩
    | some q =>
      rcases ih q with hok | ⟨pre, post, m', q', rfl, hpre, hm', hnone, herror⟩
      · exact Or.inl hok
      · refine Or.inr ⟨m :: pre, post, m', q', rfl, ?_, hm', hnone, herror⟩
        rw [checkedWalk_cons, hm]
        exact hpre

theorem saturatingWalk_eq {start p : BytePos w} {shifts : List (Shift w)}
    (h : checkedWalk start shifts = some p) : saturatingWalk start shifts = p := by
  induction shifts generalizing start with
  | nil =>
    cases h
    rfl
  | cons m shifts ih =>
    rw [checkedWalk_cons, Option.bind_eq_some_iff] at h
    obtain ⟨q, hq, hwalk⟩ := h
    show saturatingWalk (m.saturating start) shifts = p
    rw [Shift.saturating_eq hq]
    exact ih hwalk

/-- **The three families agree** on every walk that stays in the address space, and return the exact
position; on any other one the checked methods return `None` and the operators panic, with the
message of the first shift that leaves it. -/
theorem walks_agree (start : BytePos w) (shifts : List (Shift w)) :
    (InRange start shifts ∧ ∃ p, (p.toNat : Int) = start.toNat + Shift.total shifts ∧
      checkedWalk start shifts = some p ∧ panickingWalk start shifts = .ok p ∧
      saturatingWalk start shifts = p) ∨
    ∃ (pre post : List (Shift w)) (m : Shift w) (q : BytePos w),
      shifts = pre ++ m :: post ∧ InRange start pre ∧ (q.toNat : Int) = start.toNat + Shift.total pre ∧
      ¬ (0 ≤ q.toNat + m.offset ∧ q.toNat + m.offset < 2 ^ w) ∧
      checkedWalk start shifts = none ∧ panickingWalk start shifts = .error (.expect m.message) := by
  rcases panickingWalk_spec start shifts with
    ⟨p, hchecked, hok⟩ | ⟨pre, post, m, q, hshifts, hpre, hm, hnone, herror⟩
  · obtain ⟨hrange, hp⟩ := checkedWalk_eq_some_iff.mp hchecked
    exact Or.inl ⟨hrange, p, hp, hchecked, hok, saturatingWalk_eq hchecked⟩
  · obtain ⟨hrange, hq⟩ := checkedWalk_eq_some_iff.mp hpre
    refine Or.inr ⟨pre, post, m, q, hshifts, hrange, hq, ?_, hnone, herror⟩
    rw [← Shift.checked_isSome_iff, hm]
    simp

/-! ## Ranges -/

namespace ByteRange

/-- `ByteRange::try_new`. -/
def tryNew (start end_ : BytePos w) : Except (Error w ε) (ByteRange w) :=
  if h : start > end_ then .error (.reversedRange start end_)
  else .ok ⟨start, end_, Nat.le_of_not_lt h⟩

/-- `ByteRange::is_empty`. -/
def isEmpty (r : ByteRange w) : Bool := decide (r.start = r.end_)

/-- `ByteRange::EMPTY`. -/
def EMPTY : ByteRange w := ⟨BytePos.ZERO, BytePos.ZERO, Nat.le_refl _⟩

theorem tryNew_eq_ok_iff {start end_ : BytePos w} {r : ByteRange w} :
    (tryNew start end_ : Except (Error w ε) _) = .ok r ↔ new start end_ = .ok r := by
  unfold tryNew new
  by_cases h : start ≤ end_
  · have hgt : ¬ start > end_ := Nat.not_lt_of_le h
    rw [dif_neg hgt, dif_pos h, Except.ok.injEq, Except.ok.injEq]
  · have hgt : start > end_ := Nat.lt_of_not_le h
    rw [dif_pos hgt, dif_neg h]
    simp

theorem tryNew_eq_error_iff {start end_ : BytePos w} {e : Error w ε} :
    tryNew start end_ = .error e ↔ end_ < start ∧ e = .reversedRange start end_ := by
  unfold tryNew
  by_cases h : start > end_
  · rw [dif_pos h, Except.error.injEq, eq_comm]
    exact ⟨fun he => ⟨h, he⟩, fun he => he.2⟩
  · rw [dif_neg h]
    exact ⟨nofun, fun he => absurd he.1 h⟩

theorem isEmpty_iff {r : ByteRange w} : r.isEmpty = true ↔ ∃ p : BytePos w, r = p.asRange := by
  obtain ⟨start, end_, hle⟩ := r
  simp only [isEmpty, decide_eq_true_eq]
  constructor
  · rintro rfl
    exact ⟨start, rfl⟩
  · rintro ⟨p, hp⟩
    cases hp
    rfl

end ByteRange

end MmapCursor
