import MmapCursor.Slice
import MmapCursor.Lib.Loops

/-!
# The cursor

Model of `cursor.rs`, method by method.  A `Cursor` holds the same three fields as the source and
nothing keeps them consistent here: that `eof` is the length of the source and that `pos` never
passes it is proved of every reachable cursor (`MmapCursor.CursorRuns`), not assumed.

A `&mut self` method returns the cursor it leaves behind; a method whose body contains a slice
index, `ByteRange::new` or a loop returns it in `Res`.  The closure of `advance_until` is a pure
function of the byte.
-/

set_option autoImplicit false

namespace MmapCursor

variable {w : Nat}

/-- `Cursor<'src>`. -/
structure Cursor (w : Nat) where
  source : Slice w
  pos : BytePos w
  eof : BytePos w
  deriving DecidableEq, Repr

namespace Cursor

/-- `Cursor::new`. -/
def new (source : Slice w) : Cursor w :=
  { source := source, pos := BytePos.ZERO, eof := BytePos.new source.len }

/-- `Cursor::position`. -/
def position (c : Cursor w) : BytePos w := c.pos

/-- `Cursor::is_eof`. -/
def isEof (c : Cursor w) : Bool := decide (c.pos ≥ c.eof)

/-- `Cursor::remaining_len`. -/
def remainingLen (c : Cursor w) : Usize w := Usize.saturatingSub c.eof.toUsize c.pos.toUsize

/-- `Cursor::peek`. -/
def peek (c : Cursor w) : Option UInt8 := c.source.get c.pos.toUsize

/-- `Cursor::peek_n_ahead`. -/
def peekNAhead (c : Cursor w) (n : Usize w) : Option UInt8 :=
  c.source.get (Usize.saturatingAdd c.pos.toUsize n)

/-- `Cursor::slice`. -/
def slice (c : Cursor w) (range : ByteRange w) : Res (Option (List UInt8)) :=
  if range.end_ > c.eof then .ok none
  else (c.source.range range.start.toUsize range.end_.toUsize).map some

/-- `Cursor::slice_n_ahead`. -/
def sliceNAhead (c : Cursor w) (n : Usize w) : Res (Option (List UInt8) × Cursor w) :=
  if c.isEof then .ok (none, c)
  else do
    let end_ := (c.pos.saturatingAdd (BytePos.new n)).min c.eof
    let range ← ByteRange.new c.pos end_
    match ← c.slice range with
    | none => .ok (none, c)
    | some slice => .ok (some slice, { c with pos := end_ })

/-- `Cursor::rest`. -/
def rest (c : Cursor w) : Res (Option (List UInt8)) :=
  if c.isEof then .ok none
  else (c.source.rangeFrom c.pos.toUsize).map some

/-- `Cursor::seek`. -/
def seek (c : Cursor w) (pos : BytePos w) : Cursor w := { c with pos := pos.min c.eof }

/-- `Cursor::advance`. -/
def advance (c : Cursor w) : Cursor w :=
  { c with pos := (c.pos.saturatingAdd (BytePos.new 1)).min c.eof }

/-- `Cursor::advance_n_ahead`. -/
def advanceNAhead (c : Cursor w) (n : Usize w) : Cursor w :=
  { c with pos := (c.pos.saturatingAdd (BytePos.new n)).min c.eof }

/-- `Cursor::advance_if_starts_with`. -/
def advanceIfStartsWith (c : Cursor w) (pre : List UInt8) : Res (Bool × Cursor w) := do
  let rest ← c.rest
  if rest.any (fun r => pre.isPrefixOf r) then
    let len := BytePos.new (BitVec.ofNat w pre.length)
    .ok (true, { c with pos := (c.pos.saturatingAdd len).min c.eof })
  else .ok (false, c)

/-- One round of the `while` of `advance_until`. -/
def advanceUntilRound (f : UInt8 → Bool) (c : Cursor w) : Res (ForInStep (Cursor w)) :=
  if c.peek.any f then .ok (.yield c.advance) else .ok (.done c)

/-- `Cursor::advance_until`.  A scan that gets anywhere passes a byte of the source in every
round, so this fuel is enough for it. -/
def advanceUntil (c : Cursor w) (f : UInt8 → Bool) : Res (Cursor w) :=
  Loops.loop .outOfFuel (advanceUntilRound f) (c.source.toList.length + 1) c

/-- `Cursor::advance_to`. -/
def advanceTo (c : Cursor w) (stop : UInt8) : Res (Cursor w) := c.advanceUntil fun b => b != stop

/-- `Cursor::advance_through`. -/
def advanceThrough (c : Cursor w) (stop : UInt8) : Res (Cursor w) := do
  let c ← c.advanceTo stop
  if c.peek = some stop then .ok c.advance else .ok c

end Cursor

end MmapCursor
