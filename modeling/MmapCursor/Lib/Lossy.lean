import Mathlib.Algebra.Order.Ring.Nat

/-!
# Reading bytes as UTF-8, whatever they are

The characters of a byte string, with a replacement character for each ill-formed sequence: of a
sequence that is cut short, or goes on with a byte that it may not go on with, the bytes in front of
that point; any other byte alone.

* `decode_encode_append` — encoded text is read back;
* `decode_ascii_append`, `length_decode_ascii` — as are ASCII bytes, one character each;
* `length_decode_le` — never more characters than bytes.
-/

set_option autoImplicit false

namespace Lossy

/-- U+FFFD. -/
def REPLACEMENT : Char := '\uFFFD'

/-- A byte that goes on with a sequence. -/
def isTail (b : UInt8) : Bool := 0x80 ≤ b && b ≤ 0xBF

/-- The second bytes of a sequence of three or four. -/
def allowsSecond (first second : UInt8) : Bool :=
  if first = 0xE0 then 0xA0 ≤ second && second ≤ 0xBF
  else if first = 0xED then 0x80 ≤ second && second ≤ 0x9F
  else if first = 0xF0 then 0x90 ≤ second && second ≤ 0xBF
  else if first = 0xF4 then 0x80 ≤ second && second ≤ 0x8F
  else 0xE1 ≤ first && first ≤ 0xF3 && isTail second

/-- The length of the ill-formed sequence at the front of bytes that begin with no character. -/
def illFormed : List UInt8 → Nat
  | first :: second :: rest =>
    if allowsSecond first second then
      if 0xF0 ≤ first ∧ rest.head?.any isTail then 3 else 2
    else 1
  | _ => 1

theorem illFormed_pos (bytes : List UInt8) : 0 < illFormed bytes := by
  unfold illFormed
  split
  · split
    · split <;> omega
    · omega
  · omega

/-- The character at the front. -/
def decodeChar? (bytes : List UInt8) : Option Char := bytes.toByteArray.utf8DecodeChar? 0

/-- The characters of at most `fuel` sequences. -/
def decodeFuel : Nat → List UInt8 → List Char
  | 0, _ => []
  | _ + 1, [] => []
  | fuel + 1, b :: bs =>
    match decodeChar? (b :: bs) with
    | some c => c :: decodeFuel fuel ((b :: bs).drop c.utf8Size)
    | none => REPLACEMENT :: decodeFuel fuel ((b :: bs).drop (illFormed (b :: bs)))

/-- The characters of a byte string.  Every sequence has a byte. -/
def decode (bytes : List UInt8) : List Char := decodeFuel bytes.length bytes

@[simp] theorem decode_nil : decode [] = [] := rfl

theorem decodeFuel_eq {fuel : Nat} {bytes : List UInt8} (h : bytes.length ≤ fuel) :
    decodeFuel fuel bytes = decode bytes := by
  unfold decode
  induction fuel using Nat.strong_induction_on generalizing bytes with
  | _ fuel ih =>
    cases bytes with
    | nil => cases fuel <;> rfl
    | cons b bs =>
      cases fuel with
      | zero => simp at h
      | succ fuel =>
        -- both go on with what is left behind the first sequence
        have hrest : ∀ n, 0 < n → decodeFuel fuel ((b :: bs).drop n) =
            decodeFuel bs.length ((b :: bs).drop n) := by
          intro n hn
          rw [List.length_cons] at h
          have hlen : ((b :: bs).drop n).length ≤ bs.length := by
            rw [List.length_drop, List.length_cons]
            omega
          rw [ih fuel (by omega) (by omega)]
          rcases Nat.lt_or_ge bs.length (fuel + 1) with hlt | hge
          · rw [ih bs.length hlt hlen]
          · omega
        show decodeFuel (fuel + 1) (b :: bs) = decodeFuel (bs.length + 1) (b :: bs)
        unfold decodeFuel
        cases decodeChar? (b :: bs) with
        | some c => exact congrArg _ (hrest _ c.utf8Size_pos)
        | none => exact congrArg _ (hrest _ (illFormed_pos _))

theorem decode_some {bytes : List UInt8} {c : Char} (hnil : bytes ≠ [])
    (h : decodeChar? bytes = some c) : decode bytes = c :: decode (bytes.drop c.utf8Size) := by
  obtain ⟨b, bs, rfl⟩ := List.exists_cons_of_ne_nil hnil
  have hpos := c.utf8Size_pos
  show decodeFuel (bs.length + 1) (b :: bs) = _
  rw [decodeFuel, h]
  refine congrArg _ (decodeFuel_eq ?_)
  rw [List.length_drop, List.length_cons]
  omega

theorem decode_none {bytes : List UInt8} (hnil : bytes ≠ []) (h : decodeChar? bytes = none) :
    decode bytes = REPLACEMENT :: decode (bytes.drop (illFormed bytes)) := by
  obtain ⟨b, bs, rfl⟩ := List.exists_cons_of_ne_nil hnil
  have hpos := illFormed_pos (b :: bs)
  show decodeFuel (bs.length + 1) (b :: bs) = _
  rw [decodeFuel, h]
  refine congrArg _ (decodeFuel_eq ?_)
  rw [List.length_drop, List.length_cons]
  omega

theorem decode_eq_nil_iff {bytes : List UInt8} : decode bytes = [] ↔ bytes = [] := by
  constructor
  · intro h
    by_contra hnil
    cases hc : decodeChar? bytes with
    | some c => simp [decode_some hnil hc] at h
    | none => simp [decode_none hnil hc] at h
  · rintro rfl
    rfl

/-- **Encoded text is read back**, in front of anything. -/
theorem decode_encode_append (text : List Char) (rest : List UInt8) :
    decode (text.flatMap String.utf8EncodeChar ++ rest) = text ++ decode rest := by
  induction text with
  | nil => rfl
  | cons c text ih =>
    rw [List.flatMap_cons, List.append_assoc]
    have hc : decodeChar? (String.utf8EncodeChar c ++
        (text.flatMap String.utf8EncodeChar ++ rest)) = some c := by
      unfold decodeChar?
      rw [List.toByteArray_append]
      exact ByteArray.utf8DecodeChar?_utf8EncodeChar_append
    rw [decode_some (by simp [String.utf8EncodeChar_ne_nil]) hc,
      List.drop_left' (String.length_utf8EncodeChar c), ih, List.cons_append]

/-- The character of an ASCII byte. -/
def ascii (b : UInt8) : Char := Char.ofUInt8 b

theorem encode_ascii {b : UInt8} (h : b < 0x80) : String.utf8EncodeChar (ascii b) = [b] := by
  have hsize : (ascii b).utf8Size = 1 := by
    rw [Char.utf8Size_eq_one_iff, UInt32.le_iff_toNat_le]
    show b.toUInt32.toNat ≤ 127
    rw [UInt8.lt_iff_toNat_lt] at h
    have h128 : (0x80 : UInt8).toNat = 128 := rfl
    rw [UInt8.toNat_toUInt32]
    omega
  rw [String.utf8EncodeChar_eq_singleton hsize]
  exact congrArg (fun x => [x]) (UInt8.toUInt8_toUInt32 b)

/-- **ASCII bytes are their own characters**, in front of anything. -/
theorem decode_ascii_append {bytes : List UInt8} (h : ∀ b ∈ bytes, b < 0x80) (rest : List UInt8) :
    decode (bytes ++ rest) = bytes.map ascii ++ decode rest := by
  have hencode : (bytes.map ascii).flatMap String.utf8EncodeChar = bytes := by
    induction bytes with
    | nil => rfl
    | cons b bs ih =>
      rw [List.map_cons, List.flatMap_cons, encode_ascii (h b List.mem_cons_self),
        ih fun b' hb' => h b' (List.mem_cons_of_mem b hb')]
      rfl
  have happend := decode_encode_append (bytes.map ascii) rest
  rwa [hencode] at happend

theorem length_decode_ascii {bytes : List UInt8} (h : ∀ b ∈ bytes, b < 0x80) :
    (decode bytes).length = bytes.length := by
  have happend := decode_ascii_append h []
  rw [List.append_nil, decode_nil, List.append_nil] at happend
  rw [happend, List.length_map]

/-- **Never more characters than bytes.** -/
theorem length_decode_le (bytes : List UInt8) : (decode bytes).length ≤ bytes.length := by
  unfold decode
  generalize bytes.length = fuel
  induction fuel generalizing bytes with
  | zero => simp [decodeFuel]
  | succ fuel ih =>
    cases bytes with
    | nil => simp [decodeFuel]
    | cons b bs =>
      rw [decodeFuel]
      split
      · simpa using ih _
      · simpa using ih _

end Lossy
