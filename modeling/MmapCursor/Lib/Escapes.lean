import Mathlib.Algebra.Order.Ring.Nat

/-!
# Escaped text

Text as it is quoted in a message: the characters that would not be printed as they are, or that
would end the quotation, are replaced by escapes.  Which characters are printed as they are is a
parameter.

* `escape_inj` — nothing is lost;
* `size_escape_le` — nothing grows beyond ten bytes a character.
-/

set_option autoImplicit false

namespace Escapes

/-! ## Sizes -/

/-- The size of a text in UTF-8. -/
def size (text : List Char) : Nat := (text.map Char.utf8Size).sum

@[simp] theorem size_nil : size [] = 0 := rfl

@[simp] theorem size_cons (c : Char) (text : List Char) :
    size (c :: text) = c.utf8Size + size text := by
  simp [size]

@[simp] theorem size_append (s t : List Char) : size (s ++ t) = size s + size t := by
  simp [size]

theorem utf8ByteSize_ofList (text : List Char) : (String.ofList text).utf8ByteSize = size text := by
  induction text with
  | nil => rfl
  | cons c text ih => simp [String.ofList_cons, ih]

theorem utf8ByteSize_eq (s : String) : s.utf8ByteSize = size s.toList := by
  rw [← utf8ByteSize_ofList, String.ofList_toList]

theorem size_of_ascii {text : List Char} (h : ∀ c ∈ text, c.utf8Size = 1) :
    size text = text.length := by
  induction text with
  | nil => rfl
  | cons c text ih =>
    rw [size_cons, h c List.mem_cons_self, ih fun d hd => h d (List.mem_cons_of_mem c hd),
      List.length_cons, Nat.add_comm]

/-! ## Hexadecimal digits -/

/-- The digits of a number. -/
def hex (n : Nat) : List Char := Nat.toDigits 16 n

theorem hex_of_le {n : Nat} (h : 16 ≤ n) : hex n = hex (n / 16) ++ [(n % 16).digitChar] :=
  Nat.toDigits_of_base_le (by omega) h

theorem hex_of_lt {n : Nat} (h : n < 16) : hex n = [n.digitChar] := Nat.toDigits_of_lt_base h

/-- The value of a digit. -/
def value (c : Char) : Nat := if c.isDigit then c.toNat - 48 else c.toNat - 87

theorem value_digitChar : ∀ d < 16, value d.digitChar = d := by decide

/-- The number with these digits. -/
def ofHex (digits : List Char) : Nat := digits.foldl (fun n c => 16 * n + value c) 0

theorem ofHex_hex (n : Nat) : ofHex (hex n) = n := by
  induction n using Nat.strongRecOn with
  | ind n ih =>
    rcases Nat.lt_or_ge n 16 with hlt | hge
    · simp [hex_of_lt hlt, ofHex, value_digitChar n hlt]
    · have hfront := ih (n / 16) (by omega)
      have hlast := value_digitChar (n % 16) (Nat.mod_lt n (by omega))
      rw [hex_of_le hge]
      simp only [ofHex, List.foldl_append, List.foldl_cons, List.foldl_nil] at hfront ⊢
      rw [hfront, hlast]
      omega

theorem hex_inj {m n : Nat} (h : hex m = hex n) : m = n := by
  rw [← ofHex_hex m, h, ofHex_hex]

theorem mem_hex {n : Nat} {c : Char} (h : c ∈ hex n) : ∃ d < 16, c = d.digitChar := by
  induction n using Nat.strongRecOn with
  | ind n ih =>
    rcases Nat.lt_or_ge n 16 with hlt | hge
    · rw [hex_of_lt hlt, List.mem_singleton] at h
      exact ⟨n, hlt, h⟩
    · rw [hex_of_le hge, List.mem_append, List.mem_singleton] at h
      rcases h with h | h
      · exact ih (n / 16) (by omega) h
      · exact ⟨n % 16, Nat.mod_lt n (by omega), h⟩

theorem length_hex_le {n k : Nat} (hk : 0 < k) (h : n < 16 ^ k) : (hex n).length ≤ k :=
  (Nat.length_toDigits_le_iff (by decide) hk).mpr h

theorem utf8Size_digitChar : ∀ d < 16, d.digitChar.utf8Size = 1 := by decide

theorem digitChar_ne_close : ∀ d < 16, d.digitChar ≠ '\x7d' := by decide

/-! ## Escapes -/

/-- The characters with an escape of one letter, and their letters. -/
def letters : List (Char × Char) :=
  [('\x00', '0'), ('\t', 't'), ('\r', 'r'), ('\n', 'n'), ('\x22', '\x22'), ('\x5c', '\x5c')]

/-- What is printed for a character. -/
def escapeChar (plain : Char → Bool) (c : Char) : List Char :=
  match letters.lookup c with
  | some letter => ['\x5c', letter]
  | none => if plain c then [c] else '\x5c' :: 'u' :: '\x7b' :: (hex c.toNat ++ ['\x7d'])

/-- What is printed for a text. -/
def escape (plain : Char → Bool) (text : List Char) : List Char := text.flatMap (escapeChar plain)

theorem mem_letters {c letter : Char} (h : letters.lookup c = some letter) :
    (c, letter) ∈ letters := by
  obtain ⟨before, after, hsplit, -⟩ := List.lookup_eq_some_iff.mp h
  simp [hsplit]

theorem letters_inj : ∀ p ∈ letters, ∀ q ∈ letters, p.2 = q.2 → p.1 = q.1 := by decide

theorem letters_ne : ∀ p ∈ letters, p.2 ≠ 'u' := by decide

theorem utf8Size_letters : ∀ p ∈ letters, p.2.utf8Size = 1 := by decide

theorem lookup_backslash : letters.lookup '\x5c' = some '\x5c' := by decide

theorem escapeChar_cases (plain : Char → Bool) (c : Char) :
    (∃ letter, (c, letter) ∈ letters ∧ escapeChar plain c = ['\x5c', letter]) ∨
      (c ≠ '\x5c' ∧ escapeChar plain c = [c]) ∨
      escapeChar plain c = '\x5c' :: 'u' :: '\x7b' :: (hex c.toNat ++ ['\x7d']) := by
  unfold escapeChar
  cases h : letters.lookup c with
  | some letter => exact Or.inl ⟨letter, mem_letters h, rfl⟩
  | none =>
    by_cases hplain : plain c
    · refine Or.inr (Or.inl ⟨?_, by simp [hplain]⟩)
      rintro rfl
      rw [lookup_backslash] at h
      cases h
    · exact Or.inr (Or.inr (by simp [hplain]))

/-- **Not more than ten bytes a character.** -/
theorem size_escapeChar_le (plain : Char → Bool) (c : Char) : size (escapeChar plain c) ≤ 10 := by
  have hbackslash : '\x5c'.utf8Size = 1 := by decide
  rcases escapeChar_cases plain c with ⟨letter, hmem, h⟩ | ⟨-, h⟩ | h
  · have hletter := utf8Size_letters _ hmem
    simp only [h, size_cons, size_nil] at *
    omega
  · have hsize := c.utf8Size_le_four
    simp only [h, size_cons, size_nil]
    omega
  · have hlength : (hex c.toNat).length ≤ 6 := by
      have hvalid : c.val.toNat < 0xD800 ∨ 0xDFFF < c.val.toNat ∧ c.val.toNat < 0x110000 := c.valid
      refine length_hex_le (by omega) ?_
      show c.val.toNat < 16 ^ 6
      omega
    have hascii : ∀ d ∈ '\x5c' :: 'u' :: '\x7b' :: (hex c.toNat ++ ['\x7d']), d.utf8Size = 1 := by
      intro d hd
      simp only [List.mem_cons, List.mem_append, List.not_mem_nil, or_false] at hd
      rcases hd with rfl | rfl | rfl | hd | rfl
      · exact hbackslash
      · decide
      · decide
      · obtain ⟨k, hk, rfl⟩ := mem_hex hd
        exact utf8Size_digitChar k hk
      · decide
    rw [h, size_of_ascii hascii]
    simp only [List.length_cons, List.length_append, List.length_nil]
    omega

theorem size_escape_le (plain : Char → Bool) (text : List Char) :
    size (escape plain text) ≤ 10 * text.length := by
  induction text with
  | nil => simp [escape]
  | cons c text ih =>
    have hc := size_escapeChar_le plain c
    unfold escape at ih ⊢
    rw [List.flatMap_cons, size_append, List.length_cons]
    omega

theorem split_hex {m n : Nat} {r s : List Char}
    (h : hex m ++ '\x7d' :: r = hex n ++ '\x7d' :: s) : m = n ∧ r = s := by
  have hpass : ∀ n, ∀ c ∈ hex n, (c != '\x7d') = true := by
    intro n c hc
    obtain ⟨k, hk, rfl⟩ := mem_hex hc
    simp [digitChar_ne_close k hk]
  have htake := congrArg (List.takeWhile (· != '\x7d')) h
  rw [List.takeWhile_append_of_pos (hpass m), List.takeWhile_append_of_pos (hpass n)] at htake
  simp only [bne_self_eq_false, Bool.false_eq_true, not_false_eq_true, List.takeWhile_cons_of_neg,
    List.append_nil] at htake
  obtain rfl := hex_inj htake
  exact ⟨rfl, (List.cons.inj (List.append_cancel_left h)).2⟩

/-- **A character is read back** from the front of a text, and what follows it. -/
theorem escapeChar_append_inj {plain : Char → Bool} {c d : Char} {r s : List Char}
    (h : escapeChar plain c ++ r = escapeChar plain d ++ s) : c = d ∧ r = s := by
  rcases escapeChar_cases plain c with ⟨l, hl, hc⟩ | ⟨hne, hc⟩ | hc <;>
    rcases escapeChar_cases plain d with ⟨l', hl', hd⟩ | ⟨hne', hd⟩ | hd <;>
    rw [hc, hd] at h <;> simp only [List.cons_append, List.nil_append, List.cons.injEq] at h
  · exact ⟨letters_inj _ hl _ hl' h.2.1, h.2.2⟩
  · exact absurd h.1.symm hne'
  · exact absurd h.2.1 (letters_ne _ hl)
  · exact absurd h.1 hne
  · exact h
  · exact absurd h.1 hne
  · exact absurd h.2.1.symm (letters_ne _ hl')
  · exact absurd h.1.symm hne'
  · obtain ⟨hcode, hrest⟩ := split_hex (by simpa using h.2.2.2)
    exact ⟨Char.toNat_inj.mp hcode, hrest⟩

theorem escapeChar_ne_nil (plain : Char → Bool) (c : Char) : escapeChar plain c ≠ [] := by
  rcases escapeChar_cases plain c with ⟨l, -, h⟩ | ⟨-, h⟩ | h <;> simp [h]

/-- **Nothing is lost** by escaping. -/
theorem escape_inj {plain : Char → Bool} {s t : List Char} (h : escape plain s = escape plain t) :
    s = t := by
  unfold escape at h
  induction s generalizing t with
  | nil =>
    cases t with
    | nil => rfl
    | cons d t => simp [escapeChar_ne_nil] at h
  | cons c s ih =>
    cases t with
    | nil => simp [escapeChar_ne_nil] at h
    | cons d t =>
      rw [List.flatMap_cons, List.flatMap_cons] at h
      obtain ⟨rfl, hrest⟩ := escapeChar_append_inj h
      rw [ih hrest]

end Escapes
