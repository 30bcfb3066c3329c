import Mathlib.Data.List.Basic
import CacheVerdict.Text.Numeral

/-!
# Positional notation

What a numeral stands for is said digit by digit (`Spells`), for radices up to sixteen. Reading
accepts exactly the numerals of the numbers below the limit (`readOnto_eq_ok_iff`) and gives the
number back (`read_of_spells`), and every number has a numeral (`spells_toDigits`).
-/

namespace CacheVerdict.Numeral

/-- A digit of a radix; letters stand for the digits from ten on, in either case. -/
structure IsDigit (radix d : Nat) (c : Char) : Prop where
  lt : d < radix
  shape : c = d.digitChar ∨ c = d.digitChar.toUpper

/-- A text of one or more digits, the highest in front, and its number. -/
inductive Spells (radix : Nat) : Nat → List Char → Prop where
  | digit {d c} : IsDigit radix d c → Spells radix d [c]
  | snoc {n d s c} : Spells radix n s → IsDigit radix d c → Spells radix (n * radix + d) (s ++ [c])

/-- A hexadecimal numeral, with or without its mark. -/
inductive SpellsHex (n : Nat) : List Char → Prop where
  | plain {s} : Spells 16 n s → SpellsHex n s
  | marked {s} : Spells 16 n s → SpellsHex n ('0' :: 'x' :: s)
  | markedUpper {s} : Spells 16 n s → SpellsHex n ('0' :: 'X' :: s)

/-- The characters of hexadecimal digits. -/
def hexAlphabet : List Char :=
  "0123456789abcdefABCDEF".toList

variable {radix limit n d acc : Nat} {c : Char} {s t : List Char}

/-! ### Digits -/

/-- Digits are letters of the alphabet. -/
lemma IsDigit.mem (hradix : radix ≤ 16) (h : IsDigit radix d c) : c ∈ hexAlphabet := by
  have hd : d < 16 := Nat.lt_of_lt_of_le h.lt hradix
  have hall : ∀ d < 16, d.digitChar ∈ hexAlphabet ∧ d.digitChar.toUpper ∈ hexAlphabet := by decide
  rcases h.shape with rfl | rfl
  · exact (hall d hd).1
  · exact (hall d hd).2

/-- A digit is read as its value. -/
lemma IsDigit.digit? (hradix : radix ≤ 16) (h : IsDigit radix d c) : digit? radix c = some d := by
  have hd : d < 16 := Nat.lt_of_lt_of_le h.lt hradix
  have hall : ∀ d < 16,
      digitValue? d.digitChar = some d ∧ digitValue? d.digitChar.toUpper = some d := by decide
  have hvalue : digitValue? c = some d := by
    rcases h.shape with rfl | rfl
    · exact (hall d hd).1
    · exact (hall d hd).2
  rw [Numeral.digit?, hvalue, Option.filter_some, if_pos (decide_eq_true h.lt)]

/-- Nothing but digits has a value. -/
lemma isDigit_of_digit? (hradix : radix ≤ 16) (h : digit? radix c = some d) :
    IsDigit radix d c := by
  have hfigure : ∀ k < 10, Char.ofNat (48 + k) = k.digitChar := by decide
  have hsmall : ∀ k < 6, Char.ofNat (97 + k) = (k + 10).digitChar := by decide
  have hcapital : ∀ k < 6, Char.ofNat (65 + k) = (k + 10).digitChar.toUpper := by decide
  obtain ⟨hvalue, hlt⟩ := Option.filter_eq_some_iff.1 h
  have hlt : d < radix := of_decide_eq_true hlt
  refine ⟨hlt, ?_⟩
  unfold digitValue? at hvalue
  split at hvalue
  · rename_i hc
    have hfrom : 48 ≤ c.toNat := hc.1
    have hto : c.toNat ≤ 57 := hc.2
    obtain rfl : c.toNat - 48 = d := Option.some.inj hvalue
    rw [← hfigure _ (by omega), Nat.add_sub_cancel' hfrom, Char.ofNat_toNat]
    exact .inl rfl
  · split at hvalue
    · rename_i hc
      have hfrom : 97 ≤ c.toNat := hc.1
      obtain rfl : c.toNat - 97 + 10 = d := Option.some.inj hvalue
      rw [← hsmall _ (by omega), Nat.add_sub_cancel' hfrom, Char.ofNat_toNat]
      exact .inl rfl
    · split at hvalue
      · rename_i hc
        have hfrom : 65 ≤ c.toNat := hc.1
        obtain rfl : c.toNat - 65 + 10 = d := Option.some.inj hvalue
        rw [← hcapital _ (by omega), Nat.add_sub_cancel' hfrom, Char.ofNat_toNat]
        exact .inr rfl
      · cases hvalue

/-! ### Numerals -/

/-- A number has digits. -/
lemma Spells.ne_nil (h : Spells radix n s) : s ≠ [] := by
  cases h with
  | digit => exact List.cons_ne_nil _ _
  | snoc => exact List.concat_ne_nil _ _

/-- A number consists of digits. -/
lemma Spells.isDigit (h : Spells radix n s) : ∀ c ∈ s, ∃ d, IsDigit radix d c := by
  induction h with
  | digit hc => exact List.forall_mem_singleton.2 ⟨_, hc⟩
  | snoc _ hc ih => exact List.forall_mem_append.2 ⟨ih, List.forall_mem_singleton.2 ⟨_, hc⟩⟩

/-- A number is written in the alphabet. -/
lemma Spells.mem (hradix : radix ≤ 16) (h : Spells radix n s) : ∀ c ∈ s, c ∈ hexAlphabet := by
  intro c hc
  obtain ⟨d, hd⟩ := h.isDigit c hc
  exact hd.mem hradix

/-- Digits are read one after another. -/
lemma readOnto_append (acc : Nat) (s t : List Char) : readOnto radix limit acc (s ++ t) =
    (readOnto radix limit acc s).bind fun m => readOnto radix limit m t := by
  induction s generalizing acc with
  | nil => rfl
  | cons c s ih =>
    rw [List.cons_append, readOnto, readOnto]
    split
    · rfl
    · split
      · exact ih _
      · rfl

/-- Reading one more digit. -/
lemma readOnto_digit (hradix : radix ≤ 16) (h : IsDigit radix d c) (hlt : acc * radix + d < limit) :
    readOnto radix limit acc [c] = .ok (acc * radix + d) := by
  rw [readOnto, h.digit? hradix]
  exact if_pos hlt

/-- The digits of a number below the limit are read as that number. -/
lemma readOnto_of_spells (hradix : radix ≤ 16) (h : Spells radix n s) (hlt : n < limit) :
    readOnto radix limit 0 s = .ok n := by
  induction h with
  | @digit d c hc =>
    have hread := readOnto_digit hradix hc (by rwa [Nat.zero_mul, Nat.zero_add])
    rwa [Nat.zero_mul, Nat.zero_add] at hread
  | @snoc n d s c hs hc ih =>
    -- what was read before the last digit is no larger
    have hle : n ≤ n * radix := Nat.le_mul_of_pos_right n (Nat.zero_lt_of_lt hc.lt)
    rw [readOnto_append, ih (by omega)]
    exact readOnto_digit hradix hc hlt

/-- What has been read spells the number so far, and each digit read goes on spelling. -/
lemma spells_of_readOnto (hradix : radix ≤ 16) (hspells : Spells radix acc t) (hacc : acc < limit)
    (h : readOnto radix limit acc s = .ok n) : Spells radix n (t ++ s) ∧ n < limit := by
  induction s generalizing acc t with
  | nil =>
    obtain rfl : acc = n := Except.ok.inj h
    rw [List.append_nil]
    exact ⟨hspells, hacc⟩
  | cons c s ih =>
    rw [readOnto] at h
    split at h
    · cases h
    · rename_i d hd
      split at h
      · rename_i hlt
        rw [List.append_cons]
        exact ih (hspells.snoc (isDigit_of_digit? hradix hd)) hlt h
      · cases h

/-- Just the numerals of the numbers below the limit are read, and each as its number. -/
lemma readOnto_eq_ok_iff (hradix : radix ≤ 16) (hs : s ≠ []) :
    readOnto radix limit 0 s = .ok n ↔ Spells radix n s ∧ n < limit := by
  refine ⟨fun h => ?_, fun h => readOnto_of_spells hradix h.1 h.2⟩
  obtain ⟨c, rest, rfl⟩ := List.exists_cons_of_ne_nil hs
  rw [readOnto] at h
  split at h
  · cases h
  · rename_i d hd
    rw [Nat.zero_mul, Nat.zero_add] at h
    split at h
    · rename_i hlt
      exact spells_of_readOnto hradix (.digit (isDigit_of_digit? hradix hd)) hlt h
    · cases h

/-- A numeral is read as its number, if that is below the limit. -/
lemma read_of_spells (hradix : radix ≤ 16) (h : Spells radix n s) (hlt : n < limit) :
    read radix limit s = .ok n := by
  obtain ⟨c, rest, rfl⟩ := List.exists_cons_of_ne_nil h.ne_nil
  have hplus : c ≠ '+' := by
    rintro rfl
    have hmem := h.mem hradix '+' List.mem_cons_self
    revert hmem
    decide
  have hread := readOnto_of_spells hradix h hlt
  rw [read]
  · exact hread
  · simp
  · rintro c' rest' heq
    exact hplus (List.cons.inj heq).1

/-- What spells a word of 64 bits is read as it. -/
lemma read64_of_spells {a : UInt64} (hradix : radix ≤ 16) (h : Spells radix a.toNat s) :
    read64 radix s = .ok a := by
  rw [read64, read_of_spells hradix h a.toNat_lt_size]
  simp [Except.map]

/-- The digits that are written spell the number. -/
lemma spells_toDigits (hradix : 1 < radix) (n : Nat) : Spells radix n (Nat.toDigits radix n) := by
  induction n using Nat.strongRecOn with
  | ind n ih =>
    rw [Nat.toDigits_eq_if hradix]
    split
    · rename_i hlt
      exact .digit ⟨hlt, .inl rfl⟩
    · have hless : n / radix < n := Nat.div_lt_self (by omega) hradix
      have hsnoc := (ih _ hless).snoc ⟨Nat.mod_lt n (Nat.zero_lt_of_lt hradix), .inl rfl⟩
      rwa [Nat.div_add_mod'] at hsnoc

/-- The digits of a number in hexadecimal spell it. -/
lemma spells_hexDigits (n : Nat) : Spells 16 n (hexDigits n) :=
  spells_toDigits (by decide) n

/-! ### Hexadecimal numerals -/

/-- A number in hexadecimal is not an empty text. -/
lemma SpellsHex.ne_nil (h : SpellsHex n s) : s ≠ [] := by
  cases h with
  | plain h => exact h.ne_nil
  | marked | markedUpper => exact List.cons_ne_nil _ _

/-- A number in hexadecimal is written with its mark and digits only. -/
lemma SpellsHex.mem (h : SpellsHex n s) : ∀ c ∈ s, c ∈ 'x' :: 'X' :: hexAlphabet := by
  have hdigits {s} (hs : Spells 16 n s) : ∀ c ∈ s, c ∈ 'x' :: 'X' :: hexAlphabet :=
    fun c hc => List.mem_cons_of_mem _ (List.mem_cons_of_mem _ (hs.mem Nat.le.refl c hc))
  cases h with
  | plain h => exact hdigits h
  | marked h | markedUpper h =>
    exact List.forall_mem_cons.2 ⟨by decide, List.forall_mem_cons.2 ⟨by decide, hdigits h⟩⟩

end CacheVerdict.Numeral
