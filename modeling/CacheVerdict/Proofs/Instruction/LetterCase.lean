import Mathlib.Algebra.Ring.Parity
import Mathlib.Data.Nat.ModEq
import Mathlib.Data.Nat.Prime.Basic
import CacheVerdict.Proofs.Instruction.Immediate
import CacheVerdict.Proofs.Instruction.Operands
import CacheVerdict.Proofs.Text.LetterCase

/-!
# Decoding in either letter case

Two operations are the same for all that follows if they differ only in how their immediates are
written (`Operation.Same`). Every part of an instruction is read the same in upper case: immediates
(`Immediate.value?_upper`), registers (`Register.read?_upper`), page addresses
(`Operand.value?_readPage_upper`) and memory operands (`MemoryAccess.read?_upper`). The one word that
is known in lower case only is that of a shift (`Operand.shiftAmount?_upper`), so an instruction
decodes to another operation exactly if it adds an immediate that a shift moves
(`Instruction.decode_upper_iff`).
-/

namespace CacheVerdict

open Text

/-! ### Immediates -/

namespace Immediate

variable {c : Char} {s t : List Char}

/-- Letter case does not change digits. -/
lemma digits?_upper (radix : Nat) (s : List Char) : digits? radix (upper s) = digits? radix s := by
  cases s with
  | nil => rfl
  | cons c s =>
    show (Numeral.readOnto radix UInt64.size 0 (upper (c :: s))).toOption = _
    rw [Numeral.readOnto_upper]
    rfl

/-- The text starts with the mark of a hexadecimal number. -/
inductive Marked : List Char → Prop where
  | small (s : List Char) : Marked ('0' :: 'x' :: s)
  | capital (s : List Char) : Marked ('0' :: 'X' :: s)

/-- A letter becomes an X in upper case if it is one in either case. -/
lemma toUpper_eq_capital_iff : c.toUpper = 'X' ↔ c = 'x' ∨ c = 'X' := by
  have hall : ∀ k < 26, (smallLetter k).toUpper = 'X' ↔ smallLetter k = 'x' ∨ smallLetter k = 'X' := by
    decide
  obtain ⟨hlower, heq⟩ | ⟨k, hk, rfl⟩ := toUpper_eq_or_small c
  · rw [heq]
    refine ⟨.inr, ?_⟩
    rintro (rfl | rfl)
    · cases hlower
    · rfl
  · exact hall k hk

/-- A number is marked as hexadecimal by an X in either case. -/
lemma marked_iff : Marked s ↔ ∃ c t, c.toUpper = 'X' ∧ s = '0' :: c :: t := by
  constructor
  · rintro (⟨t⟩ | ⟨t⟩)
    · exact ⟨'x', t, rfl, rfl⟩
    · exact ⟨'X', t, rfl, rfl⟩
  · rintro ⟨c, t, hc, rfl⟩
    obtain rfl | rfl := toUpper_eq_capital_iff.1 hc
    · exact .small t
    · exact .capital t

/-- The mark counts in either case. -/
lemma marked_upper_iff : Marked (upper s) ↔ Marked s := by
  rw [marked_iff, marked_iff]
  constructor
  · rintro ⟨c, t, hc, heq⟩
    obtain ⟨d, s, rfl, hd, hs⟩ := List.map_eq_cons_iff.1 heq
    obtain ⟨c', t', rfl, rfl, -⟩ := List.map_eq_cons_iff.1 hs
    rw [toUpper_toUpper] at hc
    obtain rfl := (toUpper_eq_iff rfl).1 hd
    exact ⟨c', t', hc, rfl⟩
  · rintro ⟨c, t, hc, rfl⟩
    exact ⟨c.toUpper, upper t, by rw [toUpper_toUpper, hc], rfl⟩

/-- Without the mark, a magnitude is decimal. -/
lemma magnitude?_of_not_marked (h : ¬ Marked s) : magnitude? s = digits? 10 s := by
  unfold magnitude?
  split
  · exact absurd (.small _) h
  · exact absurd (.capital _) h
  · rfl

/-- Letter case does not change magnitudes. -/
lemma magnitude?_upper (s : List Char) : magnitude? (upper s) = magnitude? s := by
  by_cases h : Marked s
  · cases h with
    | small t | capital t => exact digits?_upper 16 t
  · rw [magnitude?_of_not_marked h, magnitude?_of_not_marked (mt marked_upper_iff.1 h), digits?_upper]

/-- Putting in upper case and dropping a hash sign commute. -/
lemma dropHash_upper (s : List Char) : dropHash (upper s) = upper (dropHash s) := by
  cases s with
  | nil => rfl
  | cons c s =>
    by_cases hc : c = '#'
    · subst hc
      rfl
    · rw [upper_cons, dropHash, dropHash, upper_cons]
      · rintro s ⟨⟩
        exact hc rfl
      · intro s heq
        exact hc ((toUpper_eq_iff rfl).1 (List.cons.inj heq).1)

/-- An immediate has the same value in upper case. -/
lemma value?_upper (s : List Char) :
    value? (String.ofList (upper s)) = value? (String.ofList s) := by
  unfold value?
  rw [String.toList_ofList, String.toList_ofList, trim_upper, dropHash_upper]
  cases dropHash (trim s) with
  | nil => rfl
  | cons c t =>
    by_cases hc : c = '-'
    · subst hc
      simp only [upper_cons]
      show Option.map _ (magnitude? (upper t)) = _
      rw [magnitude?_upper]
    · have hupper : c.toUpper ≠ '-' := mt (toUpper_eq_iff rfl).1 hc
      rw [upper_cons]
      split
      · rename_i heq
        exact absurd (List.cons.inj heq).1 hupper
      · split
        · rename_i heq
          exact absurd (List.cons.inj heq).1 hc
        · rw [← upper_cons, magnitude?_upper]

/-- Immediates that differ only in letter case have the same value. -/
lemma value?_congr (h : upper s = upper t) :
    value? (String.ofList s) = value? (String.ofList t) := by
  rw [← value?_upper s, h, value?_upper]

end Immediate

/-! ### Operands -/

namespace Register

/-- A register has the same name in upper case. -/
lemma read?_upper (s : List Char) : read? (upper s) = read? s := by
  unfold read?
  rw [trim_upper, lower_upper]

end Register

namespace Operand

/-- Letter case does not change how deep brackets are nested. -/
lemma depthAfter_toUpper (depth : Nat) (c : Char) :
    depthAfter depth c.toUpper = depthAfter depth c := by
  by_cases hopen : c = '['
  · subst hopen
    rfl
  by_cases hclose : c = ']'
  · subst hclose
    rfl
  rw [depthAfter_of_ne hopen hclose,
    depthAfter_of_ne (mt (toUpper_eq_iff rfl).1 hopen) (mt (toUpper_eq_iff rfl).1 hclose)]

/-- Splitting at commas and putting in upper case commute. -/
lemma splitFrom_upper (depth : Nat) (current s : List Char) :
    splitFrom depth (upper current) (upper s) = (splitFrom depth current s).map upper := by
  induction s generalizing depth current with
  | nil =>
    rw [upper_nil, splitFrom, splitFrom, trim_upper]
    by_cases hblank : trim current = []
    · rw [hblank]
      rfl
    · rw [if_neg hblank, if_neg (mt upper_eq_nil.1 hblank)]
      rfl
  | cons c s ih =>
    have hcomma : (c.toUpper = ',' ∧ depth = 0) ↔ (c = ',' ∧ depth = 0) := by
      rw [toUpper_eq_iff rfl]
    rw [upper_cons, splitFrom, splitFrom, if_congr hcomma rfl rfl, depthAfter_toUpper, trim_upper]
    have hcurrent : upper current ++ [c.toUpper] = upper (current ++ [c]) := by
      rw [upper_append]
      rfl
    rw [hcurrent, ih, ← upper_nil, ih]
    split <;> rfl

/-- The operands of a text in upper case are its operands, in upper case. -/
lemma split_upper (s : List Char) : split (upper s) = (split s).map upper :=
  splitFrom_upper 0 [] s

/-- Letter case does not change whether an immediate starts. -/
lemma startsImmediate_upper (s : List Char) : startsImmediate (upper s) = startsImmediate s := by
  cases s with
  | nil => rfl
  | cons c s =>
    have hhash : (c.toUpper = '#') ↔ (c = '#') := toUpper_eq_iff rfl
    have hminus : (c.toUpper = '-') ↔ (c = '-') := toUpper_eq_iff rfl
    simp only [upper_cons, startsImmediate, hhash, hminus, isDigit_toUpper]

/-- Operands are the same if they are one register, or immediates of one value. -/
inductive Same : Operand → Operand → Prop where
  | register (r : Register) : Same (.register r) (.register r)
  | immediate {a b : String} : Immediate.value? a = Immediate.value? b →
    Same (.immediate a) (.immediate b)

/-- An operand is read alike in upper case. -/
lemma read_upper (s : List Char) : (read s).Same (read (upper s)) := by
  unfold read
  simp only [firstWord_upper, startsImmediate_upper, Register.read?_upper]
  split
  · exact .immediate (Immediate.value?_upper _).symm
  · cases Register.read? (firstWord s) with
    | none => exact .immediate rfl
    | some r => exact .register r

/-- The text of a page address means the same in upper case. -/
lemma value?_readPage_upper (s : List Char) :
    Immediate.value? (readPage (upper s)) = Immediate.value? (readPage s) := by
  have hplain {s : List Char} (h : ¬ Immediate.Marked (Immediate.dropHash (firstWord s))) :
      readPage s = String.ofList ('0' :: 'x' :: Immediate.dropHash (firstWord s)) := by
    unfold readPage
    split
    · rename_i heq
      exact absurd (heq ▸ .small _) h
    · rename_i heq
      exact absurd (heq ▸ .capital _) h
    · rfl
  have hmarked {s : List Char} (h : Immediate.Marked (Immediate.dropHash (firstWord s))) :
      readPage s = String.ofList (Immediate.dropHash (firstWord s)) := by
    unfold readPage
    generalize Immediate.dropHash (firstWord s) = word at h
    cases h <;> rfl
  have hword : Immediate.dropHash (firstWord (upper s)) = upper (Immediate.dropHash (firstWord s)) := by
    rw [firstWord_upper, Immediate.dropHash_upper]
  by_cases h : Immediate.Marked (Immediate.dropHash (firstWord s))
  · have h' : Immediate.Marked (Immediate.dropHash (firstWord (upper s))) := by
      rw [hword]
      exact Immediate.marked_upper_iff.2 h
    rw [hmarked h, hmarked h', hword, Immediate.value?_upper]
  · have h' : ¬ Immediate.Marked (Immediate.dropHash (firstWord (upper s))) := by
      rw [hword]
      exact mt Immediate.marked_upper_iff.1 h
    rw [hplain h, hplain h', hword]
    refine Immediate.value?_congr ?_
    simp only [upper_cons, upper_upper]

end Operand

/-! ### Memory operands -/

namespace AddressOperand

/-- Memory operands are the same if they add up the same registers and an offset of one value. -/
structure Same (a b : AddressOperand) : Prop where
  targets : a.targets = b.targets
  offset : a.offset.map Immediate.value? = b.offset.map Immediate.value?
  indexed : a.indexed = b.indexed

/-- What stands inside brackets stays there in upper case. -/
lemma inside?_upper (s : List Char) : inside? (upper s) = (inside? s).map upper := by
  have hbang (c : Char) : decide (c.toUpper = '!') = decide (c = '!') :=
    decide_eq_decide.2 (toUpper_eq_iff rfl)
  unfold inside?
  rw [trim_upper, ← upper_reverse, dropWhile_upper hbang, ← upper_reverse, trim_upper]
  cases trim ((trim s).reverse.dropWhile (· = '!')).reverse with
  | nil => rfl
  | cons c inner =>
    by_cases hc : c = '['
    · subst hc
      show (if (upper inner).getLast? = some ']' then some (upper inner).dropLast else none) =
        (if inner.getLast? = some ']' then some inner.dropLast else none).map upper
      rw [if_congr (getLast?_upper_iff rfl) rfl rfl, upper, ← List.map_dropLast]
      split <;> rfl
    · have hc' : c.toUpper ≠ '[' := mt (toUpper_eq_iff rfl).1 hc
      rw [upper_cons]
      split
      · rename_i heq
        exact absurd (List.cons.inj heq).1 hc'
      · split
        · rename_i heq
          exact absurd (List.cons.inj heq).1 hc
        · rfl

/-- The parts of an address are read alike in upper case. -/
lemma ofParts_upper (base : List Char) (second : Option (List Char)) :
    (ofParts base second).Same (ofParts (upper base) (second.map upper)) := by
  unfold ofParts
  rw [Register.read?_upper]
  cases second with
  | none => exact ⟨rfl, rfl, rfl⟩
  | some s =>
    simp only [Option.map_some, Operand.startsImmediate_upper, Register.read?_upper]
    split
    · exact ⟨rfl, congrArg some (Immediate.value?_upper s).symm, rfl⟩
    · cases Register.read? s <;> exact ⟨rfl, rfl, rfl⟩

/-- A text is a memory operand in both cases or in none, and in both it is the same. -/
lemma read?_upper (s : List Char) :
    read? s = none ∧ read? (upper s) = none ∨
      ∃ a b, read? s = some a ∧ read? (upper s) = some b ∧ a.Same b := by
  have hcomma (c : Char) : (c.toUpper == ',') = (c == ',') := by
    rw [Bool.eq_iff_iff, beq_iff_eq, beq_iff_eq]
    exact toUpper_eq_iff rfl
  unfold read?
  rw [inside?_upper]
  cases inside? s with
  | none => exact .inl ⟨rfl, rfl⟩
  | some inner =>
    refine .inr ⟨_, _, rfl, rfl, ?_⟩
    have hparts : ((upper inner).splitOnP (· == ',')).map trim =
        ((inner.splitOnP (· == ',')).map trim).map upper := by
      rw [splitOnP_upper hcomma, List.map_map, List.map_map]
      exact List.map_congr_left fun s _ => trim_upper s
    simp only [hparts]
    cases (inner.splitOnP (· == ',')).map trim with
    | nil => exact ofParts_upper [] none
    | cons base rest =>
      have hsecond : (rest.map upper).head? = rest.head?.map upper := List.head?_map
      show (ofParts base rest.head?).Same (ofParts (upper base) (rest.map upper).head?)
      rw [hsecond]
      exact ofParts_upper base rest.head?

end AddressOperand

namespace MemoryAccess

/-- Accesses are the same if they touch the same address and write the same back. -/
structure Same (a b : MemoryAccess) : Prop where
  targets : a.targets = b.targets
  offset : a.offset.map Immediate.value? = b.offset.map Immediate.value?
  indexed : a.indexed = b.indexed
  store : a.store = b.store
  writeback : a.writeback.map Immediate.value? = b.writeback.map Immediate.value?

/-- An address operand is found at the same place in upper case, or in neither case. -/
lemma find?_upper (operands : List (List Char)) :
    find? operands = none ∧ find? (operands.map upper) = none ∨
      ∃ s a b rest, find? operands = some (s, a, rest) ∧
        find? (operands.map upper) = some (upper s, b, rest.map upper) ∧ a.Same b := by
  induction operands with
  | nil => exact .inl ⟨rfl, rfl⟩
  | cons s rest ih =>
    rw [List.map_cons, find?, find?]
    obtain ⟨hnone, hnone'⟩ | ⟨a, b, ha, hb, hsame⟩ := AddressOperand.read?_upper s
    · rw [hnone, hnone']
      exact ih
    · rw [ha, hb]
      exact .inr ⟨s, a, b, rest, rfl, rfl, hsame⟩

/-- The writeback of an access has the same value in upper case. -/
lemma writebackOf_upper {a b : AddressOperand} (hsame : a.Same b) (s : List Char)
    (rest : List (List Char)) :
    (writebackOf s a rest).map Immediate.value? =
      (writebackOf (upper s) b (rest.map upper)).map Immediate.value? := by
  unfold writebackOf
  rw [if_congr (getLast?_upper_iff rfl) rfl rfl]
  split
  · exact hsame.offset
  · cases rest with
    | nil => rfl
    | cons next rest =>
      simp only [List.map_cons, firstWord_upper, Operand.startsImmediate_upper]
      split
      · exact congrArg some (Immediate.value?_upper _).symm
      · rfl

/-- Operands give an access in both cases or in none, and in both it is the same. -/
lemma read?_upper (store : Bool) (operands : List (List Char)) :
    read? store operands = none ∧ read? store (operands.map upper) = none ∨
      ∃ a b, read? store operands = some a ∧ read? store (operands.map upper) = some b ∧ a.Same b := by
  unfold read?
  obtain ⟨hnone, hnone'⟩ | ⟨s, a, b, rest, ha, hb, hsame⟩ := find?_upper operands
  · rw [hnone, hnone']
    match operands with
    | [] | [_] => exact .inl ⟨rfl, rfl⟩
    | first :: second :: rest =>
      refine .inr ⟨_, _, rfl, rfl, rfl, congrArg some ?_, rfl, rfl, rfl⟩
      have hlast : ((first :: second :: rest).map upper).getLast (by simp) =
          upper ((first :: second :: rest).getLast (by simp)) := List.getLast_map _
      simp only [List.map_cons] at hlast
      rw [hlast]
      exact (Operand.value?_readPage_upper _).symm
  · rw [ha, hb]
    exact .inr ⟨_, _, rfl, rfl, hsame.targets, hsame.offset, hsame.indexed, rfl,
      writebackOf_upper hsame s rest⟩

end MemoryAccess

/-! ### Shifted immediates -/

/-- A shift changes every word but zero, unless it is by nothing. -/
lemma shiftLeft_eq_self_iff {v n : UInt64} (hn : n < 64) : v <<< n = v ↔ v = 0 ∨ n = 0 := by
  have hlt : n.toNat < 64 := hn
  have hv : v.toNat < 2 ^ 64 := v.toNat_lt
  rw [← UInt64.toNat_inj, ← UInt64.toNat_inj, ← UInt64.toNat_inj, UInt64.toNat_shiftLeft,
    Nat.mod_eq_of_lt hlt, Nat.shiftLeft_eq]
  constructor
  · intro h
    by_cases hzero : n.toNat = 0
    · exact .inr hzero
    · left
      -- the difference is the word times an odd number
      have hmod : v.toNat ≡ v.toNat * 2 ^ n.toNat [MOD 2 ^ 64] := by
        rw [Nat.ModEq, h, Nat.mod_eq_of_lt hv]
      have hle : v.toNat ≤ v.toNat * 2 ^ n.toNat := Nat.le_mul_of_pos_right _ (Nat.two_pow_pos _)
      have hdvd := (Nat.modEq_iff_dvd' hle).1 hmod
      rw [← Nat.mul_sub_one] at hdvd
      have hodd : Odd (2 ^ n.toNat - 1) :=
        Nat.Even.sub_odd Nat.one_le_two_pow (Nat.even_pow.2 ⟨even_two, hzero⟩) odd_one
      have hcoprime : Nat.Coprime (2 ^ 64) (2 ^ n.toNat - 1) :=
        Nat.Coprime.pow_left 64 (Nat.coprime_two_left.2 hodd)
      exact Nat.eq_zero_of_dvd_of_lt (hcoprime.dvd_of_dvd_mul_right hdvd) hv
  · rintro (hzero | hzero)
    · rw [hzero]
      simp
    · have hzero : n.toNat = 0 := hzero
      rw [hzero, pow_zero, mul_one, Nat.mod_eq_of_lt hv]

namespace Operand

variable {shift : List Char} {n : UInt64}

/-- A shift amount is less than the width of a word. -/
lemma shiftAmount?_lt (h : shiftAmount? shift = some n) : n < 64 := by
  unfold shiftAmount? at h
  split at h
  · obtain ⟨v, -, hv⟩ := Option.bind_eq_some_iff.1 h
    rw [Option.ite_none_right_eq_some, Option.some.injEq, Int64.le_iff_toInt_le,
      Int64.lt_iff_toInt_lt] at hv
    obtain ⟨⟨hlow, hhigh⟩, rfl⟩ := hv
    have hlow : 0 ≤ v.toInt := hlow
    have hhigh : v.toInt < 64 := hhigh
    have hbits : v.toInt = v.toBitVec.toInt := rfl
    have hlt := v.toBitVec.isLt
    rw [hbits, BitVec.toInt_eq_toNat_cond] at hlow hhigh
    rw [UInt64.lt_iff_toNat_lt]
    show v.toBitVec.toNat < 64
    split at hlow <;> omega
  · cases h

/-- The word for a shift is known in lower case only. -/
lemma shiftAmount?_upper (s : List Char) : shiftAmount? (upper s) = none := by
  unfold shiftAmount?
  split
  · rename_i amount heq
    obtain ⟨c, t, rfl, hc, -⟩ := List.map_eq_cons_iff.1 heq
    have hlower := isLower_toUpper c
    rw [hc] at hlower
    cases hlower
  · rfl

/-- In upper case no shift is recognised. -/
lemma shiftImmediate_upper (text : String) (shift : Option (List Char)) :
    shiftImmediate text (shift.map upper) = text := by
  have hnone : (shift.map upper).bind shiftAmount? = none := by
    cases shift with
    | none => rfl
    | some s => exact shiftAmount?_upper s
  rw [shiftImmediate, hnone]

/-- A shift moves an immediate: neither is it by nothing, nor is the immediate zero. -/
structure Moves (text : String) (shift : List Char) : Prop where
  value : ∃ v, Immediate.value? text = some v ∧ v ≠ 0
  amount : ∃ n, shiftAmount? shift = some n ∧ n ≠ 0

/-- A shift changes a value if neither of them is zero. -/
lemma moves_iff {text : String} {v : Int64} (hv : Immediate.value? text = some v)
    (hn : shiftAmount? shift = some n) : Moves text shift ↔ v ≠ 0 ∧ n ≠ 0 := by
  constructor
  · rintro ⟨⟨v', hv', hne⟩, ⟨n', hn', hne'⟩⟩
    rw [hv, Option.some.injEq] at hv'
    rw [hn, Option.some.injEq] at hn'
    exact ⟨hv' ▸ hne, hn' ▸ hne'⟩
  · rintro ⟨hne, hne'⟩
    exact ⟨⟨v, hv, hne⟩, ⟨n, hn, hne'⟩⟩

/-- A shift leaves the value of an immediate alone unless it moves it. -/
lemma value?_shiftImmediate_iff (text : String) (shift : Option (List Char)) :
    Immediate.value? (shiftImmediate text shift) = Immediate.value? text ↔
      ∀ s ∈ shift, ¬ Moves text s := by
  cases shift with
  | none => simp [shiftImmediate]
  | some s =>
    simp only [Option.mem_def, Option.some.injEq, forall_eq']
    unfold shiftImmediate
    split
    · rename_i n v hn hv
      rw [Option.bind_some] at hn
      have hword (w : UInt64) : w.toInt64 = v ↔ w = v.toUInt64 :=
        ⟨fun h => by rw [← h, UInt64.toUInt64_toInt64], fun h => by rw [h, Int64.toInt64_toUInt64]⟩
      have hzero : v.toUInt64 = 0 ↔ v = 0 := eq_comm.trans ((hword 0).symm.trans eq_comm)
      rw [Immediate.value?_hex, hv, Option.some.injEq, hword, shiftLeft_eq_self_iff (shiftAmount?_lt hn),
        hzero, moves_iff hv hn]
      tauto
    · rename_i hnone
      refine iff_of_true rfl ?_
      rintro ⟨⟨v, hv, -⟩, ⟨n, hn, -⟩⟩
      exact hnone n v hn hv

/-- In upper case a summand is read without its shift. -/
lemma readSummand_upper (s : List Char) (shift : Option (List Char)) :
    readSummand (upper s) (shift.map upper) = read (upper s) := by
  unfold readSummand
  cases read (upper s) with
  | register r => rfl
  | immediate text => exact congrArg Operand.immediate (shiftImmediate_upper text shift)

/-- The second summand of an addition is the same in upper case unless a shift moves it. -/
lemma readSummand_same_iff (s : List Char) (shift : Option (List Char)) :
    (readSummand s shift).Same (readSummand (upper s) (shift.map upper)) ↔
      ∀ text, read s = .immediate text → ∀ t ∈ shift, ¬ Moves text t := by
  rw [readSummand_upper]
  have hsame := read_upper s
  unfold readSummand
  generalize read s = a, read (upper s) = b at hsame
  cases hsame with
  | register r => exact iff_of_true (.register r) nofun
  | @immediate a b hvalue =>
    have hshift : (Operand.immediate (shiftImmediate a shift)).Same (.immediate b) ↔
        Immediate.value? (shiftImmediate a shift) = Immediate.value? a := by
      rw [hvalue]
      exact ⟨fun | .immediate h => h, .immediate⟩
    show (Operand.immediate (shiftImmediate a shift)).Same (.immediate b) ↔ _
    rw [hshift, value?_shiftImmediate_iff]
    exact ⟨fun h text heq => by cases heq; exact h, fun h => h a rfl⟩

end Operand

/-! ### Instructions -/

namespace Operation

/-- Operations are the same if they do the same with the same registers, each immediate standing for
its value. -/
inductive Same : Operation → Operation → Prop where
  | move (dst : Register) {a b : Operand} : a.Same b → Same (.move dst a) (.move dst b)
  | add (dst lhs : Register) {a b : Operand} (subtract : Bool) : a.Same b →
    Same (.add dst lhs a subtract) (.add dst lhs b subtract)
  | page (dst : Register) {a b : String} : Immediate.value? a = Immediate.value? b →
    Same (.page dst a) (.page dst b)
  | access {a b : MemoryAccess} : a.Same b → Same (.access a) (.access b)
  | branch : Same .branch .branch
  | other : Same .other .other

/-- Operands of an addition, or of a subtraction, whose immediate is moved by the shift behind it. -/
inductive Shifted : Mnemonic → List (List Char) → Prop where
  | add {subtract : Bool} {dst lhs rhs shift : List Char} {rest : List (List Char)} {d l : Register}
      {text : String} : Register.read? dst = some d → Register.read? lhs = some l →
    Operand.read rhs = .immediate text → Operand.Moves text shift →
    Shifted (.add subtract) (dst :: lhs :: rhs :: shift :: rest)

/-- Moves are read alike in upper case. -/
lemma read_move_upper (operands : List (List Char)) :
    (read .move operands).Same (read .move (operands.map upper)) := by
  match operands with
  | [dst, src] =>
    simp only [List.map_cons, List.map_nil, read, Register.read?_upper]
    cases Register.read? dst with
    | none => exact .other
    | some dst => exact .move dst (Operand.read_upper src)
  | [] | [_] | _ :: _ :: _ :: _ => exact .other

/-- Page addresses are read alike in upper case. -/
lemma read_page_upper (operands : List (List Char)) :
    (read .page operands).Same (read .page (operands.map upper)) := by
  match operands with
  | [dst, src] =>
    simp only [List.map_cons, List.map_nil, read, Register.read?_upper]
    cases Register.read? dst with
    | none => exact .other
    | some dst => exact .page dst (Operand.value?_readPage_upper src).symm
  | [] | [_] | _ :: _ :: _ :: _ => exact .other

/-- Memory accesses are read alike in upper case. -/
lemma read_access_upper (store : Bool) (operands : List (List Char)) :
    (read (.access store) operands).Same (read (.access store) (operands.map upper)) := by
  rw [read, read]
  obtain ⟨hnone, hnone'⟩ | ⟨a, b, ha, hb, hsame⟩ := MemoryAccess.read?_upper store operands
  · rw [hnone, hnone']
    exact .other
  · rw [ha, hb]
    exact .access hsame

/-- Additions are read alike in upper case unless a shift changes their value. -/
lemma read_add_upper_iff (subtract : Bool) (operands : List (List Char)) :
    (read (.add subtract) operands).Same (read (.add subtract) (operands.map upper)) ↔
      ¬ Shifted (.add subtract) operands := by
  match operands with
  | [] | [_] | [_, _] => exact iff_of_true .other nofun
  | dst :: lhs :: rhs :: rest =>
    simp only [List.map_cons, read, Register.read?_upper, List.head?_map]
    cases hdst : Register.read? dst with
    | none =>
      refine iff_of_true .other ?_
      rintro ⟨h, -, -, -⟩
      rw [hdst] at h
      cases h
    | some d =>
      cases hlhs : Register.read? lhs with
      | none =>
        refine iff_of_true .other ?_
        rintro ⟨-, h, -, -⟩
        rw [hlhs] at h
        cases h
      | some l =>
        have hsummand : (Operation.add d l (Operand.readSummand rhs rest.head?) subtract).Same
            (.add d l (Operand.readSummand (upper rhs) (rest.head?.map upper)) subtract) ↔
            (Operand.readSummand rhs rest.head?).Same
              (Operand.readSummand (upper rhs) (rest.head?.map upper)) :=
          ⟨fun | .add _ _ _ h => h, .add d l subtract⟩
        show (Operation.add d l (Operand.readSummand rhs rest.head?) subtract).Same
          (.add d l (Operand.readSummand (upper rhs) (rest.head?.map upper)) subtract) ↔ _
        rw [hsummand, Operand.readSummand_same_iff]
        constructor
        · rintro h ⟨-, -, himmediate, hmoves⟩
          exact h _ himmediate _ rfl hmoves
        · intro h text himmediate shift hshift hmoves
          obtain ⟨rest, rfl⟩ := List.head?_eq_some_iff.1 hshift
          exact h (.add hdst hlhs himmediate hmoves)

/-- An operation is the same with its operands in upper case unless it shifts an immediate. -/
lemma read_upper_iff (mnemonic : Mnemonic) (operands : List (List Char)) :
    (read mnemonic operands).Same (read mnemonic (operands.map upper)) ↔
      ¬ Shifted mnemonic operands := by
  cases mnemonic with
  | add subtract => exact read_add_upper_iff subtract operands
  | move => exact iff_of_true (read_move_upper operands) nofun
  | page => exact iff_of_true (read_page_upper operands) nofun
  | access store => exact iff_of_true (read_access_upper store operands) nofun
  | branch => exact iff_of_true .branch nofun
  | other => exact iff_of_true .other nofun

end Operation

namespace Instruction

/-- The mnemonic of an instruction's text and the operands behind it. -/
def parts (s : List Char) : Mnemonic × List (List Char) :=
  let (mnemonic, operands) := (cutAt isBlank s).getD (s, [])
  (Mnemonic.read (lower mnemonic), Operand.split operands)

/-- Decoding reads the mnemonic and the operands of a text. -/
lemma operation_decode (address : Address) (text : String) : (decode address text).operation =
    Operation.read (parts text.toList).1 (parts text.toList).2 := by
  unfold decode parts
  obtain ⟨mnemonic, operands⟩ := (cutAt isBlank text.toList).getD (text.toList, [])
  rfl

/-- In upper case the mnemonic stays, and the operands are put in upper case. -/
lemma parts_upper (s : List Char) : parts (upper s) = ((parts s).1, (parts s).2.map upper) := by
  unfold parts
  rw [cutAt_upper isBlank_toUpper]
  cases cutAt isBlank s with
  | none =>
    simp only [Option.map_none, Option.getD_none, lower_upper]
    rfl
  | some cut => simp only [Option.map_some, Option.getD_some, lower_upper, Operand.split_upper]

/-- An instruction in upper case decodes to the same operation, unless it adds an immediate that is
moved by a shift: the word for a shift is known in lower case only. -/
theorem decode_upper_iff (address : Address) (text : String) :
    (decode address text).operation.Same
        (decode address (String.ofList (upper text.toList))).operation ↔
      ¬ Operation.Shifted (parts text.toList).1 (parts text.toList).2 := by
  rw [operation_decode, operation_decode, String.toList_ofList, parts_upper]
  exact Operation.read_upper_iff _ _

/-- A page is added in lower case, and one byte in upper case. -/
theorem decode_upper_shiftedAdd :
    ¬ (decode 0x1000 "add x1, x1, #1, lsl #12").operation.Same
        (decode 0x1000 (String.ofList (upper "add x1, x1, #1, lsl #12".toList))).operation := by
  have hlower : (decode 0x1000 "add x1, x1, #1, lsl #12").operation =
      .add ⟨"x1"⟩ ⟨"x1"⟩ (.immediate "0x1000") false := by
    decide
  have hupper : (decode 0x1000 (String.ofList (upper "add x1, x1, #1, lsl #12".toList))).operation =
      .add ⟨"x1"⟩ ⟨"x1"⟩ (.immediate "#1") false := by
    decide
  rw [hlower, hupper]
  rintro (_ | ⟨-, -, -, hsame⟩)
  cases hsame with
  | immediate hvalue =>
    revert hvalue
    decide

end Instruction

end CacheVerdict
