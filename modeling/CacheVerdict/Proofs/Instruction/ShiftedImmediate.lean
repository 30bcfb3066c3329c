import CacheVerdict.Proofs.Hierarchy.Lines
import CacheVerdict.Proofs.Instruction.LetterCase
import CacheVerdict.Proofs.StackHeight.Executions

/-!
# Shifted immediates

The immediate of an addition `add dst, lhs, m, lsl #n` is read, shifted and written again in
hexadecimal. What is written reads as the number times a power of two, in 64 bits
(`Operand.value?_shiftImmediate`), so an addition that is decoded moves the stack pointer and the
addresses that are followed back through it by that number (`Instruction.decode_shifted`).
-/

namespace CacheVerdict

open Text

/-- The number `v * 2 ^ n`, in 64 bits. -/
def Immediate.shifted (v : Int64) (n : Nat) : Int64 :=
  Int64.ofInt (v.toInt * 2 ^ n)

/-- The mnemonics of additions, and whether they subtract. -/
def Mnemonic.additions : List (String × Bool) :=
  [("add", false), ("adds", false), ("sub", true), ("subs", true)]

/-- An operand that names a register. The zero register is a number and has no such name. -/
structure Register.Names (s : List Char) (r : Register) : Prop where
  whole : Operand.Whole s
  read : read? s = some r

/-- A shift operand `lsl #n`, with its amount written in any way. -/
inductive Operand.Shifts (n : Nat) : List Char → Prop where
  | lsl {gap amount : List Char} : Blanks gap → Immediate.Written n amount →
    Shifts n ('l' :: 's' :: 'l' :: (gap ++ amount))

/-- The text of an addition `mnemonic dst, lhs, m, lsl #n`, whose immediate `m` is read as `v`. -/
inductive Instruction.ShiftedAddition (subtract : Bool) (dst lhs : Register) (v : Int64) (n : Nat) :
    List Char → Prop where
  | add {mnemonic d l m shift operands : List Char} {blank : Char} :
    (String.ofList (lower mnemonic), subtract) ∈ Mnemonic.additions → isBlank blank = true →
    Register.Names d dst → Register.Names l lhs → Immediate.value? (String.ofList m) = some v →
    Operand.Shifts n shift → Operand.Joined [d, l, m, shift] operands →
    ShiftedAddition subtract dst lhs v n (mnemonic ++ blank :: operands)

variable {subtract : Bool} {dst lhs : Register} {v : Int64} {n : Nat} {s m shift : List Char}
  {text : String}

/-! ### Words -/

/-- A shift of a word is a product. -/
lemma toInt64_shiftLeft (v : Int64) (hn : n < 64) :
    (v.toUInt64 <<< UInt64.ofNat n).toInt64 = Immediate.shifted v n := by
  have hpow : (2 : Int) ^ n = (2 ^ n : Nat) := by simp
  have hmul : v.toUInt64 <<< UInt64.ofNat n = v.toUInt64 * UInt64.ofNat (2 ^ n) := by
    apply UInt64.toNat_inj.1
    rw [UInt64.toNat_shiftLeft, toNat_ofNat_mod hn, UInt64.toNat_mul, UInt64.toNat_ofNat',
      Nat.shiftLeft_eq, Nat.mul_mod_mod]
  rw [hmul, UInt64.toInt64_mul, Int64.toInt64_toUInt64, Immediate.toInt64_ofNat, Immediate.shifted,
    Int64.ofInt_mul, Int64.ofInt_toInt, hpow]

/-! ### Operands -/

namespace Operand

/-- No character of an immediate separates operands. -/
lemma neutral_of_written {k : Int} (h : Immediate.Written k s) : Neutral s := by
  have halphabet : Neutral Immediate.alphabet := by decide
  exact fun c hc => halphabet c (h.mem c hc)

/-- A shift has no blanks around it. -/
lemma Shifts.trim (h : Shifts n shift) : trim shift = shift := by
  obtain ⟨-, hamount⟩ := h
  have hlsl : Solid ['l', 's', 'l'] := by decide
  exact hlsl.trim_append _ hamount.solid

/-- A shift is not an empty text. -/
lemma Shifts.ne_nil (h : Shifts n shift) : shift ≠ [] := by
  cases h
  exact List.cons_ne_nil _ _

/-- A shift contains no comma outside brackets. -/
lemma Shifts.whole (h : Shifts n shift) : Whole shift := by
  obtain ⟨hgap, hamount⟩ := h
  have hlsl : Whole ['l', 's', 'l'] := by decide
  exact hlsl.append ((neutral_blanks hgap).whole.append (neutral_of_written hamount).whole)

/-- The amount of a shift is read as it is written. -/
lemma Shifts.shiftAmount? (h : Shifts n shift) (hn : n < 64) :
    shiftAmount? shift = some (UInt64.ofNat n) := by
  obtain @⟨gap, amount, hgap, hamount⟩ := h
  have htrim : Text.trim (gap ++ amount) = amount := by
    have hblanks := trim_append hgap amount (List.forall_mem_nil _)
    rw [List.append_nil] at hblanks
    rw [hblanks, hamount.solid.trim]
  have hwritten : Immediate.Written n (String.ofList amount).toList := by
    rwa [String.toList_ofList]
  have htoInt : (Int64.ofInt n).toInt = n := Int64.toInt_ofInt_of_le (by omega) (by omega)
  have hrange : 0 ≤ Int64.ofInt n ∧ Int64.ofInt n < 64 := by
    rw [Int64.le_iff_toInt_le, Int64.lt_iff_toInt_lt, htoInt]
    exact ⟨Int.natCast_nonneg n, Int.ofNat_lt.2 hn⟩
  rw [Operand.shiftAmount?, htrim, hwritten.value?, Option.bind_some, if_pos hrange,
    ← Immediate.toInt64_ofNat, UInt64.toUInt64_toInt64]

/-- A shifted immediate reads as the number times a power of two. -/
lemma value?_shiftImmediate (hv : Immediate.value? text = some v) (h : Shifts n shift)
    (hn : n < 64) :
    Immediate.value? (shiftImmediate text (some shift)) = some (Immediate.shifted v n) := by
  unfold shiftImmediate
  rw [Option.bind_some, h.shiftAmount? hn, hv, Immediate.value?_hex, toInt64_shiftLeft v hn]

/-- A text that is read as an immediate is an operand of its own. -/
lemma whole_of_value? (hv : Immediate.value? (String.ofList m) = some v) : Whole m := by
  obtain ⟨k, hk, -⟩ := Immediate.value?_eq_some_iff.1 hv
  rw [String.toList_ofList] at hk
  obtain ⟨before, after, hbefore, hafter, hm⟩ := exists_blanks_trim m
  rw [← hm]
  exact Whole.blanks hbefore (neutral_of_written hk).whole hafter

/-- An immediate is told by its first character. -/
lemma startsImmediate_of_written {k : Int} (h : Immediate.Written k s) :
    startsImmediate s = true := by
  cases h with
  | marked => rfl
  | bare hs =>
    obtain ⟨c, rest, rfl⟩ := List.exists_cons_of_ne_nil hs.ne_nil
    rcases hs.head with rfl | hdigit
    · rfl
    · simp [startsImmediate, hdigit]

/-- Such a text is read as an immediate of its value. -/
lemma read_of_value? (hv : Immediate.value? (String.ofList m) = some v) :
    ∃ text, read (Text.trim m) = .immediate text ∧ Immediate.value? text = some v := by
  obtain ⟨k, hk, rfl⟩ := Immediate.value?_eq_some_iff.1 hv
  rw [String.toList_ofList] at hk
  have hword : firstWord (Text.trim m) = Text.trim m := by
    have hstart := hk.solid.trimStart_append []
    rw [List.append_nil] at hstart
    rw [firstWord, hstart, List.takeWhile_eq_self_iff]
    intro c hc
    rw [hk.solid.solid c hc]
    rfl
  have hwritten : Immediate.Written k (String.ofList (Text.trim m)).toList := by
    rwa [String.toList_ofList]
  refine ⟨String.ofList (Text.trim m), ?_, hwritten.value?⟩
  unfold read
  rw [hword, if_pos (startsImmediate_of_written hk)]

end Operand

/-! ### Additions -/

/-- The mnemonics of additions are read as additions. -/
lemma Mnemonic.read_of_additions (h : (String.ofList s, subtract) ∈ additions) :
    read s = .add subtract := by
  have hall : ∀ e ∈ additions, read e.1.toList = .add e.2 := by decide
  have hread := hall _ h
  rwa [String.toList_ofList] at hread

/-- The mnemonics of additions contain no blank. -/
lemma Mnemonic.solid_of_additions (h : (String.ofList (lower s), subtract) ∈ additions) :
    ∀ c ∈ s, isBlank c = false := by
  have hall : ∀ e ∈ additions, Solid e.1.toList := by decide
  have hsolid := (hall _ h).solid
  rw [String.toList_ofList] at hsolid
  intro c hc
  rw [← isBlank_toLower]
  exact hsolid _ (List.mem_map_of_mem hc)

namespace Register

/-- Blanks around an address do not matter. -/
lemma read?_trim (s : List Char) : read? (trim s) = read? s := by
  unfold read?
  rw [trim_trim]

end Register

namespace Instruction

/-- The text of an addition decodes to it, with an immediate of the shifted value. -/
lemma ShiftedAddition.exists_rhs (h : ShiftedAddition subtract dst lhs v n s) (hn : n < 64)
    (address : Address) : ∃ rhs,
      (decode address (String.ofList s)).operation = .add dst lhs (.immediate rhs) subtract ∧
        Immediate.value? rhs = some (Immediate.shifted v n) := by
  obtain @⟨mnemonic, d, l, m, shift, operands, blank, hmnemonic, hblank, hd, hl, hv, hshift,
    hjoined⟩ := h
  have hsplit : Operand.split operands = [d, l, m, shift].map trim := by
    refine hjoined.split_eq ?_ ?_
    · simp [hd.whole, hl.whole, Operand.whole_of_value? hv, hshift.whole]
    · rintro w ⟨⟩
      show trim shift ≠ []
      rw [hshift.trim]
      exact hshift.ne_nil
  have hparts : parts (mnemonic ++ blank :: operands) =
      (.add subtract, [trim d, trim l, trim m, shift]) := by
    unfold parts
    rw [cutAt_append (Mnemonic.solid_of_additions hmnemonic) hblank, Option.getD_some]
    simp only
    rw [Mnemonic.read_of_additions hmnemonic, hsplit]
    simp [hshift.trim]
  obtain ⟨text, hread, hvalue⟩ := Operand.read_of_value? hv
  refine ⟨Operand.shiftImmediate text (some shift), ?_,
    Operand.value?_shiftImmediate hvalue hshift hn⟩
  rw [operation_decode, String.toList_ofList, hparts]
  simp only [Operation.read, Register.read?_trim, hd.read, hl.read, Operand.readSummand, hread,
    List.head?_cons]

/-- An addition of a shifted immediate decodes to the addition of the number times a power of two,
in 64 bits. So an adjustment of the stack pointer moves its height by that number, and following an
address back through a register that is computed from itself moves its offset by it. -/
theorem decode_shifted (h : ShiftedAddition subtract dst lhs v n text.toList) (hn : n < 64)
    (address : Address) :
    (∃ rhs, (decode address text).operation = .add dst lhs (.immediate rhs) subtract ∧
      Immediate.value? rhs = some (Immediate.shifted v n)) ∧
    (dst.isStackPointer = true → lhs.isStackPointer = true → ∀ height : Int64,
      (StackHeight.known height).after (decode address text) =
        .known (if subtract then height - Immediate.shifted v n
          else height + Immediate.shifted v n)) ∧
    (dst = lhs → ∀ t : Tracker, dst ∈ t.pending →
      t.step (decode address text) =
        .ok { t with
          offset := if subtract then t.offset - Immediate.shifted v n
            else t.offset + Immediate.shifted v n }) := by
  have hrhs := h.exists_rhs hn address
  rw [String.ofList_toList] at hrhs
  obtain ⟨rhs, hoperation, hvalue⟩ := hrhs
  refine ⟨⟨rhs, hoperation, hvalue⟩, fun hdst hlhs height => ?_, fun heq t hpending => ?_⟩
  · rw [StackHeight.after_of_add hoperation hdst hlhs, StackHeight.shiftBy, hvalue]
    cases subtract with
    | false => rfl
    | true => exact congrArg StackHeight.known (Int64.sub_eq_add_neg _ _).symm
  · subst heq
    have hread : Immediate.read rhs = .ok (Immediate.shifted v n) := by
      rw [Immediate.read, hvalue]
    have hstep : t.step (decode address text) =
        .ok (t.shift (if subtract then -Immediate.shifted v n else Immediate.shifted v n)) := by
      rw [Tracker.step, hoperation]
      simp only [if_pos hpending, hread, if_true]
      rfl
    rw [hstep]
    cases subtract with
    | false => rfl
    | true =>
      exact congrArg (fun offset => Except.ok { t with offset }) (Int64.sub_eq_add_neg _ _).symm

/-- Two pages are subtracted from a register. -/
lemma shiftedAddition_twoPages (h : Register.Names s dst) :
    ShiftedAddition true dst dst 2 12
      ("SUB ".toList ++ (s ++ ", ".toList ++ (s ++ ",#0x2 , lsl #12".toList))) := by
  have hamount : Immediate.Written (12 : Nat) "#12".toList := by
    have hspells : Numeral.Spells 10 12 ['1', '2'] := Numeral.spells_toDigits (by decide) 12
    exact .marked (.plain (.decimal hspells) (by decide))
  have hshift : Operand.Shifts 12 "lsl #12".toList :=
    @Operand.Shifts.lsl 12 [' '] _ (by decide) hamount
  have hlast := @Operand.Joined.cons "#0x2".toList [' '] [' '] _ _ (by decide) (by decide)
    (.single "lsl #12".toList)
  have hthree := @Operand.Joined.cons s [] [] _ _ (by decide) (by decide) hlast
  have hjoined := @Operand.Joined.cons s [] [' '] _ _ (by decide) (by decide) hthree
  have htext := @ShiftedAddition.add true dst dst 2 12 "SUB".toList _ _ _ _ _ ' ' (by decide)
    (by decide) h h (by decide) hshift hjoined
  simpa using htext

/-- They are taken off the stack pointer, and off an address that is followed back. -/
theorem decode_shifted_twoPages :
    (StackHeight.known 16).after (decode 0x1000 "SUB sp, sp,#0x2 , lsl #12") = .known (-8176) ∧
    (Tracker.start [⟨"x1"⟩] 16 false).step (decode 0x1000 "SUB w1, w1,#0x2 , lsl #12") =
      .ok (Tracker.start [⟨"x1"⟩] (-8176) false) := by
  have hsp : ShiftedAddition true ⟨"sp"⟩ ⟨"sp"⟩ 2 12 "SUB sp, sp,#0x2 , lsl #12".toList :=
    shiftedAddition_twoPages (s := "sp".toList) ⟨by decide, by decide⟩
  have hw1 : ShiftedAddition true ⟨"x1"⟩ ⟨"x1"⟩ 2 12 "SUB w1, w1,#0x2 , lsl #12".toList :=
    shiftedAddition_twoPages (s := "w1".toList) ⟨by decide, by decide⟩
  constructor
  · exact (decode_shifted hsp (by decide) 0x1000).2.1 rfl rfl 16
  · exact (decode_shifted hw1 (by decide) 0x1000).2.2 rfl (.start [⟨"x1"⟩] 16 false) (by decide)

end Instruction

end CacheVerdict
