import CacheVerdict.Proofs.Text.Blank
import CacheVerdict.Proofs.Text.Numeral
import CacheVerdict.Resolution.Tracker

/-!
# The grammar of immediates

An immediate is written as `[#][-]` and a magnitude, in decimal digits or in hexadecimal ones behind
`0x` or `0X` (`Written`). Reading accepts exactly this grammar, with blanks around it, and gives the
64-bit number that is congruent to what is written (`Immediate.value?_eq_some_iff`). What a number is
written as, in decimal or as its two's complement in hexadecimal, reads back
(`Immediate.read_written_iff`).
-/

namespace CacheVerdict.Immediate

open Text Numeral

/-- An unsigned immediate, and its magnitude. -/
inductive Unsigned (m : Nat) : List Char → Prop where
  | decimal {s : List Char} : Spells 10 m s → Unsigned m s
  | hex {s : List Char} : Spells 16 m s → Unsigned m ('0' :: 'x' :: s)
  | hexUpper {s : List Char} : Spells 16 m s → Unsigned m ('0' :: 'X' :: s)

/-- An immediate behind its mark, and the number that it writes. Its magnitude has 64 bits. -/
inductive Signed : Int → List Char → Prop where
  | plain {m : Nat} {s : List Char} : Unsigned m s → m < UInt64.size → Signed m s
  | negated {m : Nat} {s : List Char} :
    Unsigned m s → m < UInt64.size → Signed (-m) ('-' :: s)

/-- An immediate, and the number that it writes. -/
inductive Written (k : Int) : List Char → Prop where
  | bare {s : List Char} : Signed k s → Written k s
  | marked {s : List Char} : Signed k s → Written k ('#' :: s)

/-- The characters of immediates. -/
def alphabet : List Char :=
  '#' :: '-' :: 'x' :: 'X' :: hexAlphabet

variable {radix m : Nat} {k : Int} {v : Int64} {c : Char} {s : List Char} {text : String}

/-! ### Characters -/

/-- An unsigned number starts with a digit. -/
lemma Unsigned.head_isDigit (h : Unsigned m (c :: s)) : c.isDigit = true := by
  have hfigure : ∀ d < 10, d.digitChar.isDigit = true ∧ d.digitChar.toUpper.isDigit = true := by
    decide
  cases h with
  | decimal hs =>
    obtain ⟨d, hlt, hshape⟩ := hs.isDigit c List.mem_cons_self
    rcases hshape with rfl | rfl
    · exact (hfigure d hlt).1
    · exact (hfigure d hlt).2
  | hex | hexUpper => rfl

/-- Behind its mark an immediate begins with a minus or a digit. -/
lemma Signed.head (h : Signed k (c :: s)) : c = '-' ∨ c.isDigit = true := by
  cases h with
  | plain hs => exact .inr hs.head_isDigit
  | negated => exact .inl rfl

/-- No signed number starts with a hash sign. -/
lemma not_signed_hash : ¬ Signed k ('#' :: s) := by
  intro h
  rcases h.head with heq | hdigit
  · exact absurd heq (by decide)
  · cases hdigit

/-- An unsigned number has digits. -/
lemma Unsigned.ne_nil (h : Unsigned m s) : s ≠ [] := by
  cases h with
  | decimal hs => exact hs.ne_nil
  | hex | hexUpper => exact List.cons_ne_nil _ _

/-- An unsigned number is written in the alphabet. -/
lemma Unsigned.mem (h : Unsigned m s) : ∀ c ∈ s, c ∈ alphabet := by
  have hdigits {radix : Nat} {s : List Char} (hradix : radix ≤ 16) (hs : Spells radix m s) :
      ∀ c ∈ s, c ∈ alphabet := fun c hc => by
    simp [alphabet, hs.mem hradix c hc]
  cases h with
  | decimal hs => exact hdigits (by decide) hs
  | hex hs | hexUpper hs =>
    exact List.forall_mem_cons.2 ⟨by decide, List.forall_mem_cons.2 ⟨by decide, hdigits le_rfl hs⟩⟩

/-- A signed number has digits. -/
lemma Signed.ne_nil (h : Signed k s) : s ≠ [] := by
  cases h with
  | plain hs => exact hs.ne_nil
  | negated => exact List.cons_ne_nil _ _

/-- A signed number is written in the alphabet. -/
lemma Signed.mem (h : Signed k s) : ∀ c ∈ s, c ∈ alphabet := by
  cases h with
  | plain hs => exact hs.mem
  | negated hs => exact List.forall_mem_cons.2 ⟨by decide, hs.mem⟩

/-- An immediate is written in the alphabet. -/
lemma Written.mem (h : Written k s) : ∀ c ∈ s, c ∈ alphabet := by
  cases h with
  | bare hs => exact hs.mem
  | marked hs => exact List.forall_mem_cons.2 ⟨by decide, hs.mem⟩

/-- There is no blank in an immediate. -/
lemma Written.solid (h : Written k s) : Solid s := by
  have halphabet : Solid alphabet := by decide
  refine ⟨?_, fun c hc => halphabet.solid c (h.mem c hc)⟩
  cases h with
  | bare hs => exact hs.ne_nil
  | marked => exact List.cons_ne_nil _ _

/-! ### Reading -/

/-- Digits are read where they spell a number of 64 bits. -/
lemma digits?_eq_some_iff (hradix : radix ≤ 16) :
    digits? radix s = some m ↔ Spells radix m s ∧ m < UInt64.size := by
  cases s with
  | nil => exact iff_of_false nofun fun h => h.1.ne_nil rfl
  | cons c s =>
    rw [← readOnto_eq_ok_iff hradix (List.cons_ne_nil c s)]
    show (readOnto radix UInt64.size 0 (c :: s)).toOption = some m ↔ _
    cases readOnto radix UInt64.size 0 (c :: s) with
    | error fault => exact iff_of_false nofun nofun
    | ok n => exact ⟨fun h => congrArg Except.ok (Option.some.inj h),
        fun h => congrArg some (Except.ok.inj h)⟩

/-- The mark of a hexadecimal number holds no decimal digit. -/
lemma not_spells_ten (hc : digit? 10 c = none) : ¬ Spells 10 m ('0' :: c :: s) := by
  intro h
  obtain ⟨d, hd⟩ := h.isDigit c (by simp)
  rw [hd.digit? (by decide)] at hc
  cases hc

/-- A magnitude is read where an unsigned number of 64 bits is written. -/
lemma magnitude?_eq_some_iff : magnitude? s = some m ↔ Unsigned m s ∧ m < UInt64.size := by
  unfold magnitude?
  split
  · rw [digits?_eq_some_iff le_rfl]
    refine and_congr_left fun _ => ⟨.hex, fun h => ?_⟩
    cases h with
    | decimal hs => exact absurd hs (not_spells_ten (by decide))
    | hex hs => exact hs
  · rw [digits?_eq_some_iff le_rfl]
    refine and_congr_left fun _ => ⟨.hexUpper, fun h => ?_⟩
    cases h with
    | decimal hs => exact absurd hs (not_spells_ten (by decide))
    | hexUpper hs => exact hs
  · rename_i hsmall hcapital
    rw [digits?_eq_some_iff (by decide)]
    refine and_congr_left fun _ => ⟨.decimal, fun h => ?_⟩
    cases h with
    | decimal hs => exact hs
    | hex => exact absurd rfl (hsmall _)
    | hexUpper => exact absurd rfl (hcapital _)

/-- Reads an immediate behind its mark. -/
def signed? : List Char → Option Int64
  | '-' :: s => (magnitude? s).map fun m => -(UInt64.ofNat m).toInt64
  | s => (magnitude? s).map fun m => (UInt64.ofNat m).toInt64

/-- The value of a text is read behind its hash sign. -/
lemma value?_eq (text : String) : value? text = signed? (dropHash (trim text.toList)) := rfl

/-- Machine words are taken modulo their size. -/
lemma toInt64_ofNat (m : Nat) : (UInt64.ofNat m).toInt64 = Int64.ofInt m := by
  rw [UInt64.toInt64_ofNat', Int64.ofInt_eq_ofNat]

/-- A signed text is read as the number that it writes, modulo the size of a word. -/
lemma signed?_eq_some_iff : signed? s = some v ↔ ∃ k, Signed k s ∧ v = Int64.ofInt k := by
  unfold signed?
  split
  · rename_i s
    rw [Option.map_eq_some_iff]
    constructor
    · rintro ⟨m, hm, rfl⟩
      obtain ⟨hs, hlt⟩ := magnitude?_eq_some_iff.1 hm
      refine ⟨-m, .negated hs hlt, ?_⟩
      rw [toInt64_ofNat, Int64.ofInt_neg]
    · rintro ⟨k, hk, rfl⟩
      cases hk with
      | plain hs => cases hs.head_isDigit
      | @negated m _ hs hlt =>
        refine ⟨m, magnitude?_eq_some_iff.2 ⟨hs, hlt⟩, ?_⟩
        rw [toInt64_ofNat, Int64.ofInt_neg]
  · rename_i hminus
    rw [Option.map_eq_some_iff]
    constructor
    · rintro ⟨m, hm, rfl⟩
      obtain ⟨hs, hlt⟩ := magnitude?_eq_some_iff.1 hm
      exact ⟨m, .plain hs hlt, toInt64_ofNat m⟩
    · rintro ⟨k, hk, rfl⟩
      cases hk with
      | @plain m _ hs hlt => exact ⟨m, magnitude?_eq_some_iff.2 ⟨hs, hlt⟩, toInt64_ofNat m⟩
      | negated => exact absurd rfl (hminus _)

/-- One mark counts, and only in front. -/
lemma signed_dropHash_iff : Signed k (dropHash s) ↔ Written k s := by
  unfold dropHash
  split
  · refine ⟨.marked, fun h => ?_⟩
    cases h with
    | bare hs => exact absurd hs not_signed_hash
    | marked hs => exact hs
  · rename_i hhash
    refine ⟨.bare, fun h => ?_⟩
    cases h with
    | bare hs => exact hs
    | marked => exact absurd rfl (hhash _)

/-- Just what is written as an immediate has a value, which is the number written, in 64 bits. -/
lemma value?_eq_some_iff :
    value? text = some v ↔ ∃ k, Written k (trim text.toList) ∧ v = Int64.ofInt k := by
  rw [value?_eq, signed?_eq_some_iff]
  exact exists_congr fun k => and_congr_left fun _ => signed_dropHash_iff

/-- What is written as an immediate has its value. -/
lemma Written.value? (h : Written k text.toList) : value? text = some (Int64.ofInt k) := by
  rw [value?_eq_some_iff, h.solid.trim]
  exact ⟨k, h, rfl⟩

/-- A text has no value if it writes no number. -/
lemma value?_eq_none_iff : value? text = none ↔ ∀ k, ¬ Written k (trim text.toList) := by
  rw [Option.eq_none_iff_forall_ne_some]
  constructor
  · intro h k hk
    exact h _ (value?_eq_some_iff.2 ⟨k, hk, rfl⟩)
  · intro h v hv
    obtain ⟨k, hk, -⟩ := value?_eq_some_iff.1 hv
    exact h k hk

/-! ### Rendering -/

/-- A number is written in decimal as a sign and its digits. -/
lemma signed_repr (hk : k.natAbs < UInt64.size) : Signed k (toString k).toList := by
  cases k with
  | ofNat m =>
    have htext : (toString (Int.ofNat m)).toList = Nat.toDigits 10 m := Nat.toList_repr
    rw [htext]
    exact .plain (.decimal (spells_toDigits (by decide) m)) hk
  | negSucc m =>
    have htext : (toString (Int.negSucc m)).toList = '-' :: Nat.toDigits 10 (m + 1) := by
      rw [Int.toString_eq_repr, Int.repr, String.toList_append, Nat.toList_repr]
      rfl
    rw [htext]
    exact .negated (.decimal (spells_toDigits (by decide) (m + 1))) hk

/-- A number in hexadecimal writes itself. -/
lemma signed_hex (n : UInt64) : Signed n.toNat (Numeral.hex n.toNat).toList := by
  have htext : (Numeral.hex n.toNat).toList = '0' :: 'x' :: hexDigits n.toNat := by
    rw [Numeral.hex, String.toList_append]
    exact congrArg ("0x".toList ++ ·) String.toList_ofList
  rw [htext]
  exact .plain (.hex (spells_hexDigits n.toNat)) n.toNat_lt_size

/-- A number in hexadecimal is read back. -/
lemma value?_hex (n : UInt64) : value? (Numeral.hex n.toNat) = some n.toInt64 := by
  rw [(Written.bare (signed_hex n)).value?, ← toInt64_ofNat, UInt64.ofNat_toNat]

/-- With or without its mark, what is written has one value. -/
lemma Signed.read (h : Signed k text.toList) :
    read text = .ok (Int64.ofInt k) ∧ read ("#" ++ text) = .ok (Int64.ofInt k) := by
  have hmarked : Written k ("#" ++ text).toList := by
    rw [String.toList_append]
    exact .marked h
  rw [Immediate.read, Immediate.read, (Written.bare h).value?, hmarked.value?]
  exact ⟨rfl, rfl⟩

/-- Reading an immediate accepts exactly what the grammar writes, as the 64-bit number that is
congruent to what is written, and reports any other text as it stands. Every number reads back from
its decimal digits and from its two's complement in hexadecimal, with or without a mark in front. -/
theorem read_written_iff :
    (∀ (text : String) (v : Int64),
      read text = .ok v ↔ ∃ k, Written k (trim text.toList) ∧ v = Int64.ofInt k) ∧
    (∀ (text : String) (fault : ResolveFault),
      read text = .error fault ↔
        (∀ k, ¬ Written k (trim text.toList)) ∧ fault = .immediate text) ∧
    ∀ v : Int64,
      (read (toString v.toInt) = .ok v ∧ read ("#" ++ toString v.toInt) = .ok v) ∧
        read (Numeral.hex v.toUInt64.toNat) = .ok v ∧
          read ("#" ++ Numeral.hex v.toUInt64.toNat) = .ok v := by
  refine ⟨fun text v => ?_, fun text fault => ?_, fun v => ⟨?_, ?_⟩⟩
  · rw [← value?_eq_some_iff, read]
    cases value? text with
    | none => exact iff_of_false nofun nofun
    | some w => exact ⟨fun h => congrArg some (Except.ok.inj h),
        fun h => congrArg Except.ok (Option.some.inj h)⟩
  · rw [← value?_eq_none_iff, read]
    cases value? text with
    | none => exact ⟨fun h => ⟨rfl, (Except.error.inj h).symm⟩,
        fun h => congrArg Except.error h.2.symm⟩
    | some w => exact iff_of_false nofun nofun
  · have hlow := v.le_toInt
    have hhigh := v.toInt_lt
    have hsize : v.toInt.natAbs < UInt64.size := by
      rw [UInt64.size]
      omega
    have hread := (signed_repr hsize).read
    rwa [Int64.ofInt_toInt] at hread
  · have hread := (signed_hex v.toUInt64).read
    rwa [← toInt64_ofNat, UInt64.ofNat_toNat, Int64.toInt64_toUInt64] at hread

end CacheVerdict.Immediate
