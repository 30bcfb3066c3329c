import CacheVerdict.Instruction.Basic
import CacheVerdict.Instruction.Immediate

/-!
# Decoding instructions

Reads one line of AArch64 disassembly. Operands are split at the commas outside brackets, the
narrow registers are views of the wide ones, and the zero register reads as the number 0.
-/

namespace CacheVerdict

namespace Operand

/-- The bracket depth after a character; it never falls below zero. -/
def depthAfter (depth : Nat) : Char → Nat
  | '[' => depth + 1
  | ']' => depth - 1
  | _ => depth

/-- Splits at the commas of depth zero, `current` being what is read of the operand at hand. A last
operand that is blank does not count. -/
def splitFrom : Nat → List Char → List Char → List (List Char)
  | _, current, [] => if Text.trim current = [] then [] else [Text.trim current]
  | depth, current, c :: rest =>
    if c = ',' ∧ depth = 0 then Text.trim current :: splitFrom 0 [] rest
    else splitFrom (depthAfter depth c) (current ++ [c]) rest

/-- The operands of an instruction, each without the blanks around it. -/
def split (s : List Char) : List (List Char) :=
  splitFrom 0 [] s

end Operand

namespace Register

/-- The register of a name; none for the zero register. -/
def read? (s : List Char) : Option Register :=
  let name := Text.lower (Text.trim s)
  if name = "xzr".toList ∨ name = "wzr".toList then none
  else if name = "wsp".toList then some ⟨"sp"⟩
  else
    match name with
    | 'w' :: number =>
      if number ≠ [] ∧ number.all Char.isDigit then some ⟨String.ofList ('x' :: number)⟩
      else some ⟨String.ofList name⟩
    | _ => some ⟨String.ofList name⟩

end Register

namespace Operand

/-- Whether an operand starts as an immediate does. -/
def startsImmediate : List Char → Bool
  | [] => false
  | c :: _ => c = '#' || c = '-' || c.isDigit

/-- Reads a source operand; what follows its first word is an annotation. -/
def read (s : List Char) : Operand :=
  let word := Text.firstWord s
  if startsImmediate word then .immediate (String.ofList word)
  else
    match Register.read? word with
    | some r => .register r
    | none => .immediate "0"

/-- The text of a page address, which is hexadecimal with or without its mark. -/
def readPage (s : List Char) : String :=
  match Immediate.dropHash (Text.firstWord s) with
  | '0' :: 'x' :: digits => String.ofList ('0' :: 'x' :: digits)
  | '0' :: 'X' :: digits => String.ofList ('0' :: 'X' :: digits)
  | digits => String.ofList ('0' :: 'x' :: digits)

/-- The amount of a shift operand `lsl #n`, below the width of a register. -/
def shiftAmount? : List Char → Option UInt64
  | 'l' :: 's' :: 'l' :: amount =>
    (Immediate.value? (String.ofList (Text.trim amount))).bind fun n =>
      if 0 ≤ n ∧ n < 64 then some n.toUInt64 else none
  | _ => none

/-- Applies a shift operand to an immediate. Without a proper shift, or where the immediate is no
number, its text stays as it is. -/
def shiftImmediate (text : String) (shift : Option (List Char)) : String :=
  match shift.bind shiftAmount?, Immediate.value? text with
  | some n, some v => Numeral.hex (v.toUInt64 <<< n).toNat
  | _, _ => text

/-- The second summand of an addition, `shift` being the operand after it. -/
def readSummand (s : List Char) (shift : Option (List Char)) : Operand :=
  match read s with
  | .immediate text => .immediate (shiftImmediate text shift)
  | .register r => .register r

end Operand

/-- The address part of a memory operand. -/
structure AddressOperand where
  targets : List Register
  offset : Option String
  indexed : Bool
deriving DecidableEq, Repr

namespace AddressOperand

/-- What stands between the brackets of `[…]`, before any number of `!`. -/
def inside? (s : List Char) : Option (List Char) :=
  match Text.trim ((Text.trim s).reverse.dropWhile (· = '!')).reverse with
  | '[' :: inner => if inner.getLast? = some ']' then some inner.dropLast else none
  | _ => none

/-- Reads the parts between the brackets: a base register, then an offset or an index register. -/
def ofParts (base : List Char) (second : Option (List Char)) : AddressOperand :=
  let targets := (Register.read? base).toList
  match second with
  | none => ⟨targets, none, false⟩
  | some s =>
    if Operand.startsImmediate s then ⟨targets, some (String.ofList s), false⟩
    else
      match Register.read? s with
      | some index => ⟨targets ++ [index], none, true⟩
      | none => ⟨targets, none, false⟩

/-- Reads a memory operand `[base, index or offset, …]`. -/
def read? (s : List Char) : Option AddressOperand :=
  (inside? s).map fun inner =>
    match (inner.splitOnP (· == ',')).map Text.trim with
    | [] => ofParts [] none
    | base :: rest => ofParts base rest.head?

end AddressOperand

namespace MemoryAccess

/-- The first memory operand, with its text and the operands behind it. -/
def find? : List (List Char) → Option (List Char × AddressOperand × List (List Char))
  | [] => none
  | s :: rest =>
    match AddressOperand.read? s with
    | some address => some (s, address, rest)
    | none => find? rest

/-- What an access adds to its base: the offset of `[base, offset]!`, or the immediate behind
`[base]`. -/
def writebackOf (s : List Char) (address : AddressOperand) (rest : List (List Char)) :
    Option String :=
  if s.getLast? = some '!' then address.offset
  else
    match rest with
    | next :: _ =>
      let word := Text.firstWord next
      if Operand.startsImmediate word then some (String.ofList word) else none
    | [] => none

/-- The access of a load or store. Without a memory operand it is an access to a literal, whose
address is the last of at least two operands. -/
def read? (store : Bool) (operands : List (List Char)) : Option MemoryAccess :=
  match find? operands with
  | some (s, address, rest) =>
    some ⟨address.targets, address.offset, address.indexed, store, writebackOf s address rest⟩
  | none =>
    match operands with
    | first :: second :: rest =>
      some ⟨[], some (Operand.readPage ((first :: second :: rest).getLast (by simp))), false,
        store, none⟩
    | _ => none

end MemoryAccess

/-- The families of mnemonics that decoding tells apart. -/
inductive Mnemonic where
  | move
  | add (subtract : Bool)
  | page
  | access (store : Bool)
  | branch
  | other
deriving DecidableEq, Repr

namespace Mnemonic

/-- The plain branches; conditional ones start with `b.`. -/
def branches : List String :=
  ["b", "bl", "blr", "br", "cbz", "cbnz", "tbz", "tbnz", "ret"]

/-- The family of a mnemonic in lower case. -/
def read (s : List Char) : Mnemonic :=
  let name := String.ofList s
  if name = "mov" ∨ name = "movz" then .move
  else if name = "add" ∨ name = "adds" then .add false
  else if name = "sub" ∨ name = "subs" then .add true
  else if name = "adrp" then .page
  else if name ∈ branches then .branch
  else
    match s with
    | 'l' :: 'd' :: _ => .access false
    | 's' :: 't' :: _ => .access true
    | 'b' :: '.' :: _ => .branch
    | _ => .other

end Mnemonic

namespace Operation

/-- The operation of a mnemonic and its operands; a form that is not known is `other`. -/
def read : Mnemonic → List (List Char) → Operation
  | .move, [dst, src] =>
    match Register.read? dst with
    | some dst => .move dst (Operand.read src)
    | none => .other
  | .add subtract, dst :: lhs :: rhs :: rest =>
    match Register.read? dst, Register.read? lhs with
    | some dst, some lhs => .add dst lhs (Operand.readSummand rhs rest.head?) subtract
    | _, _ => .other
  | .page, [dst, src] =>
    match Register.read? dst with
    | some dst => .page dst (Operand.readPage src)
    | none => .other
  | .access store, operands =>
    match MemoryAccess.read? store operands with
    | some found => .access found
    | none => .other
  | .branch, _ => .branch
  | _, _ => .other

end Operation

namespace Instruction

/-- Decodes the text of the instruction at an address. -/
def decode (address : Address) (text : String) : Instruction :=
  let (mnemonic, operands) := (Text.cutAt Text.isBlank text.toList).getD (text.toList, [])
  ⟨address, Operation.read (Mnemonic.read (Text.lower mnemonic)) (Operand.split operands), text⟩

end Instruction

end CacheVerdict
