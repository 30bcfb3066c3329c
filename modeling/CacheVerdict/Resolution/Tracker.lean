import CacheVerdict.Instruction.Basic
import CacheVerdict.Ordered.Set
import CacheVerdict.StackHeight.Basic
import CacheVerdict.Text.Quoted

/-!
# Register trackers

The state of a backward search for the address of an access. An address is a base, an offset and
the registers whose values still enter it; walking backwards over an instruction replaces a register
by what it was computed from. The stack pointer is not replaced but counted.
-/

namespace CacheVerdict

/-- Why the address of an access is not known. -/
inductive ResolveFault where
  | unresolved (registers : List String)
  | budget (nodes : Nat)
  | immediate (text : String)
  | nonLinear (text : String)
  | noStackHeight
  | outsideSegments (address : Int)
deriving DecidableEq, Repr

/-- The wording of a fault. A negative address shows as a 128-bit two's complement. -/
def ResolveFault.message : ResolveFault → String
  | .unresolved registers =>
    "address registers [" ++ ", ".intercalate (registers.map Text.quoted) ++ "] left unresolved"
  | .budget nodes => s!"backtracking budget of {nodes} nodes exhausted"
  | .immediate text => s!"malformed immediate `{text}`"
  | .nonLinear text => s!"address computation `{text}` cannot be tracked"
  | .noStackHeight => "stack pointer height is not known"
  | .outsideSegments address =>
    s!"address {Numeral.hex (address % 0x100000000000000000000000000000000).toNat} lies in no known data segment"

/-- Reads an immediate or reports it. -/
def Immediate.read (text : String) : Except ResolveFault Int64 :=
  match Immediate.value? text with
  | some v => .ok v
  | none => .error (.immediate text)

/-- The address of an access as far as it is known: `base + offset` and the values of the pending
registers and of the stack pointer, as often as it was used. -/
structure Tracker where
  pending : OrderedSet Register := {}
  offset : Int64 := 0
  base : Option Address := none
  /-- The access may touch every line of its segment. -/
  isRange : Bool := false
  stackUses : Nat := 0
  /-- The height of the stack pointer where it entered the address. -/
  stackHeight : StackHeight := .unreached
  /-- The predecessors searched so far. -/
  visited : Nat := 0
deriving DecidableEq

namespace Tracker

/-- Lets the value of a register enter the address. -/
def track (t : Tracker) (r : Register) : Tracker :=
  if r.isStackPointer then { t with stackUses := t.stackUses + 1 }
  else { t with pending := t.pending.insert r }

/-- The tracker of an address that is the sum of registers and an offset. -/
def start (targets : List Register) (offset : Int64) (isRange : Bool) : Tracker :=
  targets.foldl track { offset, isRange }

/-- Whether no register is pending. -/
def isResolved (t : Tracker) : Bool :=
  t.pending.isEmpty

/-- Whether the stack pointer enters the address. -/
def isStackRelative (t : Tracker) : Bool :=
  0 < t.stackUses

/-- Replaces a pending register by the registers it was computed from. -/
def replace (t : Tracker) (r : Register) (sources : List Register) : Tracker :=
  sources.foldl track { t with pending := t.pending.erase r }

/-- Adds to the offset. -/
def shift (t : Tracker) (v : Int64) : Tracker :=
  { t with offset := t.offset + v }

/-- Walks backwards over an instruction. -/
def step (t : Tracker) (i : Instruction) : Except ResolveFault Tracker :=
  match i.operation with
  | .move dst src =>
    if dst ∈ t.pending then
      match src with
      | .immediate text => do return (t.replace dst []).shift (← Immediate.read text)
      | .register r => .ok (t.replace dst [r])
    else .ok t
  | .add dst lhs rhs subtract =>
    if dst ∈ t.pending then
      match rhs with
      | .immediate text => do
        let v ← Immediate.read text
        let v := if subtract then -v else v
        return (if dst = lhs then t else t.replace dst [lhs]).shift v
      | .register r =>
        if subtract then .error (.nonLinear i.text) else .ok (t.replace dst [lhs, r])
    else .ok t
  | .page dst page =>
    if dst ∈ t.pending then do
      let v ← Immediate.read page
      return { t.replace dst [] with base := some v.toUInt64 }
    else .ok t
  | .access access =>
    match access.targets, access.writeback with
    | base :: _, some text =>
      if base ∈ t.pending then do return t.shift (← Immediate.read text) else .ok t
    | _, _ => .ok t
  | .branch => .ok t
  | .other => .ok t

/-- Walks backwards over an instruction, before which the stack has height `h`. Where the stack
pointer enters the address, its height is noted. -/
def stepAt (t : Tracker) (i : Instruction) (h : StackHeight) : Except ResolveFault Tracker :=
  if t.isResolved then .ok t
  else
    (t.step i).map fun t' =>
      if t.stackUses < t'.stackUses then { t' with stackHeight := h } else t'

/-- Walks backwards over those instructions that lie below address `before`. They come last first,
each with the stack height before it. -/
def scan (before : Address) (code : List (Instruction × StackHeight)) (t : Tracker) :
    Except ResolveFault Tracker :=
  code.foldlM (fun t e => if e.1.address < before then t.stepAt e.1 e.2 else .ok t) t

end Tracker

end CacheVerdict
