import CacheVerdict.Program.Basic
import CacheVerdict.Reference
import CacheVerdict.Resolution.Search

/-!
# Resolved addresses

What the search for an address comes to: a byte of the stack frame, a byte or all lines of a data
segment, or nothing that is known.
-/

namespace CacheVerdict

/-- What is concluded about the address of an access. -/
inductive Outcome where
  /-- The address itself. -/
  | exact (address : Address)
  /-- The lower bound of the segment that holds the address. -/
  | segment (name : String) (address : Address)
  /-- Any line of the segment that holds the address. -/
  | range (name : String) (lines : Nat)
  /-- A byte of the frame, `offset` bytes from the stack pointer on entry. -/
  | stack (address : Address) (offset : Int64)
  | unresolved (fault : ResolveFault)
deriving DecidableEq, Repr

/-- The conclusion about an access and the blocks that it touches. -/
structure Resolution where
  outcome : Outcome
  blocks : List Block
deriving DecidableEq

namespace Resolution

/-- Nothing is known of the address. -/
def unknown (i : Instruction) (fault : ResolveFault) : Resolution :=
  ⟨.unresolved fault, [.unknown i.address]⟩

/-- An address in the frame. The stack pointer may have entered it once, at a known height. -/
def ofFrame (s : Settings) (i : Instruction) (t : Tracker) : Resolution :=
  if 1 < t.stackUses then unknown i (.nonLinear i.text)
  else
    match t.stackHeight.known? with
    | none => unknown i .noStackHeight
    | some h =>
      let offset := h + t.offset
      let address := s.stackBase + offset.toUInt64
      ⟨.stack address offset, [⟨i.address, address⟩]⟩

/-- The bytes at which the lines of a segment start when counted from its lower bound. -/
def lineStarts (lineSize : Nat) (segment : Segment) : List Address :=
  let count := (segment.upper.toNat - segment.lower.toNat + lineSize - 1) / lineSize
  (List.range count).map fun k => segment.lower + UInt64.ofNat (k * lineSize)

/-- An address in a segment. -/
def ofSegment (s : Settings) (lineSize : Nat) (i : Instruction) (isRange : Bool) (a : Address)
    (segment : Segment) : Resolution :=
  if isRange then
    let blocks := (lineStarts lineSize segment).map fun a => ⟨i.address, a⟩
    ⟨.range segment.name blocks.length, blocks⟩
  else if s.exactAddresses then ⟨.exact a, [⟨i.address, a⟩]⟩
  else ⟨.segment segment.name segment.lower, [⟨i.address, segment.lower⟩]⟩

/-- The segment of an address, which may be none of the 64-bit addresses. -/
def segmentAt? (segments : Segments) (address : Int) : Option (Address × Segment) :=
  if 0 ≤ address ∧ address < UInt64.size then
    let a := UInt64.ofNat address.toNat
    (segments.find? a).map fun segment => (a, segment)
  else none

/-- The address that a tracker stands for once the registers still pending count as zero. -/
def ofTracker (s : Settings) (segments : Segments) (lineSize : Nat) (i : Instruction)
    (t : Tracker) : Resolution :=
  if t.isStackRelative then ofFrame s i t
  else
    let address : Int := (t.base.getD 0).toNat + t.offset.toInt
    match segmentAt? segments address with
    | some (a, segment) => ofSegment s lineSize i t.isRange a segment
    | none => unknown i (.outsideSegments address)

/-- The conclusion of a search. -/
def ofSearch (s : Settings) (segments : Segments) (lineSize : Nat) (i : Instruction) :
    Except ResolveFault Tracker → Resolution
  | .ok t => ofTracker s segments lineSize i t
  | .error fault => unknown i fault

/-- Resolves the address of an instruction of a node. -/
def resolve (s : Settings) (segments : Segments) (lineSize : Nat) (m : SearchMap) (n : Nat)
    (i : Instruction) : Resolution :=
  ofSearch s segments lineSize i (Tracker.backtrack s m n i)

end Resolution

end CacheVerdict
