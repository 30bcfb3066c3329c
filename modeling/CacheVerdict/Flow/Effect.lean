import CacheVerdict.Hierarchy.Geometry
import CacheVerdict.Ordered.Set
import CacheVerdict.StackHeight.Basic

/-!
# Effects of calls

What a procedure may touch in one cache. Bytes of stack frames are kept apart from other lines and
relative to the stack pointer on entry, because where a frame lies depends on the caller.
-/

namespace CacheVerdict

/-- What a procedure and those it calls may touch. -/
structure Effect where
  /-- Lines outside stack frames. -/
  lines : OrderedSet Line := {}
  /-- Bytes of stack frames, counted from the stack pointer on entry. -/
  frame : OrderedSet Int64 := {}
  /-- Any line may be touched. -/
  unknown : Bool := false
deriving DecidableEq

namespace Effect

/-- Everything that either effect touches. -/
def union (e f : Effect) : Effect :=
  ⟨e.lines.union f.lines, e.frame.union f.frame, e.unknown || f.unknown⟩

/-- The effect of a call from a procedure whose stack has height `h`, counted from the caller's
entry. Where the height is not known, the place of the frame is not known either. -/
def calledAt (e : Effect) (h : StackHeight) : Effect :=
  match h.known? with
  | some distance => { e with frame := e.frame.map (· + distance) }
  | none => if e.frame.isEmpty then e else { e with frame := {}, unknown := true }

end Effect

/-- A call as one cache sees it. -/
structure Call where
  /-- What is touched, counted from the caller's entry. -/
  effect : Effect
  /-- All lines that may be touched, those of frames among them. -/
  lines : OrderedSet Line
deriving DecidableEq

namespace Call

/-- The call of an effect, when the stack pointer is `stackBase` on entry to the caller. -/
def ofEffect (g : Geometry) (stackBase : Address) (e : Effect) : Call :=
  ⟨e, e.lines.union (e.frame.map fun offset => g.lineOf (stackBase + offset.toUInt64))⟩

/-- How many lines other than `except` the call touches in a set, in a 32-bit counter. -/
def conflicts (c : Call) (g : Geometry) (set : UInt64) (except : Line) : Nat :=
  (c.lines.filter fun line => line ≠ except && g.setOf line = set).size % UInt32.size

end Call

end CacheVerdict
