import CacheVerdict.Flow.Effect
import CacheVerdict.Ordered.Map

/-!
# Lines with ages

Cache lines with their ages under least-recently-used replacement. An age is below the number of
ways; a line whose age would reach it is evicted.
-/

namespace CacheVerdict

open Std (TransOrd LawfulEqOrd TransCmp LawfulEqCmp)

/-- Where a line stands before it is touched: its set, and its age if it is cached. -/
structure Standing where
  set : UInt64
  age : Option Nat
deriving DecidableEq, Repr

namespace Standing

/-- Whether touching the line ages another one of the given set and age: a line of the same set
that is younger (with `ties`, that is not older), or any line of the set if the touched one is not
cached. -/
def ages (ties : Bool) (s : Standing) (set : UInt64) (age : Nat) : Bool :=
  s.set = set &&
    match s.age with
    | none => true
    | some own => if ties then age ≤ own else age < own

end Standing

/-- Lines, each with its age. The lines of all sets stand in one map. -/
abbrev AgedLines := OrderedMap Line Nat

namespace AgedLines

/-- Gives every line the age `age line old`, and drops those that are no longer in the cache. -/
def reage (g : Geometry) (age : Line → Nat → Nat) (a : AgedLines) : AgedLines :=
  a.filterMap fun line old => if age line old < g.ways.toNat then some (age line old) else none

/-- The lines that new ages evict. -/
def evictedBy (g : Geometry) (age : Line → Nat → Nat) (a : AgedLines) : List Line :=
  (a.entries.filter fun e => g.ways.toNat ≤ age e.1 e.2).map Prod.fst

/-- Where a line stands before it is touched. -/
def standing (g : Geometry) (a : AgedLines) (line : Line) : Standing :=
  ⟨g.setOf line, a.get? line⟩

/-- The ages once `line` is touched, which stood at `standing`. -/
def touchedAge (g : Geometry) (ties : Bool) (line : Line) (standing : Standing) (other : Line)
    (age : Nat) : Nat :=
  if other ≠ line ∧ standing.ages ties (g.setOf other) age then age + 1 else age

/-- Makes `line` the youngest of its set. -/
def touch (g : Geometry) (ties : Bool) (line : Line) (a : AgedLines) : AgedLines :=
  (a.reage g (touchedAge g ties line (a.standing g line))).insert line 0

/-- The lines that touching `line` evicts. -/
def evictedByTouch (g : Geometry) (ties : Bool) (line : Line) (a : AgedLines) : List Line :=
  a.evictedBy g (touchedAge g ties line (a.standing g line))

/-- The ages after an access to a line that is not known. -/
def shiftedAge (_ : Line) (age : Nat) : Nat :=
  age + 1

/-- The ages after a call: a line ages by the other lines that the call touches in its set. -/
def calledAge (g : Geometry) (c : Call) (line : Line) (age : Nat) : Nat :=
  age + c.conflicts g (g.setOf line) line

end AgedLines

end CacheVerdict
