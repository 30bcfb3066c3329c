import CacheVerdict.Cache.State

/-!
# Lines that persist in a loop

The lines loaded since a loop was entered, each with an upper bound of its age, and the lines that
may have been evicted since.
-/

namespace CacheVerdict

/-- Lines loaded in a loop, and lines that may have been evicted again. -/
@[ext]
structure PersistenceCache where
  lines : AgedLines := {}
  evicted : OrderedSet Line := {}
deriving DecidableEq, Inhabited

namespace PersistenceCache

instance : Abstraction PersistenceCache where
  start _ := {}
  merge a b := ⟨a.lines.unionWith max b.lines, a.evicted.union b.evicted⟩
  touch g line a :=
    ⟨a.lines.touch g false line, a.evicted.insertAll (a.lines.evictedByTouch g false line)⟩
  touchOneOf g candidates a :=
    ⟨a.lines.touchOneOf g false AgedLines.greatest candidates,
      a.evicted.insertAll (a.lines.evictedByOneOf g false candidates)⟩
  touchUnknown g a :=
    ⟨a.lines.reage g AgedLines.shiftedAge,
      a.evicted.insertAll (a.lines.evictedBy g AgedLines.shiftedAge)⟩
  call g c a :=
    if c.effect.unknown then ⟨{}, a.evicted.insertAll a.lines.keys⟩
    else
      ⟨a.lines.reage g (AgedLines.calledAge g c),
        a.evicted.insertAll (a.lines.evictedBy g (AgedLines.calledAge g c))⟩

/-- Whichever of the lines is accessed, once loaded it stays in the cache. -/
def persists : State PersistenceCache → List Line → Bool
  | .unreached, _ => false
  | .reached a, lines => !lines.isEmpty && lines.all fun line => !a.evicted.contains line

end PersistenceCache

end CacheVerdict
