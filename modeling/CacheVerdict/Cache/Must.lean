import CacheVerdict.Cache.State

/-!
# Lines that must be cached

The lines that are cached on every path, each with an upper bound of its age. Where paths meet, the
common lines stay, at the older age.
-/

namespace CacheVerdict

/-- Lines that are certainly cached, at most at the given ages. -/
@[ext]
structure MustCache where
  lines : AgedLines := {}
deriving DecidableEq, Inhabited

namespace MustCache

instance : Abstraction MustCache where
  start _ := {}
  merge a b := ⟨a.lines.interWith max b.lines⟩
  touch g line a := ⟨a.lines.touch g false line⟩
  touchOneOf g candidates a := ⟨a.lines.touchOneOf g false AgedLines.greatestOfAll candidates⟩
  touchUnknown g a := ⟨a.lines.reage g AgedLines.shiftedAge⟩
  call g c a := if c.effect.unknown then {} else ⟨a.lines.reage g (AgedLines.calledAge g c)⟩

/-- Whichever of the lines is accessed, it is cached. -/
def hits : State MustCache → List Line → Bool
  | .unreached, _ => false
  | .reached a, lines => !lines.isEmpty && lines.all a.lines.contains

end MustCache

end CacheVerdict
