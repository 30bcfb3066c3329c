import CacheVerdict.Cache.State

/-!
# Lines that may be cached

The lines that are cached on some path, each with a lower bound of its age. Where paths meet, all
lines stay, at the younger age. A saturated description says nothing of the lines that it does not
hold.
-/

namespace CacheVerdict

/-- Lines that are possibly cached, at least at the given ages. -/
@[ext]
structure MayCache where
  lines : AgedLines := {}
  /-- Other lines may be cached as well. -/
  saturated : Bool := false
deriving DecidableEq, Inhabited

namespace MayCache

instance : Abstraction MayCache where
  start coldStart := ⟨{}, !coldStart⟩
  merge a b := ⟨a.lines.unionWith min b.lines, a.saturated || b.saturated⟩
  touch g line a := { a with lines := a.lines.touch g true line }
  touchOneOf g candidates a :=
    { a with lines := a.lines.touchOneOf g true AgedLines.least candidates }
  touchUnknown _ a := { a with saturated := true }
  call _ c a :=
    ⟨a.lines.unionWith (fun _ youngest => youngest) (.ofSet c.lines 0),
      a.saturated || c.effect.unknown⟩

/-- Whichever of the lines is accessed, it is not cached. -/
def misses : State MayCache → List Line → Bool
  | .unreached, _ => false
  | .reached a, lines =>
    !a.saturated && !lines.isEmpty && lines.all fun line => !a.lines.contains line

end MayCache

end CacheVerdict
