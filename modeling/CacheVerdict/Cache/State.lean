import CacheVerdict.Cache.Candidates
import CacheVerdict.Flow.Domain

/-!
# Cache states

An abstraction of the contents of a cache, with one more state for what no path reaches. The
unreached state is neutral where paths meet, and no access changes it.
-/

namespace CacheVerdict

/-- What a description of cache contents has to offer. -/
class Abstraction (σ : Type) where
  /-- The description at the entry of a region, by whether the cache is empty there. -/
  start : (coldStart : Bool) → σ
  /-- What both descriptions say. -/
  merge : σ → σ → σ
  /-- An access to one line. -/
  touch : Geometry → Line → σ → σ
  /-- An access to one of several lines. -/
  touchOneOf : Geometry → OrderedSet Line → σ → σ
  /-- An access to a line that is not known. -/
  touchUnknown : Geometry → σ → σ
  /-- A call of another procedure. -/
  call : Geometry → Call → σ → σ

/-- A description of the cache, or that no path arrives. -/
inductive State (σ : Type) where
  | unreached
  | reached (cache : σ)
deriving DecidableEq, Inhabited

namespace State

variable {σ : Type}

/-- Changes the description of a state that is reached. -/
def map (f : σ → σ) : State σ → State σ
  | .unreached => .unreached
  | .reached cache => .reached (f cache)

/-- What holds where two paths meet. -/
def join [Abstraction σ] : State σ → State σ → State σ
  | s, .unreached => s
  | .unreached, s => s
  | .reached a, .reached b => .reached (Abstraction.merge a b)

/-- An access to one of several lines looks only at which lines they are, not at how often or in
which order they are named. -/
instance [Abstraction σ] : Domain (State σ) where
  bottom := .unreached
  join := join
  start coldStart := .reached (Abstraction.start coldStart)
  touch g line := map (Abstraction.touch g line)
  touchUnknown g := map (Abstraction.touchUnknown g)
  call g c := map (Abstraction.call g c)
  touchOneOf g lines := map (Abstraction.touchOneOf g (.ofList lines))

end State

end CacheVerdict
