import CacheVerdict.Flow.Event

/-!
# Domains of cache states

What a forward analysis needs to know about its states, and how the events of a node act on them.
-/

namespace CacheVerdict

/-- States of an analysis, with the effect of single accesses and calls. -/
class Domain (S : Type) where
  /-- No path arrives here. -/
  bottom : S
  /-- What holds where paths meet. -/
  join : S → S → S
  /-- What holds at the entries of a region, by whether the cache is empty there. -/
  start : (coldStart : Bool) → S
  /-- An access to one line. -/
  touch : Geometry → Line → S → S
  /-- An access to a line that is not known. -/
  touchUnknown : Geometry → S → S
  /-- A call of another procedure. -/
  call : Geometry → Call → S → S
  /-- An access to one of several lines joins the accesses to each of them. -/
  touchOneOf : Geometry → List Line → S → S := fun g lines s =>
    lines.foldl (fun joined line => join joined (touch g line s)) bottom

namespace Domain

variable {S : Type} [Domain S]

/-- An access to a target. -/
def access (g : Geometry) (target : Target) (s : S) : S :=
  match target with
  | .unknown => touchUnknown g s
  | .lines [] => s
  | .lines [line] => touch g line s
  | .lines lines => touchOneOf g lines s

/-- The effect of one event. An access that may not reach the cache joins both cases. -/
def transfer (g : Geometry) (s : S) : Event → S
  | .access a =>
    match a.reach with
    | .always => access g a.target s
    | .uncertain => join s (access g a.target s)
    | .never => s
  | .call c => call g c s

/-- The effect of the events of a node. -/
def transferAll (g : Geometry) (s : S) (events : List Event) : S :=
  events.foldl (transfer g) s

/-- The state just before each event of a node. -/
def beforeEach (g : Geometry) : S → List Event → List S
  | _, [] => []
  | s, e :: rest => s :: beforeEach g (transfer g s e) rest

end Domain

end CacheVerdict
