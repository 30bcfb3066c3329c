import Std.Data.HashMap
import CacheVerdict.Cache.AgedLines

/-!
# Accesses to one of several lines

An access whose target is one of several lines touches one of them, and what holds afterwards is
what all cases have in common. The cases of a single line are few: it is the one touched, another
candidate ages it, or another candidate leaves it alone. Counting the candidates by where they
stand tells which of these occur, so that an access need not be played through once for each
candidate.
-/

namespace CacheVerdict

/-- A line before the access: its age if it is cached, and whether it is a candidate. -/
structure Prior where
  age : Option Nat
  candidate : Bool
deriving DecidableEq, Repr

/-- The number of candidates, and for each set how many of them have which age. -/
structure Census where
  total : Nat := 0
  ages : Std.HashMap UInt64 (OrderedMap (Option Nat) Nat) := {}

namespace Census

/-- Counts a line if it is a candidate. -/
def add (g : Geometry) (c : Census) (line : Line) (prior : Prior) : Census :=
  if prior.candidate then
    let set := g.setOf line
    ⟨c.total + 1, c.ages.insert set ((c.ages.getD set {}).insertWith (· + ·) prior.age 1)⟩
  else c

/-- Counts the candidates. -/
def ofPriors (g : Geometry) (priors : OrderedMap Line Prior) : Census :=
  priors.entries.foldl (fun c e => c.add g e.1 e.2) {}

/-- How many candidates age a line of the given set and age. -/
def agers (ties : Bool) (c : Census) (set : UInt64) (age : Nat) : Nat :=
  (c.ages.getD set {}).entries.foldr (fun e n =>
    if Standing.ages ties ⟨set, e.1⟩ set age then e.2 + n else n) 0

/-- How many candidates other than the line itself age it. -/
def otherAgers (ties : Bool) (c : Census) (set : UInt64) (age : Nat) (candidate : Bool) : Nat :=
  if candidate && Standing.ages ties ⟨set, some age⟩ set age then c.agers ties set age - 1
  else c.agers ties set age

/-- How many candidates there are besides the line itself. -/
def others (c : Census) (candidate : Bool) : Nat :=
  if candidate then c.total - 1 else c.total

end Census

namespace AgedLines

/-- An age, unless the line is then no longer cached. -/
def keep (g : Geometry) (age : Nat) : Option Nat :=
  if age < g.ways.toNat then some age else none

/-- The cached lines and the candidates before the access. -/
def priors (a : AgedLines) (candidates : OrderedSet Line) : OrderedMap Line Prior :=
  (a.mapValues fun age => ⟨some age, false⟩).unionWith
    (fun cached _ => { cached with candidate := true }) (.ofSet candidates ⟨none, true⟩)

/-- What can become of a line: it is touched, another candidate ages it, or another one leaves it
as it is. -/
def outcomes (g : Geometry) (ties : Bool) (c : Census) (line : Line) (prior : Prior) :
    List (Option Nat) :=
  let touched := if prior.candidate then [some 0] else []
  let others := c.others prior.candidate
  match prior.age with
  | none => touched ++ if 0 < others then [none] else []
  | some age =>
    let agers := c.otherAgers ties (g.setOf line) age prior.candidate
    touched ++ (if 0 < agers then [keep g (age + 1)] else []) ++
      if agers < others then [keep g age] else []

/-- Touches one of the candidates; `pick` says what is kept of the cases of a line. -/
def touchOneOf (g : Geometry) (ties : Bool) (pick : List (Option Nat) → Option Nat)
    (candidates : OrderedSet Line) (a : AgedLines) : AgedLines :=
  let priors := a.priors candidates
  let census := Census.ofPriors g priors
  priors.filterMap fun line prior => pick (outcomes g ties census line prior)

/-- The cached lines that touching one of the candidates may evict. -/
def evictedByOneOf (g : Geometry) (ties : Bool) (candidates : OrderedSet Line) (a : AgedLines) :
    List Line :=
  let priors := a.priors candidates
  let census := Census.ofPriors g priors
  priors.entries.filterMap fun (line, prior) =>
    prior.age.bind fun age =>
      let agers := census.otherAgers ties (g.setOf line) age prior.candidate
      if (0 < agers && g.ways.toNat ≤ age + 1) || (agers < census.total && g.ways.toNat ≤ age) then
        some line
      else none

/-- The least age at which some case leaves a line. -/
def least (cases : List (Option Nat)) : Option Nat :=
  cases.foldl (Option.merge min) none

/-- The greatest age at which some case leaves a line. -/
def greatest (cases : List (Option Nat)) : Option Nat :=
  cases.foldl (Option.merge max) none

/-- The greater of two ages, if both are there. -/
def olderOfBoth (a b : Option Nat) : Option Nat :=
  a.bind fun v => b.map (max v)

/-- The greatest age at which a line is left, if every case leaves it. -/
def greatestOfAll : List (Option Nat) → Option Nat
  | [] => none
  | first :: rest => rest.foldl olderOfBoth first

end AgedLines

end CacheVerdict
