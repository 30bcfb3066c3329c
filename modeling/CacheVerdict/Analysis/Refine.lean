import CacheVerdict.Analysis.Classify
import CacheVerdict.Cache.Persistence

/-!
# Refining verdicts in loops

An access that is not classified but whose lines, once loaded, are never evicted within a loop
misses at most once each time the loop is entered. The outermost such loop is recorded.
-/

namespace CacheVerdict

/-- A loop in which an access persists, with its depth. -/
structure PersistentLoop where
  loop : Nat
  depth : Nat
deriving DecidableEq, Repr

namespace Study

/-- The unclassified accesses of a node that persist, by the states before its events. -/
def persistentAccesses (f : Findings) (key : LevelKey) (summary : Summary)
    (solution : Solution (State PersistenceCache)) (n : Nat) : List AccessKey :=
  ((summary.eventsOf n).zip (solution.beforeEvents summary n)).filterMap fun (event, before) =>
    match event with
    | .call _ => none
    | .access a =>
      let access : AccessKey := ⟨key.procedure, a.site, key.level⟩
      let isOpen := (f.verdicts.get? access).any (·.classification = .notClassified)
      if isOpen && PersistenceCache.persists before a.target.toList then some access else none

/-- Of two loops in which an access persists, the outer one; of two at one depth the first. -/
def outer (old new : PersistentLoop) : PersistentLoop :=
  if new.depth < old.depth then new else old

/-- Looks for accesses that persist in one loop. -/
def refineLoop (s : Study) (fuel : Nat) (f : Findings) (key : LevelKey) (summary : Summary)
    (found : OrderedMap AccessKey PersistentLoop) (l : Nat) :
    Option (OrderedMap AccessKey PersistentLoop) :=
  match (s.procedure key.procedure).loops[l]? with
  | none => some found
  | some loop => do
    let solution ← Solution.solve? fuel summary ⟨loop.body, [loop.header]⟩
    let depth := (s.nest key.procedure).depth l
    let accesses := loop.body.toList.flatMap (persistentAccesses f key summary solution)
    return accesses.foldl (fun found access =>
      found.insertWith outer access ⟨l, depth⟩) found

/-- Looks for accesses that persist in the loops of a procedure at a level. -/
def refineLevel (s : Study) (fuel : Nat) (f : Findings)
    (found : OrderedMap AccessKey PersistentLoop) (entry : LevelKey × Summary) :
    Option (OrderedMap AccessKey PersistentLoop) :=
  let loops := List.range (s.procedure entry.1.procedure).loops.length
  loops.foldlM (s.refineLoop fuel f entry.1 entry.2) found

/-- The loop in which each persistent access persists. -/
def persistent (s : Study) (fuel : Nat) (f : Findings) :
    Option (OrderedMap AccessKey PersistentLoop) :=
  f.summaries.entries.foldlM (s.refineLevel fuel f) {}

/-- Refines the verdicts on persistent accesses. The answer is none only where a fixed point takes
more than `fuel` visits. -/
def refine (s : Study) (fuel : Nat) (f : Findings) : Option Findings :=
  (s.persistent fuel f).map fun found =>
    { f with
      verdicts := f.verdicts.filterMap fun key v =>
        match found.get? key with
        | some persistent =>
          some { v with classification := .firstMiss, loop := some persistent.loop }
        | none => some v }

end Study

end CacheVerdict
