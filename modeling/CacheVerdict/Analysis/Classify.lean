import CacheVerdict.Analysis.Study

/-!
# Classifying accesses

Procedures are taken callees first, so that the footprint of a callee is known where it is called;
within a procedure, levels are taken nearest first, because whether an access reaches a level
depends on the verdict at the level before.
-/

namespace CacheVerdict

namespace Study

/-- The verdicts on the accesses of a node, from the states before its events. -/
def nodeVerdicts (s : Study) (p : Nat) (level : Level) (summary : Summary)
    (must : Solution (State MustCache)) (may : Solution (State MayCache)) (n : Nat) :
    List (AccessKey × Verdict) :=
  let loop := (s.nest p).innermost? n
  let states := (must.beforeEvents summary n).zip (may.beforeEvents summary n)
  ((summary.eventsOf n).zip states).filterMap fun (event, before) =>
    match event with
    | .access a => some (⟨p, a.site, level⟩, ⟨a.reach, a.classify before.1 before.2, loop⟩)
    | .call _ => none

/-- Adds verdicts; a later verdict on the same access takes the place of an earlier one. -/
def addVerdicts (verdicts : OrderedMap AccessKey Verdict) (found : List (AccessKey × Verdict)) :
    OrderedMap AccessKey Verdict :=
  found.foldl (fun verdicts e => verdicts.insert e.1 e.2) verdicts

/-- Analyses a procedure at a level. -/
def classifyLevel (s : Study) (fuel : Nat) (p : Nat) (coldStart : Bool) (f : Findings)
    (cache : Level × Geometry) : Option Findings := do
  let (level, g) := cache
  let summary := s.summary f p level g coldStart
  let must ← Solution.solve? fuel summary (.whole summary)
  let may ← Solution.solve? fuel summary (.whole summary)
  let found := (s.procedure p).nodeIds.flatMap (s.nodeVerdicts p level summary must may)
  return {
    summaries := f.summaries.insert ⟨p, level⟩ summary
    footprints := f.footprints.insert ⟨p, level⟩ summary.footprint
    verdicts := addVerdicts f.verdicts found }

/-- Analyses a procedure at every level, nearest first. -/
def classifyProcedure (s : Study) (fuel : Nat) (f : Findings) (p : Nat) : Option Findings :=
  let coldStart := s.settings.coldRoots && s.roots.contains p
  s.hierarchy.caches.entries.foldlM (s.classifyLevel fuel p coldStart) f

/-- Analyses every procedure, callees first. The answer is none only where a fixed point takes more
than `fuel` visits. -/
def classify (s : Study) (fuel : Nat) : Option Findings :=
  s.callOrder.order.foldlM (s.classifyProcedure fuel) {}

end Study

end CacheVerdict
