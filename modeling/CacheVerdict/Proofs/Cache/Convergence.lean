import CacheVerdict.Proofs.Cache.Rank
import CacheVerdict.Proofs.Flow.Least

/-!
# Convergence of what must and what may be cached

The orders of both kinds of description in terms of lines and ages, and what follows for the
analyses: on every region they converge to the least solution of the flow equations, in whatever
order the nodes are visited, and on the way a node only ever loses lines that must be cached and
only ever gains lines that may be.
-/

namespace CacheVerdict

/-- No line is older in `a` than in `b`, which holds no line that `a` does not hold. -/
lemma AgedLines.forall_ageOf_le_iff {a b : AgedLines} :
    (∀ line, a.ageOf line ≤ b.ageOf line) ↔
      ∀ line age, b.get? line = some age → ∃ old ≤ age, a.get? line = some old := by
  constructor
  · intro h line age hage
    have hle := h line
    rw [ageOf_of_get? hage] at hle
    cases hold : a.get? line with
    | none =>
      rw [ageOf_eq_top hold] at hle
      exact absurd hle (ENat.natCast_lt_top age).not_ge
    | some old =>
      rw [ageOf_of_get? hold] at hle
      exact ⟨old, Nat.cast_le.1 hle, rfl⟩
  · intro h line
    cases hage : b.get? line with
    | none =>
      rw [ageOf_eq_top hage]
      exact le_top
    | some age =>
      obtain ⟨old, hle, hold⟩ := h line age hage
      rw [ageOf_of_get? hold, ageOf_of_get? hage]
      exact Nat.cast_le.2 hle

/-- What says less of the lines that must be cached holds fewer of them, at older ages. -/
lemma MustCache.le_iff {a b : MustCache} :
    a ≤ b ↔ ∀ line age, b.lines.get? line = some age → ∃ old ≤ age, a.lines.get? line = some old :=
  AgedLines.forall_ageOf_le_iff

/-- What says less of the lines that may be cached holds more of them, at younger ages, or is
saturated. -/
lemma MayCache.le_iff {a b : MayCache} :
    a ≤ b ↔ (∀ line age, a.lines.get? line = some age →
      ∃ new ≤ age, b.lines.get? line = some new) ∧ (a.saturated → b.saturated) := by
  rw [MayCache.le_def, AgedLines.forall_ageOf_le_iff, Bool.le_iff_imp]

/-- A state that was reached stays so, and comes to say less. -/
lemma Raises.reached {σ : Type} [Abstraction σ] [OrderedAbstraction σ] [LawfulAbstraction σ]
    {outs outs' : OrderedMap Nat (State σ)} (h : Raises outs outs') {n : Nat} {old : σ}
    (hold : outs.get? n = some (.reached old)) :
    ∃ new, outs'.get? n = some (.reached new) ∧ old ≤ new := by
  obtain ⟨state, hstate, hle⟩ := h n _ hold
  cases state with
  | unreached => exact absurd hle State.not_reached_le_unreached
  | reached new => exact ⟨new, hstate, State.reached_le.1 hle⟩

/-- On every region the analyses of what must and of what may be cached converge to their least
solutions in any order of visits. From visit to visit a node loses lines that must be cached or sees
them age, and gains lines that may be cached, sees them get younger or becomes saturated. -/
theorem analyses_converge (s : Summary) (r : Region) (transposed : s.Transposed)
    (within : ∀ n ∈ r.nodes, n < s.events.length) :
    (∃ must : Solution (State MustCache), must.Converges s r) ∧
    (∃ may : Solution (State MayCache), may.Converges s r) ∧
    (∀ (n j k : Nat) (old : MustCache), j ≤ k →
      (Iteration.after s r j).outs.get? n = some (State.reached old) →
      ∃ new : MustCache, (Iteration.after s r k).outs.get? n = some (State.reached new) ∧
        ∀ line age, new.lines.get? line = some age →
          ∃ before ≤ age, old.lines.get? line = some before) ∧
    (∀ (n j k : Nat) (old : MayCache), j ≤ k →
      (Iteration.after s r j).outs.get? n = some (State.reached old) →
      ∃ new : MayCache, (Iteration.after s r k).outs.get? n = some (State.reached new) ∧
        (∀ line age, old.lines.get? line = some age →
          ∃ after ≤ age, new.lines.get? line = some after) ∧
        (old.saturated → new.saturated)) := by
  have linked := transposed.linked within
  refine ⟨(MustCache.ranking s).toRanking.exists_converges linked,
    (MayCache.ranking s).toRanking.exists_converges linked, ?_, ?_⟩
  · intro n j k old hjk hold
    obtain ⟨new, hnew, hle⟩ := ((MustCache.ranking s).toRanking.raises_after hjk).reached hold
    exact ⟨new, hnew, MustCache.le_iff.1 hle⟩
  · intro n j k old hjk hold
    obtain ⟨new, hnew, hle⟩ := ((MayCache.ranking s).toRanking.raises_after hjk).reached hold
    exact ⟨new, hnew, MayCache.le_iff.1 hle⟩

/-- A loop whose body loads line 0 or accesses a line that is not known, in a set of two ways. -/
def Summary.branchingLoop : Summary where
  geometry := .twoWays
  predecessors := [[1, 2], [0], [0]]
  successors := [[1, 2], [0], [0]]
  entries := [0]
  events := [[.access ⟨⟨0, 0, .data⟩, .lines [2], .always, none⟩],
    [.access ⟨⟨1, 4, .data⟩, .lines [0], .always, none⟩],
    [.access ⟨⟨2, 8, .data⟩, .unknown, .always, none⟩]]
  coldStart := true

/-- Whether the queue or taking turns picks the nodes, line 2 ends up cached behind both branches,
and any line may be. -/
theorem analyses_converge_branchingLoop :
    Summary.branchingLoop.Transposed ∧
      (∀ n ∈ (Region.whole .branchingLoop).nodes, n < Summary.branchingLoop.events.length) ∧
      (∃ k, ∀ j ≥ k, (Solution.visited .branchingLoop (.whole .branchingLoop)
        (Region.whole .branchingLoop).roundRobin j).outs.get? 2 =
          some (State.reached (⟨.ofList [(2, 1)]⟩ : MustCache))) ∧
      ∃ k, ∀ j ≥ k, (Solution.visited .branchingLoop (.whole .branchingLoop)
        (Region.whole .branchingLoop).roundRobin j).outs.get? 2 =
          some (State.reached (⟨.ofList [(0, 1), (2, 0)], true⟩ : MayCache)) := by
  have transposed : Summary.branchingLoop.Transposed := by
    unfold Summary.Transposed
    decide
  have within : ∀ n ∈ (Region.whole .branchingLoop).nodes, n < Summary.branchingLoop.events.length :=
    fun _ => OrderedSet.mem_below.1
  have nonempty : (Region.whole .branchingLoop).nodes.toList ≠ [] := by decide
  obtain ⟨⟨must, hmust⟩, ⟨may, hmay⟩, _⟩ :=
    analyses_converge .branchingLoop (.whole .branchingLoop) transposed within
  have mustOut : (Solution.solve? 20 .branchingLoop (.whole .branchingLoop)).map
      (fun solution : Solution (State MustCache) => solution.outs.get? 2) =
        some (some (.reached ⟨.ofList [(2, 1)]⟩)) := by
    decide +kernel
  have mayOut : (Solution.solve? 20 .branchingLoop (.whole .branchingLoop)).map
      (fun solution : Solution (State MayCache) => solution.outs.get? 2) =
        some (some (.reached ⟨.ofList [(0, 1), (2, 0)], true⟩)) := by
    decide +kernel
  exact ⟨transposed, within,
    hmust.exists_get?_visited (Region.fair_roundRobin nonempty) mustOut,
    hmay.exists_get?_visited (Region.fair_roundRobin nonempty) mayOut⟩

end CacheVerdict
