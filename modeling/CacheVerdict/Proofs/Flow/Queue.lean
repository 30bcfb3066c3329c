import Mathlib.Data.List.Nodup
import CacheVerdict.Cache.Persistence
import CacheVerdict.Proofs.Cache.Lru
import CacheVerdict.Proofs.Flow.Equations

/-!
# Iterations over any domain

Nothing is asked of the domain here: its joins need not commute, and its events need not be
monotone, so the iteration may never end. All the same the queue never holds a node twice and holds
nodes of the region only (`Iteration.tidy_after`). If it empties, the state at the entry of a node is
joined, in this order, from nothing, from the starting state at an entry of the region and from the
states behind the predecessors that lie in it (`Iteration.meet_eq_foldl`).
-/

namespace CacheVerdict

/-- Queueing a node leaves each node there once. -/
lemma nodup_enqueue {queue : List Nat} (h : queue.Nodup) (n : Nat) : (enqueue queue n).Nodup := by
  unfold enqueue
  split
  · exact h
  · rename_i hn
    rw [← List.concat_eq_append]
    exact h.concat hn

/-- Queueing several nodes leaves each node there once. -/
lemma nodup_enqueueAll {queue : List Nat} (h : queue.Nodup) (nodes : List Nat) :
    (enqueueAll queue nodes).Nodup := by
  induction nodes generalizing queue with
  | nil => exact h
  | cons n nodes ih => exact ih (nodup_enqueue h n)

section

variable {S : Type} [Domain S] {s : Summary} {r : Region}

namespace Iteration

/-! ### The queue -/

/-- No node waits twice, and only nodes of the region wait. -/
structure Tidy (r : Region) (it : Iteration S) : Prop where
  nodup : it.queue.Nodup
  within : ∀ n ∈ it.queue, n ∈ r.nodes

/-- The first iteration is tidy. -/
lemma tidy_start : (start r : Iteration S).Tidy r where
  nodup := r.nodes.nodup_toList
  within _ hn := hn

/-- A visited node may come to wait again, but only if it does not wait already. -/
lemma Tidy.step [DecidableEq S] {it : Iteration S} (h : it.Tidy r) :
    (Iteration.step s r it).Tidy r := by
  cases hq : it.queue with
  | nil =>
    rw [step_of_nil hq]
    exact h
  | cons n rest =>
    obtain ⟨hnodup, hwithin⟩ := h
    rw [hq] at hnodup hwithin
    have hrest : rest.Nodup := (List.nodup_cons.1 hnodup).2
    have hnodes : ∀ m ∈ rest, m ∈ r.nodes := (List.forall_mem_cons.1 hwithin).2
    rw [step_of_cons hq]
    by_cases hout : it.outs.get? n =
        some (Domain.transferAll s.geometry (meet s r it.outs n) (s.eventsOf n))
    · rw [visit_of_eq hout]
      exact ⟨hrest, hnodes⟩
    · rw [visit_of_ne hout]
      exact ⟨nodup_enqueueAll hrest _, mem_nodes_of_mem_enqueueAll hnodes⟩

/-- All iterations of a run are tidy. -/
lemma tidy_after [DecidableEq S] (k : Nat) : (after s r k : Iteration S).Tidy r := by
  induction k with
  | zero => exact tidy_start
  | succ k ih =>
    rw [after_succ]
    exact ih.step

/-! ### The states that meet -/

/-- The states that a node receives: the starting state at an entry of the region, and the states
behind the predecessors that lie in it, in the order of the edges. -/
def received (s : Summary) (r : Region) (outs : OrderedMap Nat S) (n : Nat) : List S :=
  (if n ∈ r.entries then [Domain.start s.coldStart] else []) ++
    ((s.predecessorsOf n).filter r.nodes.contains).filterMap outs.get?

/-- Where only nodes of the region have states, joining the states that are there joins those of the
region. -/
lemma foldl_elim_eq {outs : OrderedMap Nat S} (within : ∀ p, (outs.get? p).isSome → p ∈ r.nodes)
    (ps : List Nat) (joined : S) :
    ps.foldl (fun joined p => (outs.get? p).elim joined (Domain.join joined)) joined =
      ((ps.filter r.nodes.contains).filterMap outs.get?).foldl Domain.join joined := by
  induction ps generalizing joined with
  | nil => rfl
  | cons p ps ih =>
    rw [List.foldl_cons, ih]
    cases hp : outs.get? p with
    | none =>
      rw [Option.elim_none, List.filter_cons]
      split
      · rw [List.filterMap_cons_none hp]
      · rfl
    | some state =>
      have hmem : r.nodes.contains p = true := decide_eq_true (within p (by rw [hp]; rfl))
      rw [Option.elim_some, List.filter_cons_of_pos hmem, List.filterMap_cons_some hp,
        List.foldl_cons]

/-- The meet joins what a node receives, one state after the other. -/
lemma meet_eq_foldl {outs : OrderedMap Nat S} (within : ∀ p, (outs.get? p).isSome → p ∈ r.nodes)
    (n : Nat) : meet s r outs n = (received s r outs n).foldl Domain.join Domain.bottom := by
  unfold meet received
  rw [List.foldl_append, ← foldl_elim_eq within]
  split <;> rfl

end Iteration

/-- Whatever the domain, if the iteration over a region ends, its states satisfy the flow equations
of all nodes. At no time does a node wait twice or one that is not in the region. -/
theorem Solution.satisfies_equations [DecidableEq S] (s : Summary) (r : Region)
    (linked : s.Linked r) :
    (∀ (fuel : Nat) (solution : Solution S), Solution.solve? fuel s r = some solution →
      ∀ n ∈ r.nodes, ∃ input : S,
        input = (Iteration.received s r solution.outs n).foldl Domain.join Domain.bottom ∧
        solution.ins.get? n = some input ∧
        solution.outs.get? n = some (Domain.transferAll s.geometry input (s.eventsOf n))) ∧
    ∀ k : Nat, (Iteration.after s r k : Iteration S).queue.Nodup ∧
      ∀ n ∈ (Iteration.after s r k : Iteration S).queue, n ∈ r.nodes := by
  constructor
  · intro fuel solution solved n hn
    have settled := Solution.settled_of_solve? linked solved
    refine ⟨Iteration.meet s r solution.outs n, ?_, settled.ins n hn, settled.outs n hn⟩
    exact Iteration.meet_eq_foldl settled.within n
  · intro k
    have tidy : (Iteration.after s r k : Iteration S).Tidy r := Iteration.tidy_after k
    exact ⟨tidy.nodup, tidy.within⟩

end

/-- A loop with two edges from node 0 to node 1, an edge from node 1 to itself, and a way out to
node 2. -/
def Summary.doubledLoop : Summary where
  geometry := .oneWay
  predecessors := [[1], [0, 0, 1], [1]]
  successors := [[1, 1], [0, 1, 2], []]
  entries := [0]
  events := [[.access ⟨⟨0, 0, .data⟩, .lines [0], .always, none⟩],
    [.access ⟨⟨1, 4, .data⟩, .lines [1], .uncertain, none⟩], []]
  coldStart := false

/-- The lines that persist in the loop: at node 1 the three edges are joined in order. -/
theorem Solution.satisfies_equations_doubledLoop :
    Summary.doubledLoop.Linked ⟨.below 2, [0]⟩ ∧
      ∃ solution : Solution (State PersistenceCache),
        Solution.solve? 10 .doubledLoop ⟨.below 2, [0]⟩ = some solution ∧
        ∃ out₀ out₁, solution.outs.get? 0 = some out₀ ∧ solution.outs.get? 1 = some out₁ ∧
          solution.ins.get? 1 = some
            (Domain.join (Domain.join (Domain.join Domain.bottom out₀) out₀) out₁) := by
  have linked : Summary.doubledLoop.Linked ⟨.below 2, [0]⟩ := by
    unfold Summary.Linked
    decide
  have hends : (Solution.solve? 10 .doubledLoop ⟨.below 2, [0]⟩ :
      Option (Solution (State PersistenceCache))).isSome = true := by
    decide +kernel
  obtain ⟨solution, solved⟩ := Option.isSome_iff_exists.1 hends
  obtain ⟨equations, _⟩ := satisfies_equations (S := State PersistenceCache) _ _ linked
  obtain ⟨_, _, _, hout₀⟩ := equations 10 solution solved 0 (by decide)
  obtain ⟨input, hinput, hin₁, hout₁⟩ := equations 10 solution solved 1 (by decide)
  have hreceived : Iteration.received .doubledLoop ⟨.below 2, [0]⟩ solution.outs 1 =
      [0, 0, 1].filterMap solution.outs.get? := rfl
  rw [hreceived, List.filterMap_cons_some hout₀, List.filterMap_cons_some hout₀,
    List.filterMap_cons_some hout₁] at hinput
  exact ⟨linked, solution, solved, _, _, hout₀, hout₁, hin₁.trans (congrArg some hinput)⟩

end CacheVerdict
