import Mathlib.Algebra.Order.BigOperators.Group.List
import Mathlib.Algebra.Order.Group.Nat
import Mathlib.Order.Bounds.Basic
import CacheVerdict.Proofs.Flow.Ascent

/-!
# The least solution

The flow equations of a region, said by the order alone: the state at the entry of a node is the
least upper bound of the states that arrive there, and the state behind it is what its events make
of that. Visits in any order only ever raise the states, and never above a solution; in an order
that forgets no node they come to rest. So every such order ends with the least solution, as the
queue does (`Ranking.exists_converges`).
-/

namespace CacheVerdict

section

variable {S : Type} [Domain S] {s : Summary} {r : Region}

namespace Solution

/-- The state at the entry of a node. -/
def inOf (solution : Solution S) (n : Nat) : S :=
  (solution.ins.get? n).getD Domain.bottom

/-- The state behind a node. -/
def outOf (solution : Solution S) (n : Nat) : S :=
  (solution.outs.get? n).getD Domain.bottom

/-- The state before a node is the one entered. -/
lemma inOf_eq {solution : Solution S} {n : Nat} {state : S} (h : solution.ins.get? n = some state) :
    solution.inOf n = state := by
  rw [inOf, h, Option.getD_some]

/-- The state behind a node is the one entered. -/
lemma outOf_eq {solution : Solution S} {n : Nat} {state : S}
    (h : solution.outs.get? n = some state) : solution.outOf n = state := by
  rw [outOf, h, Option.getD_some]

namespace Covers

variable {solution : Solution S}

/-- The nodes of the region have states before them. -/
lemma get?_ins (h : solution.Covers r) {n : Nat} (hn : n ∈ r.nodes) :
    solution.ins.get? n = some (solution.inOf n) := by
  obtain ⟨state, hstate⟩ := Option.isSome_iff_exists.1 ((h.ins n).2 hn)
  rw [hstate, inOf_eq hstate]

/-- The nodes of the region have states behind them. -/
lemma get?_outs (h : solution.Covers r) {n : Nat} (hn : n ∈ r.nodes) :
    solution.outs.get? n = some (solution.outOf n) := by
  obtain ⟨state, hstate⟩ := Option.isSome_iff_exists.1 ((h.outs n).2 hn)
  rw [hstate, outOf_eq hstate]

omit [Domain S] in
/-- Only nodes of the region have states. -/
lemma mem_nodes (h : solution.Covers r) {n : Nat} {state : S}
    (hstate : solution.outs.get? n = some state) : n ∈ r.nodes :=
  (h.outs n).1 (by rw [hstate]; rfl)

end Covers

end Solution

/-! ### The equations -/

variable [OrderedDomain S]

/-- The states that arrive at a node: the starting state at an entry of the region, and the states
behind its predecessors there. -/
def Region.arriving (r : Region) (s : Summary) (outs : Nat → S) (n : Nat) : Set S :=
  {state | n ∈ r.entries ∧ state = Domain.start s.coldStart ∨
    ∃ p ∈ s.predecessorsOf n, p ∈ r.nodes ∧ outs p = state}

/-- States at the entries of the nodes and behind them that solve the flow equations. -/
structure Region.Solves (r : Region) (s : Summary) (ins outs : Nat → S) : Prop where
  entry : ∀ n ∈ r.nodes, IsLUB (r.arriving s outs n) (ins n)
  behind : ∀ n ∈ r.nodes, outs n = Domain.transferAll s.geometry (ins n) (s.eventsOf n)

/-- The meet of two states is their least upper bound. -/
lemma OrderedDomain.join_le_iff {a b u : S} : Domain.join a b ≤ u ↔ a ≤ u ∧ b ≤ u := by
  constructor
  · intro h
    exact ⟨(le_join_left a b).trans h, (le_join_right a b).trans h⟩
  · rintro ⟨ha, hb⟩
    exact join_le ha hb

/-- The meet lies below whatever all arriving states lie below. -/
lemma Iteration.meet_le_iff {outs : OrderedMap Nat S} {n : Nat} {u : S} :
    meet s r outs n ≤ u ↔ (n ∈ r.entries → Domain.start s.coldStart ≤ u) ∧
      ∀ p ∈ s.predecessorsOf n, ∀ state, outs.get? p = some state → state ≤ u := by
  have hinitial : (if n ∈ r.entries then Domain.join Domain.bottom (Domain.start s.coldStart)
      else Domain.bottom) ≤ u ↔ (n ∈ r.entries → Domain.start s.coldStart ≤ u) := by
    split
    · rename_i hn
      simp [OrderedDomain.join_le_iff, OrderedDomain.bottom_le, hn]
    · rename_i hn
      simp [OrderedDomain.bottom_le, hn]
  rw [← hinitial]
  unfold meet
  simp only
  generalize (if n ∈ r.entries then
    Domain.join Domain.bottom (Domain.start s.coldStart) else (Domain.bottom : S)) = joined
  induction s.predecessorsOf n generalizing joined with
  | nil => simp
  | cons p ps ih =>
    rw [List.foldl_cons, List.forall_mem_cons]
    refine (ih _).trans ?_
    cases hp : outs.get? p with
    | none => simp
    | some state =>
      rw [Option.elim_some, OrderedDomain.join_le_iff]
      simp [and_assoc]

namespace Solution

/-- The solution of the flow equations that lies below every other one. -/
structure Least (s : Summary) (r : Region) (solution : Solution S) : Prop where
  solves : r.Solves s solution.inOf solution.outOf
  le : ∀ {ins outs : Nat → S}, r.Solves s ins outs →
    ∀ n ∈ r.nodes, solution.inOf n ≤ ins n ∧ solution.outOf n ≤ outs n

namespace Covers

variable {solution other : Solution S}

/-- Where every node is settled, the states solve the equations. -/
lemma solves (h : solution.Covers r) (settled : ∀ n ∈ r.nodes, solution.SettledAt s r n) :
    r.Solves s solution.inOf solution.outOf := by
  constructor
  · intro n hn
    rw [inOf_eq (settled n hn).1, isLUB_iff_le_iff]
    intro u
    rw [Iteration.meet_le_iff]
    constructor
    · rintro ⟨hstart, hpred⟩ state (⟨hentry, rfl⟩ | ⟨p, hp, hnode, rfl⟩)
      · exact hstart hentry
      · exact hpred p hp _ (h.get?_outs hnode)
    · intro hu
      constructor
      · intro hentry
        exact hu (.inl ⟨hentry, rfl⟩)
      · intro p hp state hstate
        exact hu (.inr ⟨p, hp, h.mem_nodes hstate, outOf_eq hstate⟩)
  · intro n hn
    rw [inOf_eq (settled n hn).1, outOf_eq (settled n hn).2]

/-- There is only one least solution. -/
lemma eq_of_least (h : solution.Covers r) (h' : other.Covers r) (least : solution.Least s r)
    (least' : other.Least s r) : solution.ins = other.ins ∧ solution.outs = other.outs := by
  have hle := least.le least'.solves
  have hge := least'.le least.solves
  constructor
  · refine OrderedMap.ext_get? fun n => ?_
    by_cases hn : n ∈ r.nodes
    · rw [h.get?_ins hn, h'.get?_ins hn, le_antisymm (hle n hn).1 (hge n hn).1]
    · rw [Option.not_isSome_iff_eq_none.1 (mt (h.ins n).1 hn),
        Option.not_isSome_iff_eq_none.1 (mt (h'.ins n).1 hn)]
  · refine OrderedMap.ext_get? fun n => ?_
    by_cases hn : n ∈ r.nodes
    · rw [h.get?_outs hn, h'.get?_outs hn, le_antisymm (hle n hn).2 (hge n hn).2]
    · rw [Option.not_isSome_iff_eq_none.1 (mt (h.outs n).1 hn),
        Option.not_isSome_iff_eq_none.1 (mt (h'.outs n).1 hn)]

end Covers

/-! ### Visits in any order -/

/-- The states lie below those of a solution. -/
def Below (r : Region) (ins outs : Nat → S) (solution : Solution S) : Prop :=
  ∀ n ∈ r.nodes, solution.inOf n ≤ ins n ∧ solution.outOf n ≤ outs n

/-- The start is below every solution. -/
lemma below_start (ins outs : Nat → S) : (Iteration.start r).Below r ins outs := by
  intro n hn
  have hstart : (Iteration.start r).outs.get? n = some (Domain.bottom : S) :=
    (Iteration.get?_outs_start n).trans (if_pos hn)
  constructor
  · rw [inOf_eq (n := n) hstart]
    exact OrderedDomain.bottom_le _
  · rw [outOf_eq hstart]
    exact OrderedDomain.bottom_le _

variable [DecidableEq S] {solution : Solution S}

/-- A visit does not lift the states above a solution. -/
lemma Below.update {ins outs : Nat → S} (h : solution.Below r ins outs) (covers : solution.Covers r)
    (solves : r.Solves s ins outs) {n : Nat} (hn : n ∈ r.nodes) :
    (solution.update s r n).Below r ins outs := by
  have hmeet : Iteration.meet s r solution.outs n ≤ ins n := by
    have hupper := (solves.entry n hn).1
    refine Iteration.meet_le_iff.2 ⟨fun hentry => hupper (.inl ⟨hentry, rfl⟩), ?_⟩
    intro p hp state hstate
    have hnode := covers.mem_nodes hstate
    calc
      state = solution.outOf p := (outOf_eq hstate).symm
      _ ≤ outs p := (h p hnode).2
      _ ≤ ins n := hupper (.inr ⟨p, hp, hnode, rfl⟩)
  intro m hm
  rw [inOf, outOf, ins_update, outs_update, OrderedMap.get?_insert, OrderedMap.get?_insert]
  split
  · rename_i heq
    subst heq
    rw [solves.behind m hn]
    exact ⟨hmeet, OrderedDomain.transferAll_mono s.geometry (s.eventsOf m) hmeet⟩
  · exact h m hm

/-- The states once the nodes of a schedule are visited in turn, whoever waits. -/
def visited (s : Summary) (r : Region) (schedule : Nat → Nat) : Nat → Solution S
  | 0 => (Iteration.start r).toSolution
  | k + 1 => (visited s r schedule k).update s r (schedule k)

end Solution

/-- A schedule that forgets no node: sooner or later each is visited again or found settled. -/
structure Fair (S : Type) [Domain S] [DecidableEq S] (s : Summary) (r : Region)
    (schedule : Nat → Nat) : Prop where
  within : ∀ k, schedule k ∈ r.nodes
  again : ∀ n ∈ r.nodes, ∀ k, ∃ j ≥ k,
    schedule j = n ∨ (Solution.visited s r schedule j : Solution S).SettledAt s r n

/-- The nodes of a region in turn, over and over. -/
def Region.roundRobin (r : Region) (k : Nat) : Nat :=
  r.nodes.toList[k % r.nodes.size]?.getD 0

variable [DecidableEq S]

omit [OrderedDomain S] in
/-- Taking turns forgets no node. -/
lemma Region.fair_roundRobin (h : r.nodes.toList ≠ []) : Fair S s r r.roundRobin := by
  have hsize : 0 < r.nodes.size := List.length_pos_of_ne_nil h
  constructor
  · intro k
    have hlt : k % r.nodes.size < r.nodes.toList.length := Nat.mod_lt k hsize
    rw [roundRobin, List.getElem?_eq_getElem hlt, Option.getD_some]
    exact List.getElem_mem hlt
  · intro n hn k
    obtain ⟨i, hi, hget⟩ := List.getElem_of_mem (OrderedSet.mem_def.1 hn)
    refine ⟨k * r.nodes.size + i, ?_, .inl ?_⟩
    · exact (Nat.le_mul_of_pos_right k hsize).trans (Nat.le_add_right _ _)
    · have hmod : (k * r.nodes.size + i) % r.nodes.size = i := by
        rw [Nat.mul_add_mod_self_right]
        exact Nat.mod_eq_of_lt hi
      rw [roundRobin, hmod, List.getElem?_eq_getElem hi, Option.getD_some, hget]

namespace Solution

omit [OrderedDomain S]

variable {solution : Solution S} {n m : Nat}

/-- A visit that changes no state behind a node finds its own node settled. -/
lemma settledAt_update (h : (solution.update s r n).outs = solution.outs) :
    (solution.update s r n).SettledAt s r n := by
  have hout : (solution.update s r n).outs.get? n = some
      (Domain.transferAll s.geometry (Iteration.meet s r solution.outs n) (s.eventsOf n)) := by
    rw [outs_update, OrderedMap.get?_insert, if_pos rfl]
  unfold SettledAt
  rw [h] at hout ⊢
  refine ⟨?_, hout⟩
  rw [ins_update, OrderedMap.get?_insert, if_pos rfl]

/-- What is settled stays so as long as no state behind a node changes. -/
lemma SettledAt.update (hn : solution.SettledAt s r n)
    (h : (solution.update s r m).outs = solution.outs) :
    (solution.update s r m).SettledAt s r n := by
  unfold SettledAt
  rw [h, ins_update, OrderedMap.get?_insert]
  split
  · rename_i heq
    exact ⟨heq ▸ rfl, hn.2⟩
  · exact hn

end Solution

namespace Ranking

open Solution (visited)

variable {ρ : Ranking S s} {schedule : Nat → Nat}

/-- A visit changes no state behind a node, or lowers the potential. -/
lemma Rising.outs_update_or {solution : Solution S} (h : ρ.Rising r solution) {n : Nat}
    (hn : n ∈ r.nodes) :
    (solution.update s r n).outs = solution.outs ∨
      r.potential ρ.rank (solution.update s r n).outs < r.potential ρ.rank solution.outs := by
  by_cases hout : solution.outs.get? n =
      some (Domain.transferAll s.geometry (Iteration.meet s r solution.outs n) (s.eventsOf n))
  · refine .inl (OrderedMap.ext_get? fun m => ?_)
    rw [Solution.outs_update, OrderedMap.get?_insert]
    split
    · rename_i heq
      rw [heq, hout]
    · rfl
  · exact .inr (h.potential_update_lt hn hout)

/-- Visits to nodes of the region ascend. -/
lemma rising_visited (ρ : Ranking S s) (within : ∀ k, schedule k ∈ r.nodes) (k : Nat) :
    ρ.Rising r (visited s r schedule k) := by
  induction k with
  | zero => exact ρ.rising_start
  | succ k ih => exact ih.update (within k)

/-- Visits to nodes of the region stay below every solution. -/
lemma below_visited (ρ : Ranking S s) (within : ∀ k, schedule k ∈ r.nodes) {ins outs : Nat → S}
    (solves : r.Solves s ins outs) (k : Nat) : (visited s r schedule k).Below r ins outs := by
  induction k with
  | zero => exact Solution.below_start ins outs
  | succ k ih => exact ih.update (ρ.rising_visited within k).covers solves (within k)

/-- A schedule that forgets no node settles them all. -/
lemma exists_settled (ρ : Ranking S s) (fair : Fair S s r schedule) :
    ∃ k, ∀ j ≥ k, ∀ n ∈ r.nodes, (visited s r schedule j : Solution S).SettledAt s r n := by
  -- the potential cannot fall forever
  obtain ⟨rest, hrest⟩ := exists_rest (f := fun k => (visited s r schedule k : Solution S).outs)
    (r.potential ρ.rank) fun k => (ρ.rising_visited fair.within k).outs_update_or (fair.within k)
  have stays {n i : Nat} (hi : rest ≤ i)
      (settled : (visited s r schedule i : Solution S).SettledAt s r n) :
      ∀ j ≥ i, (visited s r schedule j : Solution S).SettledAt s r n := by
    intro j hj
    induction j, hj using Nat.le_induction with
    | base => exact settled
    | succ j hj ih => exact ih.update (hrest j (hi.trans hj))
  have hnode : ∀ n ∈ r.nodes, ∃ k, ∀ j ≥ k,
      (visited s r schedule j : Solution S).SettledAt s r n := by
    intro n hn
    obtain ⟨i, hi, hvisit | settled⟩ := fair.again n hn rest
    · refine ⟨i + 1, stays (hi.trans (Nat.le_succ i)) ?_⟩
      have hout := hrest i hi
      rw [visited, hvisit] at hout ⊢
      exact Solution.settledAt_update hout
    · exact ⟨i, stays hi settled⟩
  choose! bound hbound using hnode
  refine ⟨(r.nodes.toList.map bound).sum, fun j hj n hn => hbound n hn j (le_trans ?_ hj)⟩
  exact List.single_le_sum (fun _ _ => Nat.zero_le _) _ (List.mem_map_of_mem hn)

/-! ### The queue -/

/-- A visit of the first of the waiting nodes keeps the ascent and raises the states. -/
lemma Ascending.step {it : Iteration S} (h : ρ.Ascending r it) :
    ρ.Ascending r (Iteration.step s r it) ∧ Raises it.outs (Iteration.step s r it).outs := by
  cases hq : it.queue with
  | nil =>
    rw [Iteration.step_of_nil hq]
    exact ⟨h, .refl _⟩
  | cons n rest =>
    have hn : n ∈ r.nodes := h.queue n (by rw [hq]; exact List.mem_cons_self)
    rw [Iteration.step_of_cons hq]
    refine ⟨(h.visit hq).1, ?_⟩
    rw [Iteration.toSolution_visit]
    exact h.rising.raises_update hn

/-- All steps of the run ascend. -/
lemma ascending_after (ρ : Ranking S s) (k : Nat) : ρ.Ascending r (Iteration.after s r k) := by
  induction k with
  | zero => exact ρ.ascending_start
  | succ k ih =>
    rw [Iteration.after_succ]
    exact ih.step.1

/-- From visit to visit the states behind the nodes only rise. -/
lemma raises_after (ρ : Ranking S s) {j k : Nat} (h : j ≤ k) :
    Raises (Iteration.after s r j).outs (Iteration.after s r k : Iteration S).outs := by
  induction k, h using Nat.le_induction with
  | base => exact .refl _
  | succ k _ ih =>
    rw [Iteration.after_succ]
    exact ih.trans (ρ.ascending_after k).step.2

/-- What the queue ends with lies below every solution. -/
lemma below_of_solve? (ρ : Ranking S s) {fuel : Nat} {solution : Solution S}
    (h : Solution.solve? fuel s r = some solution) :
    solution.Covers r ∧ ∀ {ins outs : Nat → S}, r.Solves s ins outs → solution.Below r ins outs := by
  obtain ⟨last, ⟨hlast, hbelow⟩, _, rfl⟩ := Iteration.exists_last_of_run
    (P := fun it => ρ.Ascending r it ∧
      ∀ {ins outs : Nat → S}, r.Solves s ins outs → it.Below r ins outs)
    (fun {it n rest} hq ⟨ascending, below⟩ => by
      refine ⟨(ascending.visit hq).1, fun solves => ?_⟩
      rw [Iteration.toSolution_visit]
      exact (below solves).update ascending.rising.covers solves
        (ascending.queue n (by rw [hq]; exact List.mem_cons_self)))
    ⟨ρ.ascending_start, fun _ => Solution.below_start _ _⟩ h
  exact ⟨hlast.rising.covers, hbelow⟩

end Ranking

/-- The iteration over a region ends with this solution, the least one, and every other order of
visits that forgets no node ends with it as well. -/
structure Solution.Converges (s : Summary) (r : Region) (solution : Solution S) : Prop where
  ends : ∃ bound, ∀ fuel ≥ bound, Solution.solve? fuel s r = some solution
  least : solution.Least s r
  anyOrder : ∀ schedule, Fair S s r schedule → ∃ k, ∀ j ≥ k,
    (visited s r schedule j).ins = solution.ins ∧ (visited s r schedule j).outs = solution.outs

/-- What the queue finds behind a node is what every other order comes to find there. -/
lemma Solution.Converges.exists_get?_visited {solution : Solution S} (h : solution.Converges s r)
    {schedule : Nat → Nat} (fair : Fair S s r schedule) {fuel n : Nat} {state : Option S}
    (found : (Solution.solve? fuel s r).map (fun solution : Solution S => solution.outs.get? n) =
      some state) : ∃ k, ∀ j ≥ k, (visited s r schedule j).outs.get? n = state := by
  obtain ⟨other, hother, hstate⟩ := Option.map_eq_some_iff.1 found
  obtain ⟨bound, solved⟩ := h.ends
  have heq := (Iteration.run_of_le hother (le_max_left fuel bound)).symm.trans
    (solved _ (le_max_right fuel bound))
  cases heq
  obtain ⟨k, hk⟩ := h.anyOrder schedule fair
  exact ⟨k, fun j hj => by rw [(hk j hj).2, hstate]⟩

/-- Where states are ranked, the iteration converges to the least solution in any order. -/
theorem Ranking.exists_converges (ρ : Ranking S s) (linked : s.Linked r) :
    ∃ solution : Solution S, solution.Converges s r := by
  obtain ⟨bound, solution, solved⟩ := Solution.exists_solve? ρ r
  have settled := Solution.settled_of_solve? linked (solved bound le_rfl)
  obtain ⟨covers, below⟩ := ρ.below_of_solve? (solved bound le_rfl)
  have least : solution.Least s r :=
    ⟨covers.solves fun n hn => ⟨settled.ins n hn, settled.outs n hn⟩, below⟩
  refine ⟨solution, ⟨bound, solved⟩, least, fun schedule fair => ?_⟩
  obtain ⟨k, hsettled⟩ := ρ.exists_settled fair
  refine ⟨k, fun j hj => ?_⟩
  have covers' := (ρ.rising_visited fair.within j).covers
  have least' : (Solution.visited s r schedule j).Least s r :=
    ⟨covers'.solves (hsettled j hj), fun solves => ρ.below_visited fair.within solves j⟩
  exact covers'.eq_of_least covers least' least

end

end CacheVerdict
