import Mathlib.Algebra.Order.BigOperators.Group.List
import Mathlib.Algebra.Order.Group.Nat
import Mathlib.Algebra.GroupWithZero.Nat
import Mathlib.Order.Monotone.Basic
import Mathlib.Order.WellFounded
import CacheVerdict.Proofs.Flow.Equations

/-!
# The iteration ends

In an ordered domain, whose joins are least upper bounds and whose events are monotone, the states
behind the nodes only ever rise: each lies below what its node makes of the others. Where a rank
falls whenever a state rises, the ranks of all nodes together fall at every visit that changes
something, and the queue gets shorter at every other one. So the iteration ends, and more fuel than
it takes changes nothing (`Solution.exists_solve?`).
-/

namespace CacheVerdict

/-- A domain with an order in which a state says less than those below it. -/
class OrderedDomain (S : Type) [Domain S] extends PartialOrder S where
  bottom_le : ∀ s : S, Domain.bottom ≤ s
  le_join_left : ∀ s t : S, s ≤ Domain.join s t
  le_join_right : ∀ s t : S, t ≤ Domain.join s t
  join_le : ∀ {s t u : S}, s ≤ u → t ≤ u → Domain.join s t ≤ u
  touch_mono : ∀ (g : Geometry) (line : Line), Monotone (Domain.touch g line : S → S)
  touchOneOf_mono : ∀ (g : Geometry) {lines : List Line}, lines ≠ [] →
    Monotone (Domain.touchOneOf g lines : S → S)
  touchUnknown_mono : ∀ g : Geometry, Monotone (Domain.touchUnknown g : S → S)
  call_mono : ∀ (g : Geometry) (c : Call), Monotone (Domain.call g c : S → S)

namespace OrderedDomain

variable {S : Type} [Domain S] [OrderedDomain S] {s s' t t' : S}

/-- Meets of states that say less say less. -/
lemma join_mono (hs : s ≤ s') (ht : t ≤ t') : Domain.join s t ≤ Domain.join s' t' := by
  apply join_le
  · exact hs.trans (le_join_left s' t')
  · exact ht.trans (le_join_right s' t')

/-- Accesses from states that say less lead to states that say less. -/
lemma access_mono (g : Geometry) (target : Target) (h : s ≤ t) :
    Domain.access g target s ≤ Domain.access g target t := by
  match target with
  | .unknown => exact touchUnknown_mono g h
  | .lines [] => exact h
  | .lines [line] => exact touch_mono g line h
  | .lines (_ :: _ :: _) => exact touchOneOf_mono g (List.cons_ne_nil _ _) h

/-- Events are monotone. -/
lemma transfer_mono (g : Geometry) (e : Event) (h : s ≤ t) :
    Domain.transfer g s e ≤ Domain.transfer g t e := by
  cases e with
  | call c => exact call_mono g c h
  | access a =>
    unfold Domain.transfer
    simp only
    split
    · exact access_mono g a.target h
    · exact join_mono h (access_mono g a.target h)
    · exact h

/-- Events from states that say less lead to states that say less. -/
lemma transferAll_mono (g : Geometry) (events : List Event) (h : s ≤ t) :
    Domain.transferAll g s events ≤ Domain.transferAll g t events := by
  induction events generalizing s t with
  | nil => exact h
  | cons e events ih => exact ih (transfer_mono g e h)

end OrderedDomain

/-- A sequence that lowers a rank whenever it moves comes to rest. -/
lemma exists_rest {α : Type} {f : Nat → α} (rank : α → Nat)
    (h : ∀ k, f (k + 1) = f k ∨ rank (f (k + 1)) < rank (f k)) :
    ∃ k, ∀ j ≥ k, f (j + 1) = f j := by
  have hanti : Antitone (rank ∘ f) := by
    refine antitone_nat_of_succ_le fun k => ?_
    rcases h k with heq | hlt
    · exact (congrArg rank heq).le
    · exact hlt.le
  refine ⟨Function.argmin (rank ∘ f), fun j hj => ?_⟩
  rcases h j with heq | hlt
  · exact heq
  · have hleast := Function.argmin_le (rank ∘ f) (j + 1)
    exact absurd (hleast.trans_lt hlt) (hanti hj).not_gt

/-- What holds of all values of a map, and of a new one, holds once that is inserted. -/
lemma OrderedMap.forall_insert {S : Type} {states : OrderedMap Nat S} {P : Nat → S → Prop} {n : Nat}
    {new : S} (h : ∀ m state, states.get? m = some state → P m state) (hnew : P n new) :
    ∀ m state, (states.insert n new).get? m = some state → P m state := by
  intro m state hstate
  rw [OrderedMap.get?_insert] at hstate
  split at hstate
  · rename_i heq
    cases hstate
    exact heq ▸ hnew
  · exact h m state hstate

section

variable {S : Type} [Domain S] [DecidableEq S] {s : Summary} {r : Region}

/-- The ranks of the states behind all nodes together. -/
def Region.potential (r : Region) (rank : S → Nat) (outs : OrderedMap Nat S) : Nat :=
  (r.nodes.toList.map fun n => rank ((outs.get? n).getD Domain.bottom)).sum

omit [DecidableEq S] in
/-- A state that ranks lower than the one it replaces lowers the potential. -/
lemma Region.potential_insert_lt {rank : S → Nat} {outs : OrderedMap Nat S} {n : Nat} {old new : S}
    (hn : n ∈ r.nodes) (hold : outs.get? n = some old) (hlt : rank new < rank old) :
    r.potential rank (outs.insert n new) < r.potential rank outs := by
  apply List.sum_lt_sum
  · intro m _
    rw [OrderedMap.get?_insert]
    split
    · rename_i heq
      rw [heq, hold]
      exact Nat.le_of_lt hlt
    · exact le_rfl
  · refine ⟨n, hn, ?_⟩
    rw [OrderedMap.get?_insert, if_pos rfl, hold]
    exact hlt

/-- Recomputes the states of a node, as a visit does, whoever waits. -/
def Solution.update (s : Summary) (r : Region) (solution : Solution S) (n : Nat) : Solution S :=
  (Iteration.visit s r { solution with queue := [] } n).toSolution

/-- What a visit does to the states is the same whoever waits. -/
lemma Iteration.toSolution_visit (it : Iteration S) (n : Nat) :
    (Iteration.visit s r it n).toSolution = it.toSolution.update s r n := by
  unfold Solution.update Iteration.visit
  simp only
  split <;> rfl

namespace Solution

variable (solution : Solution S) (n : Nat)

/-- A visit enters the meet before the node. -/
lemma ins_update :
    (solution.update s r n).ins = solution.ins.insert n (Iteration.meet s r solution.outs n) := by
  unfold update Iteration.visit
  simp only
  split <;> rfl

/-- A visit enters the state behind the node. -/
lemma outs_update :
    (solution.update s r n).outs = solution.outs.insert n
      (Domain.transferAll s.geometry (Iteration.meet s r solution.outs n) (s.eventsOf n)) := by
  unfold update Iteration.visit
  simp only
  split
  · -- the state is what it was, and so is the map
    rename_i heq
    refine OrderedMap.ext_get? fun m => ?_
    rw [OrderedMap.get?_insert]
    split
    · rename_i hm
      exact hm ▸ heq
    · rfl
  · rfl

/-- Exactly the nodes of the region have states. -/
structure Covers (r : Region) (solution : Solution S) : Prop where
  ins : ∀ n, (solution.ins.get? n).isSome ↔ n ∈ r.nodes
  outs : ∀ n, (solution.outs.get? n).isSome ↔ n ∈ r.nodes

omit [DecidableEq S] in
/-- At the start, exactly the nodes of the region have states. -/
lemma covers_start : (Iteration.start r : Iteration S).Covers r := by
  have hsome (n : Nat) : ((Iteration.start r : Iteration S).outs.get? n).isSome ↔ n ∈ r.nodes := by
    rw [Iteration.get?_outs_start]
    split <;> simp_all
  exact ⟨hsome, hsome⟩

/-- A visit to a node of the region keeps it so. -/
lemma Covers.update {solution : Solution S} (h : solution.Covers r) {n : Nat} (hn : n ∈ r.nodes) :
    (solution.update s r n).Covers r := by
  have insert {states : OrderedMap Nat S} {new : S}
      (hstates : ∀ m, (states.get? m).isSome ↔ m ∈ r.nodes) (m : Nat) :
      ((states.insert n new).get? m).isSome ↔ m ∈ r.nodes := by
    rw [OrderedMap.get?_insert]
    split
    · rename_i heq
      simp [heq, hn]
    · exact hstates m
  constructor
  · rw [ins_update]
    exact insert h.ins
  · rw [outs_update]
    exact insert h.outs

end Solution

end

section

variable {S : Type} [Domain S] [OrderedDomain S]

/-- The states behind the nodes have risen. -/
def Raises (outs outs' : OrderedMap Nat S) : Prop :=
  ∀ n state, outs.get? n = some state → ∃ state', outs'.get? n = some state' ∧ state ≤ state'

/-- States raise themselves. -/
lemma Raises.refl (outs : OrderedMap Nat S) : Raises outs outs :=
  fun _ state hstate => ⟨state, hstate, le_rfl⟩

/-- Raising states is transitive. -/
lemma Raises.trans {outs outs' outs'' : OrderedMap Nat S} (h : Raises outs outs')
    (h' : Raises outs' outs'') : Raises outs outs'' := by
  intro n state hstate
  obtain ⟨state', hstate', hle⟩ := h n state hstate
  obtain ⟨state'', hstate'', hle'⟩ := h' n state' hstate'
  exact ⟨state'', hstate'', hle.trans hle'⟩

/-- They have, if the state behind one node has. -/
lemma Raises.insert {outs : OrderedMap Nat S} {n : Nat} {old new : S} (hold : outs.get? n = some old)
    (hle : old ≤ new) : Raises outs (outs.insert n new) := by
  intro m state hstate
  rw [OrderedMap.get?_insert]
  split
  · rename_i heq
    rw [heq, hold] at hstate
    cases hstate
    exact ⟨new, rfl, hle⟩
  · exact ⟨state, hstate, le_rfl⟩

open OrderedDomain in
/-- The meet at a node rises with the states behind its predecessors. -/
lemma Raises.meet_le {outs outs' : OrderedMap Nat S} (h : Raises outs outs') (s : Summary)
    (r : Region) (n : Nat) : Iteration.meet s r outs n ≤ Iteration.meet s r outs' n := by
  unfold Iteration.meet
  generalize (if n ∈ r.entries then
    Domain.join Domain.bottom (Domain.start s.coldStart) else (Domain.bottom : S)) = joined
  -- along the predecessors the join of the raised states stays above that of the old ones
  suffices ∀ (ps : List Nat) (low high : S), low ≤ high →
      ps.foldl (fun joined p => (outs.get? p).elim joined (Domain.join joined)) low ≤
        ps.foldl (fun joined p => (outs'.get? p).elim joined (Domain.join joined)) high from
    this _ _ _ le_rfl
  intro ps
  induction ps with
  | nil => exact fun _ _ hle => hle
  | cons p ps ih =>
    intro low high hle
    apply ih
    show (outs.get? p).elim low (Domain.join low) ≤ (outs'.get? p).elim high (Domain.join high)
    cases hp : outs.get? p with
    | some state =>
      obtain ⟨state', hp', hstate⟩ := h p state hp
      rw [hp']
      exact join_mono hle hstate
    | none =>
      cases outs'.get? p with
      | none => exact hle
      | some state' => exact hle.trans (le_join_left high state')

/-- A rank that falls whenever a state rises, for the states that the analysis of a procedure
comes across. -/
structure Ranking (S : Type) [Domain S] [OrderedDomain S] (s : Summary) where
  Valid : S → Prop
  closed : s.Closed Valid
  rank : S → Nat
  rank_lt : ∀ {a b : S}, Valid a → Valid b → a < b → rank b < rank a

namespace Ranking

variable {s : Summary} (ρ : Ranking S s) {r : Region}

/-- The invariant of the ascent: exactly the nodes of the region have states, and the state behind a
node lies below what the node makes of the others. -/
structure Rising (r : Region) (solution : Solution S) : Prop where
  covers : solution.Covers r
  valid : ∀ n state, solution.outs.get? n = some state → ρ.Valid state
  le : ∀ n state, solution.outs.get? n = some state →
    state ≤ Domain.transferAll s.geometry (Iteration.meet s r solution.outs n) (s.eventsOf n)

/-- At the start nothing is reached. -/
lemma rising_start : ρ.Rising r (Iteration.start r).toSolution := by
  have hbottom (n : Nat) (state : S) (hstate : (Iteration.start r).outs.get? n = some state) :
      state = Domain.bottom := by
    rw [Iteration.get?_outs_start] at hstate
    split at hstate
    · cases hstate
      rfl
    · cases hstate
  refine ⟨Solution.covers_start, ?_, ?_⟩
  · intro n state hstate
    rw [hbottom n state hstate]
    exact ρ.closed.bottom
  · intro n state hstate
    rw [hbottom n state hstate]
    exact OrderedDomain.bottom_le _

variable {ρ} {solution : Solution S}

namespace Rising

/-- In an ascent each node of the region has a state. -/
lemma exists_out (h : ρ.Rising r solution) {n : Nat} (hn : n ∈ r.nodes) :
    ∃ state, solution.outs.get? n = some state :=
  Option.isSome_iff_exists.1 ((h.covers.outs n).2 hn)

/-- What a node makes of the others is ranked. -/
lemma valid_out (h : ρ.Rising r solution) (n : Nat) :
    ρ.Valid (Domain.transferAll s.geometry (Iteration.meet s r solution.outs n) (s.eventsOf n)) :=
  ρ.closed.transferAll (fun _ he => he) (ρ.closed.meet h.valid n)

variable [DecidableEq S]

/-- Whichever node is visited, the states behind the nodes rise. -/
lemma raises_update (h : ρ.Rising r solution) {n : Nat} (hn : n ∈ r.nodes) :
    Raises solution.outs (solution.update s r n).outs := by
  obtain ⟨old, hold⟩ := h.exists_out hn
  rw [Solution.outs_update]
  exact .insert hold (h.le n old hold)

/-- A visit of any node of the region keeps the ascent. -/
lemma update (h : ρ.Rising r solution) {n : Nat} (hn : n ∈ r.nodes) :
    ρ.Rising r (solution.update s r n) := by
  have hraises := h.raises_update hn
  constructor
  · exact h.covers.update hn
  · rw [Solution.outs_update]
    exact OrderedMap.forall_insert h.valid (h.valid_out n)
  · -- the state behind the visited node is what its meet asked for, and the meets have risen
    have hmeet (m : Nat) := OrderedDomain.transferAll_mono s.geometry (s.eventsOf m)
      (hraises.meet_le s r m)
    intro m state hstate
    refine le_trans ?_ (hmeet m)
    revert m state
    rw [Solution.outs_update]
    exact OrderedMap.forall_insert h.le le_rfl

/-- A visit that changes the state behind its node lowers the potential. -/
lemma potential_update_lt (h : ρ.Rising r solution) {n : Nat} (hn : n ∈ r.nodes)
    (hne : solution.outs.get? n ≠
      some (Domain.transferAll s.geometry (Iteration.meet s r solution.outs n) (s.eventsOf n))) :
    r.potential ρ.rank (solution.update s r n).outs < r.potential ρ.rank solution.outs := by
  obtain ⟨old, hold⟩ := h.exists_out hn
  have hlt : old < Domain.transferAll s.geometry (Iteration.meet s r solution.outs n)
      (s.eventsOf n) := by
    apply lt_of_le_of_ne (h.le n old hold)
    intro heq
    exact hne (heq ▸ hold)
  rw [Solution.outs_update]
  exact r.potential_insert_lt hn hold (ρ.rank_lt (h.valid n old hold) (h.valid_out n) hlt)

end Rising

/-- The states of an iteration rise, and only nodes of the region wait. -/
structure Ascending (ρ : Ranking S s) (r : Region) (it : Iteration S) : Prop where
  queue : ∀ n ∈ it.queue, n ∈ r.nodes
  rising : ρ.Rising r it.toSolution

variable (ρ) in
/-- The ascent starts at the bottom. -/
lemma ascending_start : ρ.Ascending r (Iteration.start r) :=
  ⟨fun _ hn => hn, ρ.rising_start⟩

variable [DecidableEq S] {it : Iteration S}

/-- A visit keeps the ascent, and lowers the potential or shortens the queue. -/
lemma Ascending.visit {n : Nat} {rest : List Nat} (h : ρ.Ascending r it)
    (hq : it.queue = n :: rest) :
    ρ.Ascending r (Iteration.visit s r { it with queue := rest } n) ∧
      Prod.Lex (· < ·) (· < ·)
        (r.potential ρ.rank (Iteration.visit s r { it with queue := rest } n).outs,
          (Iteration.visit s r { it with queue := rest } n).queue.length)
        (r.potential ρ.rank it.outs, it.queue.length) := by
  have hn : n ∈ r.nodes := h.queue n (by rw [hq]; exact List.mem_cons_self)
  have hrest : ∀ m ∈ rest, m ∈ r.nodes := fun m hm =>
    h.queue m (by rw [hq]; exact List.mem_cons_of_mem _ hm)
  have hrising : ρ.Rising r (Iteration.visit s r { it with queue := rest } n).toSolution := by
    rw [Iteration.toSolution_visit]
    exact h.rising.update hn
  by_cases hout : it.outs.get? n =
      some (Domain.transferAll s.geometry (Iteration.meet s r it.outs n) (s.eventsOf n))
  · rw [Iteration.visit_of_eq hout] at hrising ⊢
    refine ⟨⟨hrest, hrising⟩, ?_⟩
    apply Prod.Lex.right
    simp [hq]
  · have hpotential := h.rising.potential_update_lt hn hout
    rw [Solution.outs_update] at hpotential
    rw [Iteration.visit_of_ne hout] at hrising ⊢
    refine ⟨⟨Iteration.mem_nodes_of_mem_enqueueAll hrest, hrising⟩, ?_⟩
    exact Prod.Lex.left _ _ hpotential

/-- The iteration ends. -/
lemma Ascending.exists_run (it : Iteration S) (h : ρ.Ascending r it) :
    ∃ fuel solution, Iteration.run s r fuel it = some solution := by
  cases hq : it.queue with
  | nil =>
    refine ⟨0, it.toSolution, ?_⟩
    rw [Iteration.run, hq]
  | cons n rest =>
    have hvisit := h.visit hq
    obtain ⟨fuel, solution, hrun⟩ := exists_run _ hvisit.1
    refine ⟨fuel + 1, solution, ?_⟩
    rw [Iteration.run, hq]
    exact hrun
termination_by (r.potential ρ.rank it.outs, it.queue.length)
decreasing_by exact hvisit.2

end Ranking

variable [DecidableEq S]

omit [OrderedDomain S] in
/-- More fuel than the iteration takes changes nothing. -/
lemma Iteration.run_of_le {s : Summary} {r : Region} {fuel fuel' : Nat} {it : Iteration S}
    {solution : Solution S} (h : run s r fuel it = some solution) (hle : fuel ≤ fuel') :
    run s r fuel' it = some solution := by
  induction fuel generalizing it fuel' with
  | zero =>
    unfold run at h ⊢
    split at h
    · exact h
    · cases h
  | succ fuel ih =>
    obtain ⟨k, rfl⟩ : ∃ k, fuel' = k + 1 := Nat.exists_eq_succ_of_ne_zero (by omega)
    unfold run at h ⊢
    split at h
    · exact h
    · exact ih h (by omega)

omit [OrderedDomain S] in
/-- The analysis of a region has a solution exactly if the queue empties. -/
lemma Solution.exists_solve?_iff {s : Summary} {r : Region} :
    (∃ (bound : Nat) (solution : Solution S),
      ∀ fuel ≥ bound, Solution.solve? fuel s r = some solution) ↔
        ∃ k, (Iteration.after s r k : Iteration S).queue = [] := by
  constructor
  · rintro ⟨bound, solution, solved⟩
    exact ⟨bound, (Iteration.run_eq_some_iff.1 (solved bound le_rfl)).1⟩
  · rintro ⟨k, hk⟩
    have hrun := Iteration.run_eq_some_iff.2 ⟨hk, rfl⟩
    exact ⟨k, _, fun fuel hle => Iteration.run_of_le hrun hle⟩

/-- Where states are ranked, the analysis of every region has a solution. -/
theorem Solution.exists_solve? {s : Summary} (ρ : Ranking S s) (r : Region) :
    ∃ (bound : Nat) (solution : Solution S),
      ∀ fuel ≥ bound, Solution.solve? fuel s r = some solution := by
  obtain ⟨bound, solution, hrun⟩ := (ρ.ascending_start (r := r)).exists_run
  exact ⟨bound, solution, fun fuel hle => Iteration.run_of_le hrun hle⟩

end

end CacheVerdict
