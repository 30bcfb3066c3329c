import Mathlib.Logic.Function.Iterate
import Mathlib.Tactic.Lemma
import CacheVerdict.Flow.Solve
import CacheVerdict.Proofs.Ordered.Map

/-!
# The flow equations

What the iteration over a region ends with. The invariant of the iteration is that a node outside
the queue satisfies its equations: its entry state is the meet of the states behind its
predecessors, and the state behind it is what its events make of that. A visit that changes a state
puts exactly the nodes whose meet may change back into the queue, so an empty queue leaves a
solution of all equations (`Solution.settled_of_solve?`).
-/

namespace CacheVerdict

/-- A node waits after `enqueue` if it waited before or is the new one. -/
lemma mem_enqueue {queue : List Nat} {n m : Nat} : m ∈ enqueue queue n ↔ m ∈ queue ∨ m = n := by
  unfold enqueue
  split
  · rename_i h
    constructor
    · exact .inl
    · rintro (hm | rfl)
      · exact hm
      · exact h
  · simp

/-- A node waits after `enqueueAll` if it waited before or is one of the new ones. -/
lemma mem_enqueueAll {queue nodes : List Nat} {m : Nat} :
    m ∈ enqueueAll queue nodes ↔ m ∈ queue ∨ m ∈ nodes := by
  induction nodes generalizing queue with
  | nil => simp [enqueueAll]
  | cons n nodes ih =>
    have step : enqueueAll queue (n :: nodes) = enqueueAll (enqueue queue n) nodes := rfl
    rw [step, ih, mem_enqueue, List.mem_cons, or_assoc]

/-- Every edge between nodes of the region is known at its source. -/
def Summary.Linked (s : Summary) (r : Region) : Prop :=
  ∀ p ∈ r.nodes, ∀ n ∈ r.nodes, p ∈ s.predecessorsOf n → n ∈ s.successorsOf p

/-- The predecessor lists and the successor lists of the nodes describe the same edges. -/
def Summary.Transposed (s : Summary) : Prop :=
  ∀ p < s.events.length, ∀ n < s.events.length, n ∈ s.successorsOf p ↔ p ∈ s.predecessorsOf n

/-- Transposed lists link the nodes of every region of the procedure. -/
lemma Summary.Transposed.linked {s : Summary} (h : s.Transposed) {r : Region}
    (within : ∀ n ∈ r.nodes, n < s.events.length) : s.Linked r :=
  fun p hp n hn hpn => (h p (within p hp) n (within n hn)).2 hpn

section

variable {S : Type} [Domain S]

/-- The states of a solution satisfy the flow equations of every node of the region. -/
structure Solution.Settled (s : Summary) (r : Region) (solution : Solution S) : Prop where
  ins : ∀ n ∈ r.nodes, solution.ins.get? n = some (Iteration.meet s r solution.outs n)
  outs : ∀ n ∈ r.nodes, solution.outs.get? n =
    some (Domain.transferAll s.geometry (Iteration.meet s r solution.outs n) (s.eventsOf n))
  within : ∀ n, (solution.outs.get? n).isSome → n ∈ r.nodes

/-- The states of a node satisfy its flow equations. -/
def Solution.SettledAt (s : Summary) (r : Region) (solution : Solution S) (n : Nat) : Prop :=
  solution.ins.get? n = some (Iteration.meet s r solution.outs n) ∧
    solution.outs.get? n =
      some (Domain.transferAll s.geometry (Iteration.meet s r solution.outs n) (s.eventsOf n))

namespace Iteration

variable {s : Summary} {r : Region} {it : Iteration S}

/-- The meet at a node hangs only on the states behind its predecessors. -/
lemma meet_congr {outs outs' : OrderedMap Nat S} {n : Nat}
    (h : ∀ p ∈ s.predecessorsOf n, outs.get? p = outs'.get? p) :
    meet s r outs n = meet s r outs' n := by
  unfold meet
  generalize s.predecessorsOf n = ps at h
  generalize (if n ∈ r.entries then
    Domain.join Domain.bottom (Domain.start s.coldStart) else (Domain.bottom : S)) = joined
  induction ps generalizing joined with
  | nil => rfl
  | cons p ps ih =>
    rw [List.foldl_cons, List.foldl_cons, h p List.mem_cons_self]
    exact ih (fun q hq => h q (List.mem_cons_of_mem _ hq)) _

/-- A state that changes behind another node than a predecessor leaves the meet alone. -/
lemma meet_insert {outs : OrderedMap Nat S} {m n : Nat} {state : S}
    (h : m ∉ s.predecessorsOf n) : meet s r (outs.insert m state) n = meet s r outs n := by
  apply meet_congr
  intro p hp
  have hne : p ≠ m := fun heq => h (heq ▸ hp)
  rw [OrderedMap.get?_insert, if_neg hne]

/-- The invariant of the iteration: nodes of the region that do not wait are settled. -/
structure Consistent (s : Summary) (r : Region) (it : Iteration S) : Prop where
  queue : ∀ n ∈ it.queue, n ∈ r.nodes
  within : ∀ n, (it.outs.get? n).isSome → n ∈ r.nodes
  settled : ∀ n ∈ r.nodes, n ∉ it.queue → it.SettledAt s r n

omit [Domain S] in
/-- Looking up in a map that holds one state for all nodes. -/
lemma get?_ofList_map {nodes : List Nat} {state : S} {n : Nat} :
    (OrderedMap.ofList (nodes.map fun n => (n, state))).get? n =
      if n ∈ nodes then some state else none := by
  induction nodes with
  | nil => rfl
  | cons m nodes ih =>
    have step : OrderedMap.ofList ((m :: nodes).map fun n => (n, state)) =
        (OrderedMap.ofList (nodes.map fun n => (n, state))).insertWith (fun old _ => old) m state :=
      rfl
    rw [step, OrderedMap.get?_insertWith]
    split
    · rename_i heq
      subst heq
      rw [ih, if_pos List.mem_cons_self]
      split <;> rfl
    · rename_i hne
      rw [ih]
      simp [hne]

/-- The states behind the nodes at the start. -/
lemma get?_outs_start (n : Nat) :
    (start r : Iteration S).outs.get? n = if n ∈ r.nodes then some Domain.bottom else none :=
  get?_ofList_map

/-- At the start every node waits. -/
lemma consistent_start : (start r : Iteration S).Consistent s r where
  queue _ hn := hn
  within n hn := by
    rw [get?_outs_start] at hn
    split at hn
    · assumption
    · cases hn
  settled _ hn hq := absurd hn hq

variable [DecidableEq S]

/-- A visit that changes nothing behind the node only records its entry state. -/
lemma visit_of_eq {n : Nat} {rest : List Nat}
    (h : it.outs.get? n =
      some (Domain.transferAll s.geometry (meet s r it.outs n) (s.eventsOf n))) :
    visit s r { it with queue := rest } n =
      { ins := it.ins.insert n (meet s r it.outs n)
        outs := it.outs
        visits := it.visits + 1
        queue := rest } :=
  if_pos h

/-- A visit that changes the state behind the node lets its successors wait. -/
lemma visit_of_ne {n : Nat} {rest : List Nat}
    (h : it.outs.get? n ≠
      some (Domain.transferAll s.geometry (meet s r it.outs n) (s.eventsOf n))) :
    visit s r { it with queue := rest } n =
      { ins := it.ins.insert n (meet s r it.outs n)
        outs := it.outs.insert n
          (Domain.transferAll s.geometry (meet s r it.outs n) (s.eventsOf n))
        visits := it.visits + 1
        queue := enqueueAll rest ((s.successorsOf n).filter r.nodes.contains) } :=
  if_neg h

/-- The queue stays in the region when the successors of a node there wait. -/
lemma mem_nodes_of_mem_enqueueAll {nodes rest : List Nat} (hrest : ∀ m ∈ rest, m ∈ r.nodes) :
    ∀ m ∈ enqueueAll rest (nodes.filter r.nodes.contains), m ∈ r.nodes := by
  intro m hm
  rcases mem_enqueueAll.1 hm with hm | hm
  · exact hrest m hm
  · exact of_decide_eq_true (List.mem_filter.1 hm).2

/-- A visit settles its node and keeps what is settled outside the queue. -/
lemma Consistent.visit (linked : s.Linked r) {n : Nat} {rest : List Nat}
    (h : it.Consistent s r) (hq : it.queue = n :: rest) :
    (Iteration.visit s r { it with queue := rest } n).Consistent s r := by
  have hn : n ∈ r.nodes := h.queue n (by rw [hq]; exact List.mem_cons_self)
  have hrest : ∀ m ∈ rest, m ∈ r.nodes := fun m hm =>
    h.queue m (by rw [hq]; exact List.mem_cons_of_mem _ hm)
  by_cases hout : it.outs.get? n =
      some (Domain.transferAll s.geometry (meet s r it.outs n) (s.eventsOf n))
  · rw [visit_of_eq hout]
    refine ⟨hrest, h.within, ?_⟩
    intro m hm hwait
    by_cases hmn : m = n
    · subst hmn
      refine ⟨?_, hout⟩
      show (it.ins.insert m _).get? m = _
      rw [OrderedMap.get?_insert, if_pos rfl]
    · obtain ⟨hin, hout'⟩ := h.settled m hm (by simp [hq, hmn, hwait])
      refine ⟨?_, hout'⟩
      show (it.ins.insert n _).get? m = _
      rw [OrderedMap.get?_insert, if_neg hmn]
      exact hin
  · rw [visit_of_ne hout]
    refine ⟨mem_nodes_of_mem_enqueueAll hrest, ?_, ?_⟩
    · intro m hm
      by_cases hmn : m = n
      · exact hmn ▸ hn
      · rw [OrderedMap.get?_insert, if_neg hmn] at hm
        exact h.within m hm
    · intro m hm hwait
      -- a node that does not wait has not the visited one among its predecessors
      have hpred : n ∉ s.predecessorsOf m := by
        intro hp
        apply hwait
        exact mem_enqueueAll.2 (.inr (List.mem_filter.2
          ⟨linked n hn m hm hp, decide_eq_true hm⟩))
      show (it.ins.insert n _).get? m = _ ∧ (it.outs.insert n _).get? m = _
      simp only [meet_insert hpred]
      by_cases hmn : m = n
      · subst hmn
        rw [OrderedMap.get?_insert, if_pos rfl, OrderedMap.get?_insert, if_pos rfl]
        exact ⟨rfl, rfl⟩
      · rw [OrderedMap.get?_insert, if_neg hmn, OrderedMap.get?_insert, if_neg hmn]
        refine h.settled m hm ?_
        rw [hq]
        rintro (_ | hm')
        · exact hmn rfl
        · exact hwait (mem_enqueueAll.2 (.inl (by assumption)))

/-- What every visit keeps holds when the iteration ends. -/
lemma exists_last_of_run {P : Iteration S → Prop}
    (visit : ∀ {it : Iteration S} {n : Nat} {rest : List Nat}, it.queue = n :: rest → P it →
      P (Iteration.visit s r { it with queue := rest } n))
    {fuel : Nat} {solution : Solution S} (h : P it) (hrun : run s r fuel it = some solution) :
    ∃ last : Iteration S, P last ∧ last.queue = [] ∧ last.toSolution = solution := by
  induction fuel generalizing it with
  | zero =>
    unfold run at hrun
    split at hrun
    · rename_i hq
      cases hrun
      exact ⟨it, h, hq, rfl⟩
    · cases hrun
  | succ fuel ih =>
    unfold run at hrun
    split at hrun
    · rename_i hq
      cases hrun
      exact ⟨it, h, hq, rfl⟩
    · rename_i hq
      exact ih (visit hq h) hrun

/-- Visits the first of the waiting nodes. -/
def step (s : Summary) (r : Region) (it : Iteration S) : Iteration S :=
  match it.queue with
  | [] => it
  | n :: rest => visit s r { it with queue := rest } n

/-- Nothing happens once no node waits. -/
lemma step_of_nil (h : it.queue = []) : step s r it = it := by
  rw [step, h]

/-- The first node that waits is visited. -/
lemma step_of_cons {n : Nat} {rest : List Nat} (h : it.queue = n :: rest) :
    step s r it = visit s r { it with queue := rest } n := by
  rw [step, h]

/-- The iteration has ended once nobody waits; further visits change nothing. -/
lemma run_eq_some_iff {fuel : Nat} {solution : Solution S} :
    run s r fuel it = some solution ↔
      ((step s r)^[fuel] it).queue = [] ∧ ((step s r)^[fuel] it).toSolution = solution := by
  induction fuel generalizing it with
  | zero =>
    unfold run
    cases hq : it.queue <;> simp [hq]
  | succ fuel ih =>
    rw [Function.iterate_succ_apply, ← ih, run]
    cases hq : it.queue with
    | nil =>
      rw [step_of_nil hq, run]
      simp only [hq]
    | cons n rest => rw [step_of_cons hq]

/-- The iteration over a region after so many visits. -/
def after (s : Summary) (r : Region) (k : Nat) : Iteration S :=
  (step s r)^[k] (start r)

/-- The last of some steps comes after the others. -/
lemma after_succ (k : Nat) : (after s r (k + 1) : Iteration S) = step s r (after s r k) :=
  Function.iterate_succ_apply' _ _ _

/-- The queue loses its first node where no state behind a node changes. -/
lemma queue_step (h : (step s r it).outs = it.outs) : (step s r it).queue = it.queue.tail := by
  cases hq : it.queue with
  | nil => rw [step_of_nil hq, hq, List.tail_nil]
  | cons n rest =>
    rw [step_of_cons hq] at h ⊢
    by_cases hout : it.outs.get? n =
        some (Domain.transferAll s.geometry (meet s r it.outs n) (s.eventsOf n))
    · rw [visit_of_eq hout, List.tail_cons]
    · rw [visit_of_ne hout] at h
      refine absurd ?_ hout
      rw [← h, OrderedMap.get?_insert, if_pos rfl, h]

/-- Where the states come to rest, the queue empties. -/
lemma exists_queue_nil {k : Nat}
    (rest : ∀ j ≥ k, (after s r (j + 1) : Iteration S).outs = (after s r j).outs) :
    ∃ j, (after s r j : Iteration S).queue = [] := by
  induction hlength : (after s r k : Iteration S).queue.length generalizing k with
  | zero => exact ⟨k, List.length_eq_zero_iff.1 hlength⟩
  | succ length ih =>
    refine ih (k := k + 1) (fun j hj => rest j (by omega)) ?_
    have hqueue := queue_step (after_succ (S := S) k ▸ rest k (Nat.le_refl k))
    rw [after_succ, hqueue, List.length_tail, hlength]
    rfl

end Iteration

/-- The solution that is found satisfies the flow equations. -/
theorem Solution.settled_of_solve? [DecidableEq S] {s : Summary} {r : Region} {fuel : Nat}
    {solution : Solution S} (linked : s.Linked r) (h : Solution.solve? fuel s r = some solution) :
    solution.Settled s r := by
  obtain ⟨last, hlast, hq, rfl⟩ := Iteration.exists_last_of_run
    (fun hq it => Iteration.Consistent.visit linked it hq) Iteration.consistent_start h
  have hwait : ∀ n, n ∉ last.queue := by simp [hq]
  constructor
  · intro n hn
    exact (hlast.settled n hn (hwait n)).1
  · intro n hn
    exact (hlast.settled n hn (hwait n)).2
  · exact hlast.within

/-! ### Properties of all states -/

/-- A property of states that the analysis of a procedure keeps. -/
structure Summary.Closed (s : Summary) (Valid : S → Prop) : Prop where
  bottom : Valid Domain.bottom
  start : Valid (Domain.start s.coldStart)
  join : ∀ {a b : S}, Valid a → Valid b → Valid (Domain.join a b)
  transfer : ∀ {n : Nat} {e : Event} {a : S}, e ∈ s.eventsOf n → Valid a →
    Valid (Domain.transfer s.geometry a e)

/-- All states of an iteration have the property. -/
structure Iteration.All (Valid : S → Prop) (it : Iteration S) : Prop where
  ins : ∀ n state, it.ins.get? n = some state → Valid state
  outs : ∀ n state, it.outs.get? n = some state → Valid state

namespace Summary.Closed

variable {s : Summary} {r : Region} {Valid : S → Prop}

/-- Events of the summary keep states valid. -/
lemma transferAll (closed : s.Closed Valid) {n : Nat} {events : List Event}
    (hevents : ∀ e ∈ events, e ∈ s.eventsOf n) {a : S} (ha : Valid a) :
    Valid (Domain.transferAll s.geometry a events) := by
  induction events generalizing a with
  | nil => exact ha
  | cons e events ih =>
    apply ih
    · intro e' he'
      exact hevents e' (List.mem_cons_of_mem _ he')
    · exact closed.transfer (hevents e List.mem_cons_self) ha

/-- The meet of valid states is valid. -/
lemma meet (closed : s.Closed Valid) {outs : OrderedMap Nat S}
    (h : ∀ n state, outs.get? n = some state → Valid state) (n : Nat) :
    Valid (Iteration.meet s r outs n) := by
  unfold Iteration.meet
  have hinitial : Valid (if n ∈ r.entries then
      Domain.join Domain.bottom (Domain.start s.coldStart) else Domain.bottom) := by
    split
    · exact closed.join closed.bottom closed.start
    · exact closed.bottom
  revert hinitial
  generalize (if n ∈ r.entries then
    Domain.join Domain.bottom (Domain.start s.coldStart) else (Domain.bottom : S)) = joined
  intro hinitial
  simp only
  induction s.predecessorsOf n generalizing joined with
  | nil => exact hinitial
  | cons p ps ih =>
    apply ih
    show Valid ((outs.get? p).elim joined (Domain.join joined))
    cases hp : outs.get? p with
    | none => exact hinitial
    | some state => exact closed.join hinitial (h p state hp)

/-- A visit keeps the property of all states. -/
lemma visit [DecidableEq S] (closed : s.Closed Valid) {it : Iteration S} (h : it.All Valid)
    (n : Nat) (rest : List Nat) :
    (Iteration.visit s r { it with queue := rest } n).All Valid := by
  have hmeet : Valid (Iteration.meet s r it.outs n) := closed.meet h.outs n
  have hout : Valid (Domain.transferAll s.geometry (Iteration.meet s r it.outs n) (s.eventsOf n)) :=
    closed.transferAll (fun _ he => he) hmeet
  have insert {states : OrderedMap Nat S} {new : S}
      (h : ∀ m state, states.get? m = some state → Valid state) (hnew : Valid new) :
      ∀ m state, (states.insert n new).get? m = some state → Valid state := by
    intro m state hstate
    rw [OrderedMap.get?_insert] at hstate
    split at hstate
    · cases hstate
      exact hnew
    · exact h m state hstate
  rcases Classical.em (it.outs.get? n =
      some (Domain.transferAll s.geometry (Iteration.meet s r it.outs n) (s.eventsOf n)))
    with heq | hne
  · rw [Iteration.visit_of_eq heq]
    exact ⟨insert h.ins hmeet, h.outs⟩
  · rw [Iteration.visit_of_ne hne]
    exact ⟨insert h.ins hmeet, insert h.outs hout⟩

end Summary.Closed

/-- A property that the analysis keeps holds of all states at the entries of nodes. -/
theorem Solution.valid_of_solve? [DecidableEq S] {s : Summary} {r : Region} {fuel : Nat}
    {solution : Solution S} {Valid : S → Prop} (closed : s.Closed Valid)
    (h : Solution.solve? fuel s r = some solution) (n : Nat) :
    Valid ((solution.ins.get? n).getD Domain.bottom) := by
  have start : ∀ m (state : S), (Iteration.start r).outs.get? m = some state → Valid state := by
    intro m state hstate
    rw [Iteration.get?_outs_start] at hstate
    split at hstate
    · cases hstate
      exact closed.bottom
    · cases hstate
  have all : (Iteration.start r).All Valid := ⟨start, start⟩
  obtain ⟨last, hlast, _, rfl⟩ := Iteration.exists_last_of_run (P := Iteration.All Valid)
    (fun {_ n rest} _ it => closed.visit it n rest) all h
  cases hstate : last.ins.get? n with
  | none => exact closed.bottom
  | some state => exact hlast.ins n state hstate

end

end CacheVerdict
