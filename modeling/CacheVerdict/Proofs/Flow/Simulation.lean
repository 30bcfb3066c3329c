import CacheVerdict.Proofs.Cache.Run
import CacheVerdict.Proofs.Flow.Least

/-!
# Comparing two analyses

Two analyses over the same control-flow graph visit its nodes in different orders and see different
states on the way, so they are compared through what they end with. A relation to the states of a
solution that starts, joins and events keep is kept by every visit (`Summary.Keeps.of_solve?`), so
it holds between what the one iteration ends with and any solution of the other equations
(`Simulates.stateAt`). Nothing is asked of orders, or of how the other iteration went.
-/

namespace CacheVerdict

section

variable {S : Type} [Domain S]

/-- Something said of the states at the entries of nodes and behind them that every visit keeps. -/
structure Summary.Keeps (s : Summary) (r : Region) (In Out : Nat → S → Prop) : Prop where
  bottom : ∀ n, In n Domain.bottom ∧ Out n Domain.bottom
  start : ∀ n ∈ r.entries, n ∈ r.nodes → In n (Domain.start s.coldStart)
  join : ∀ {n : Nat} {a b : S}, In n a → In n b → In n (Domain.join a b)
  edge : ∀ {p n : Nat} {a : S}, p ∈ r.nodes → n ∈ r.nodes → p ∈ s.predecessorsOf n → Out p a → In n a
  node : ∀ {n : Nat} {a : S}, n ∈ r.nodes → In n a →
    Out n (Domain.transferAll s.geometry a (s.eventsOf n))

/-- It is said of all states of an iteration, and only nodes of the region wait. -/
structure Iteration.Obeys (r : Region) (In Out : Nat → S → Prop) (it : Iteration S) : Prop where
  queue : ∀ n ∈ it.queue, n ∈ r.nodes
  ins : ∀ n state, it.ins.get? n = some state → In n state
  outs : ∀ n state, it.outs.get? n = some state → n ∈ r.nodes ∧ Out n state

namespace Summary.Keeps

variable {s : Summary} {r : Region} {In Out : Nat → S → Prop}

/-- What is said of the states behind the nodes is said of their meet at the entry of another. -/
lemma meet (keeps : s.Keeps r In Out) {outs : OrderedMap Nat S} {n : Nat} (hn : n ∈ r.nodes)
    (h : ∀ p state, outs.get? p = some state → p ∈ r.nodes ∧ Out p state) :
    In n (Iteration.meet s r outs n) := by
  have hinitial : In n (if n ∈ r.entries then
      Domain.join Domain.bottom (Domain.start s.coldStart) else Domain.bottom) := by
    split
    · rename_i hentry
      exact keeps.join (keeps.bottom n).1 (keeps.start n hentry hn)
    · exact (keeps.bottom n).1
  have hpred : ∀ p ∈ s.predecessorsOf n, ∀ state, outs.get? p = some state → In n state := by
    intro p hp state hstate
    obtain ⟨hnode, hout⟩ := h p state hstate
    exact keeps.edge hnode hn hp hout
  unfold Iteration.meet
  revert hinitial
  generalize (if n ∈ r.entries then
    Domain.join Domain.bottom (Domain.start s.coldStart) else (Domain.bottom : S)) = joined
  intro hjoined
  simp only
  generalize s.predecessorsOf n = ps at hpred
  induction ps generalizing joined with
  | nil => exact hjoined
  | cons p ps ih =>
    rw [List.forall_mem_cons] at hpred
    refine ih _ ?_ hpred.2
    show In n ((outs.get? p).elim joined (Domain.join joined))
    cases hp : outs.get? p with
    | none => exact hjoined
    | some state => exact keeps.join hjoined (hpred.1 state hp)

/-- At the start nothing is reached. -/
lemma obeys_start (keeps : s.Keeps r In Out) : (Iteration.start r).Obeys r In Out := by
  have hstart (n : Nat) (state : S) (h : (Iteration.start r).outs.get? n = some state) :
      n ∈ r.nodes ∧ state = Domain.bottom := by
    rw [Iteration.get?_outs_start] at h
    split at h
    · rename_i hn
      cases h
      exact ⟨hn, rfl⟩
    · cases h
  refine ⟨fun _ hn => hn, ?_, ?_⟩
  · intro n state h
    obtain ⟨_, rfl⟩ := hstart n state h
    exact (keeps.bottom n).1
  · intro n state h
    obtain ⟨hn, rfl⟩ := hstart n state h
    exact ⟨hn, (keeps.bottom n).2⟩

variable [DecidableEq S]

/-- A visit keeps what is said of all states. -/
lemma obeys_visit (keeps : s.Keeps r In Out) {it : Iteration S} {n : Nat} {rest : List Nat}
    (hq : it.queue = n :: rest) (h : it.Obeys r In Out) :
    (Iteration.visit s r { it with queue := rest } n).Obeys r In Out := by
  have hn : n ∈ r.nodes := h.queue n (by rw [hq]; exact List.mem_cons_self)
  have hrest : ∀ m ∈ rest, m ∈ r.nodes := fun m hm =>
    h.queue m (by rw [hq]; exact List.mem_cons_of_mem _ hm)
  have hmeet : In n (Iteration.meet s r it.outs n) := keeps.meet hn h.outs
  by_cases hout : it.outs.get? n =
      some (Domain.transferAll s.geometry (Iteration.meet s r it.outs n) (s.eventsOf n))
  · rw [Iteration.visit_of_eq hout]
    exact ⟨hrest, OrderedMap.forall_insert h.ins hmeet, h.outs⟩
  · rw [Iteration.visit_of_ne hout]
    exact ⟨Iteration.mem_nodes_of_mem_enqueueAll hrest, OrderedMap.forall_insert h.ins hmeet,
      OrderedMap.forall_insert h.outs ⟨hn, keeps.node hn hmeet⟩⟩

/-- What every visit keeps is said of what the iteration ends with. -/
theorem of_solve? (keeps : s.Keeps r In Out) {fuel : Nat} {solution : Solution S}
    (solved : Solution.solve? fuel s r = some solution) (n : Nat) :
    In n (solution.inOf n) ∧ Out n (solution.outOf n) := by
  obtain ⟨last, hlast, _, rfl⟩ := Iteration.exists_last_of_run
    (fun hq it => keeps.obeys_visit hq it) keeps.obeys_start solved
  constructor
  · cases hin : last.ins.get? n with
    | none =>
      rw [Solution.inOf, hin]
      exact (keeps.bottom n).1
    | some state =>
      rw [Solution.inOf_eq hin]
      exact hlast.ins n state hin
  · cases hout : last.outs.get? n with
    | none =>
      rw [Solution.outOf, hout]
      exact (keeps.bottom n).2
    | some state =>
      rw [Solution.outOf_eq hout]
      exact (hlast.outs n state hout).2

end Summary.Keeps

/-! ### Solutions -/

namespace Solution.Settled

variable {s : Summary} {r : Region} {solution : Solution S} {n : Nat}

/-- In a settled solution the state before a node is the meet there. -/
lemma inOf_eq (settled : solution.Settled s r) (hn : n ∈ r.nodes) :
    solution.inOf n = Iteration.meet s r solution.outs n :=
  Solution.inOf_eq (settled.ins n hn)

/-- In a settled solution the nodes of the region have states behind them. -/
lemma get?_outs (settled : solution.Settled s r) (hn : n ∈ r.nodes) :
    solution.outs.get? n = some (solution.outOf n) := by
  rw [settled.outs n hn, Solution.outOf_eq (settled.outs n hn)]

/-- Behind a node stands what its events make of the state at its entry. -/
lemma outOf_eq (settled : solution.Settled s r) (hn : n ∈ r.nodes) :
    solution.outOf n = Domain.transferAll s.geometry (solution.inOf n) (s.eventsOf n) := by
  rw [Solution.outOf_eq (settled.outs n hn), settled.inOf_eq hn]

variable {P : S → Prop}

/-- What holds of a join as soon as it holds of one side holds at an entry if it does at the start. -/
lemma of_entry (settled : solution.Settled s r) (left : ∀ {a b : S}, P a → P (Domain.join a b))
    (right : ∀ {a b : S}, P b → P (Domain.join a b)) (hn : n ∈ r.nodes) (hentry : n ∈ r.entries)
    (h : P (Domain.start s.coldStart)) : P (solution.inOf n) := by
  rw [settled.inOf_eq hn]
  unfold Iteration.meet
  simp only
  rw [if_pos hentry]
  have hjoined : P (Domain.join Domain.bottom (Domain.start s.coldStart)) := right h
  revert hjoined
  generalize (Domain.join Domain.bottom (Domain.start s.coldStart) : S) = joined
  intro hjoined
  induction s.predecessorsOf n generalizing joined with
  | nil => exact hjoined
  | cons p ps ih =>
    refine ih _ ?_
    show P ((solution.outs.get? p).elim joined (Domain.join joined))
    cases solution.outs.get? p with
    | none => exact hjoined
    | some state => exact left hjoined

/-- Likewise at a node if it does behind a predecessor. -/
lemma of_pred (settled : solution.Settled s r) (left : ∀ {a b : S}, P a → P (Domain.join a b))
    (right : ∀ {a b : S}, P b → P (Domain.join a b)) (hn : n ∈ r.nodes) {p : Nat}
    (hp : p ∈ r.nodes) (hpred : p ∈ s.predecessorsOf n) (h : P (solution.outOf p)) :
    P (solution.inOf n) := by
  rw [settled.inOf_eq hn]
  have stays (ps : List Nat) {joined : S} (hjoined : P joined) :
      P (ps.foldl (fun joined p => (solution.outs.get? p).elim joined (Domain.join joined))
        joined) := by
    induction ps generalizing joined with
    | nil => exact hjoined
    | cons q ps ih =>
      refine ih ?_
      show P ((solution.outs.get? q).elim joined (Domain.join joined))
      cases solution.outs.get? q with
      | none => exact hjoined
      | some state => exact left hjoined
  unfold Iteration.meet
  simp only
  generalize (if n ∈ r.entries then
    Domain.join Domain.bottom (Domain.start s.coldStart) else (Domain.bottom : S)) = joined
  generalize s.predecessorsOf n = ps at hpred
  induction ps generalizing joined with
  | nil => cases hpred
  | cons q ps ih =>
    rcases List.mem_cons.1 hpred with rfl | hpred
    · refine stays ps ?_
      show P ((solution.outs.get? p).elim joined (Domain.join joined))
      rw [settled.get?_outs hp]
      exact right h
    · exact ih _ hpred

end Solution.Settled

end

/-! ### Simulations -/

section

variable {S T : Type} [Domain S] [Domain T] {s t : Summary} {r : Region} {R : S → T → Prop}

/-- A relation between the states of two analyses over one graph that starts, joins and the events
at each place keep. -/
structure Simulates (s t : Summary) (r : Region) (R : S → T → Prop) : Prop where
  bottom : ∀ b : T, R Domain.bottom b
  start : R (Domain.start s.coldStart) (Domain.start t.coldStart)
  join : ∀ {a b : S} {c : T}, R a c → R b c → R (Domain.join a b) c
  left : ∀ {a : S} {b c : T}, R a b → R a (Domain.join b c)
  right : ∀ {a : S} {b c : T}, R a c → R a (Domain.join b c)
  predecessors : ∀ n ∈ r.nodes, s.predecessorsOf n = t.predecessorsOf n
  events : ∀ n ∈ r.nodes, List.Forall₂ (fun e e' => ∀ {a : S} {b : T}, R a b →
    R (Domain.transfer s.geometry a e) (Domain.transfer t.geometry b e'))
      (s.eventsOf n) (t.eventsOf n)

omit [Domain S] [Domain T] in
/-- What stands at a place of a list is related to what stands there in the other. -/
lemma exists_getElem?_of_forall₂ {α β : Type} {R : α → β → Prop} {l : List α} {l' : List β}
    (h : List.Forall₂ R l l') {i : Nat} {a : α} (ha : l[i]? = some a) :
    ∃ b, l'[i]? = some b ∧ R a b := by
  obtain ⟨hi, rfl⟩ := List.getElem?_eq_some_iff.1 ha
  have hi' : i < l'.length := h.length_eq ▸ hi
  exact ⟨l'[i], List.getElem?_eq_getElem hi', h.get hi hi'⟩

/-- Lists of events that keep a relation one by one keep it together. -/
lemma related_transferAll {g g' : Geometry} {events events' : List Event}
    (h : List.Forall₂ (fun e e' => ∀ {a : S} {b : T}, R a b →
      R (Domain.transfer g a e) (Domain.transfer g' b e')) events events') {a : S} {b : T}
    (hab : R a b) : R (Domain.transferAll g a events) (Domain.transferAll g' b events') := by
  induction h generalizing a b with
  | nil => exact hab
  | cons he _ ih => exact ih (he hab)

namespace Simulates

/-- A visit of the one analysis keeps its states related to a solution of the other. -/
lemma keeps (sim : Simulates s t r R) {solution : Solution T} (settled : solution.Settled t r) :
    s.Keeps r (fun n a => R a (solution.inOf n)) (fun n a => R a (solution.outOf n)) where
  bottom n := ⟨sim.bottom _, sim.bottom _⟩
  start n hentry hn := settled.of_entry sim.left sim.right hn hentry sim.start
  join := sim.join
  edge hp hn hpred h :=
    settled.of_pred sim.left sim.right hn hp (sim.predecessors _ hn ▸ hpred) h
  node hn h := by
    rw [settled.outOf_eq hn]
    exact related_transferAll (sim.events _ hn) h

variable [DecidableEq S] {fuel : Nat} {solution : Solution S} {solution' : Solution T}

/-- What the one analysis ends with is related to every solution of the other, at the entries of
nodes and behind them. -/
theorem inOf_outOf (sim : Simulates s t r R) (solved : Solution.solve? fuel s r = some solution)
    (settled : solution'.Settled t r) (n : Nat) :
    R (solution.inOf n) (solution'.inOf n) ∧ R (solution.outOf n) (solution'.outOf n) :=
  (sim.keeps settled).of_solve? solved n

/-- So it is before every event. -/
theorem stateAt (sim : Simulates s t r R) (solved : Solution.solve? fuel s r = some solution)
    (settled : solution'.Settled t r) {n : Nat} (hn : n ∈ r.nodes) (i : Nat) :
    R (solution.stateAt s n i) (solution'.stateAt t n i) :=
  related_transferAll (List.forall₂_take i (sim.events n hn)) (sim.inOf_outOf solved settled n).1

end Simulates

end

/-! ### Images of solutions -/

section

variable {S T : Type} [Domain S] [Domain T] {s t : Summary} {r : Region} {f : T → S}

/-- A map that takes the states of one analysis to those of another over the same graph, and the
effects of the events along with them. -/
structure Projects (s t : Summary) (r : Region) (f : T → S) : Prop where
  bottom : f Domain.bottom = Domain.bottom
  start : f (Domain.start t.coldStart) = Domain.start s.coldStart
  join : ∀ b c : T, f (Domain.join b c) = Domain.join (f b) (f c)
  predecessors : ∀ n ∈ r.nodes, s.predecessorsOf n = t.predecessorsOf n
  events : ∀ n ∈ r.nodes, List.Forall₂ (fun e e' => ∀ b : T,
    f (Domain.transfer t.geometry b e') = Domain.transfer s.geometry (f b) e)
      (s.eventsOf n) (t.eventsOf n)

/-- Such a map takes the states before the events of a node along. -/
lemma map_beforeEach {g g' : Geometry} {events events' : List Event}
    (h : List.Forall₂ (fun e e' => ∀ b : T,
      f (Domain.transfer g' b e') = Domain.transfer g (f b) e) events events') (b : T) :
    (Domain.beforeEach g' b events').map f = Domain.beforeEach g (f b) events := by
  induction h generalizing b with
  | nil => rfl
  | cons he _ ih => rw [Domain.beforeEach, List.map_cons, ih, he, Domain.beforeEach]

namespace Projects

variable [OrderedDomain S]

/-- What the one analysis finds lies below the image of what the other finds. -/
lemma simulates_le (projects : Projects s t r f) : Simulates s t r (fun (a : S) b => a ≤ f b) where
  bottom b := OrderedDomain.bottom_le (f b)
  start := projects.start.ge
  join := OrderedDomain.join_le
  left h := by
    rw [projects.join]
    exact le_trans h (OrderedDomain.le_join_left _ _)
  right h := by
    rw [projects.join]
    exact le_trans h (OrderedDomain.le_join_right _ _)
  predecessors := projects.predecessors
  events n hn := (projects.events n hn).imp fun e e' he a b h => by
    rw [he]
    exact OrderedDomain.transfer_mono s.geometry e h

/-- The image of what the other analysis finds lies below what the one finds. -/
lemma simulates_ge (projects : Projects s t r f) : Simulates t s r (fun b (a : S) => f b ≤ a) where
  bottom a := by
    rw [projects.bottom]
    exact OrderedDomain.bottom_le a
  start := projects.start.le
  join hb hc := by
    rw [projects.join]
    exact OrderedDomain.join_le hb hc
  left h := le_trans h (OrderedDomain.le_join_left _ _)
  right h := le_trans h (OrderedDomain.le_join_right _ _)
  predecessors n hn := (projects.predecessors n hn).symm
  events n hn := (projects.events n hn).flip.imp fun e' e he b a h => by
    rw [he]
    exact OrderedDomain.transfer_mono s.geometry e h

variable [DecidableEq S] [DecidableEq T] {fuel fuel' : Nat} {solution : Solution S}
  {solution' : Solution T}

/-- What the one analysis ends with is the image of what the other ends with. -/
theorem inOf_outOf_eq (projects : Projects s t r f) (linked : s.Linked r) (linked' : t.Linked r)
    (solved : Solution.solve? fuel s r = some solution)
    (solved' : Solution.solve? fuel' t r = some solution') (n : Nat) :
    solution.inOf n = f (solution'.inOf n) ∧ solution.outOf n = f (solution'.outOf n) := by
  have below := projects.simulates_le.inOf_outOf solved
    (Solution.settled_of_solve? linked' solved') n
  have above := projects.simulates_ge.inOf_outOf solved'
    (Solution.settled_of_solve? linked solved) n
  exact ⟨le_antisymm below.1 above.1, le_antisymm below.2 above.2⟩

/-- So it is before every event. -/
theorem beforeEvents_eq (projects : Projects s t r f) (linked : s.Linked r) (linked' : t.Linked r)
    (solved : Solution.solve? fuel s r = some solution)
    (solved' : Solution.solve? fuel' t r = some solution') {n : Nat} (hn : n ∈ r.nodes) :
    solution.beforeEvents s n = (solution'.beforeEvents t n).map f := by
  have hin := (projects.inOf_outOf_eq linked linked' solved solved' n).1
  refine Eq.trans ?_ (map_beforeEach (projects.events n hn) (solution'.inOf n)).symm
  rw [← hin]
  rfl

end Projects

end

end CacheVerdict
