import CacheVerdict.Proofs.Cache.Rank

/-!
# When the analysis of persistent lines ends

The analysis of persistent lines is not monotone: a touch makes other lines older only where the
touched line is not held, and a line that is evicted is held no longer, so that the next one to join
may find it younger than before. A visit may therefore take back what an earlier one recorded, and
the queue need not empty (`Solution.persistence_never_ends_swingingLoop`). It empties exactly if
from some visit on nothing is taken back: until then at most a new eviction may make lines younger
or drop them, and there are only finitely many of those (`Solution.persistence_ends_iff`).
-/

namespace CacheVerdict

namespace PersistenceCache

variable {s : Summary} {a b : PersistenceCache}

/-- Only named lines are held or evicted, at ages below the number of ways. -/
structure Bounded (s : Summary) (a : PersistenceCache) : Prop where
  lines : a.lines.Bounded s.geometry s.named
  evicted : ∀ line ∈ a.evicted, line ∈ s.named

/-- Entering named lines evicts named lines only. -/
lemma Bounded.insertAll {lines : List Line} (h : a.Bounded s) (hlines : ∀ line ∈ lines, line ∈ s.named) :
    ∀ line ∈ a.evicted.insertAll lines, line ∈ s.named := by
  intro line hline
  rcases OrderedSet.mem_insertAll.1 hline with hevicted | hnew
  · exact h.evicted line hevicted
  · exact hlines line hnew

/-- Lines that new ages evict were held. -/
lemma Bounded.evictedBy (h : a.Bounded s) (age : Line → Nat → Nat) :
    ∀ line ∈ a.lines.evictedBy s.geometry age, line ∈ s.named := by
  intro line hline
  obtain ⟨old, hold, _⟩ := AgedLines.mem_evictedBy.1 hline
  exact (h.lines line old hold).1

/-- Bounded descriptions hold named lines only. -/
lemma Bounded.keys (h : a.Bounded s) : ∀ line ∈ a.lines.keys, line ∈ s.named := by
  intro line hline
  obtain ⟨age, hage⟩ := OrderedMap.mem_keys.1 hline
  exact (h.lines line age hage).1

/-- The analysis keeps to named lines. -/
lemma bounded_closed (s : Summary) : s.AbstractClosed (PersistenceCache.Bounded s) where
  start := ⟨AgedLines.bounded_empty, nofun⟩
  merge ha hb := by
    refine ⟨(abstractClosed s).merge ha.lines hb.lines, fun line hline => ?_⟩
    rcases OrderedSet.mem_union.1 hline with hline | hline
    · exact ha.evicted line hline
    · exact hb.evicted line hline
  touch hline ha := ⟨(abstractClosed s).touch hline ha.lines, ha.insertAll (ha.evictedBy _)⟩
  touchUnknown ha := ⟨(abstractClosed s).touchUnknown ha.lines, ha.insertAll (ha.evictedBy _)⟩
  call {c a} hc ha := by
    refine ⟨(abstractClosed s).call hc ha.lines, ?_⟩
    show ∀ line ∈ (if c.effect.unknown then ⟨{}, _⟩ else ⟨_, _⟩ : PersistenceCache).evicted, _
    split
    · exact ha.insertAll ha.keys
    · exact ha.insertAll (ha.evictedBy _)

/-! ### What a visit takes back -/

/-- Nothing of `a` is taken back in `b`: what was evicted stays so, and unless another line is
evicted as well, every line that was held still is, and is not younger. -/
structure RetainedBy (a b : PersistenceCache) : Prop where
  evicted : ∀ line ∈ a.evicted, line ∈ b.evicted
  held : (∀ line ∈ b.evicted, line ∈ a.evicted) → ∀ line age, a.lines.get? line = some age →
    ∃ age' ≥ age, b.lines.get? line = some age'

/-- How many named lines are not evicted. -/
def unevicted (s : Summary) (a : PersistenceCache) : Nat :=
  (s.named.map fun line => if line ∈ a.evicted then 0 else 1).sum

/-- How far a line can still age. -/
def spare (g : Geometry) (a : PersistenceCache) (line : Line) : Nat :=
  g.ways.toNat - (a.lines.get? line).elim 0 (· + 1)

/-- How far the named lines together can still age. -/
def totalSpare (s : Summary) (a : PersistenceCache) : Nat :=
  (s.named.map (a.spare s.geometry)).sum

/-- The ages of as many lines as are named. -/
def spareBound (s : Summary) : Nat :=
  (s.named.map fun _ => s.geometry.ways.toNat).sum

/-- All spare ages together stay below the bound. -/
lemma totalSpare_le (s : Summary) (a : PersistenceCache) : a.totalSpare s ≤ spareBound s :=
  List.sum_le_sum fun _ _ => Nat.sub_le _ _

/-- New evictions count for more than all ages. -/
def rank (s : Summary) (a : PersistenceCache) : Nat :=
  a.unevicted s * (spareBound s + 1) + a.totalSpare s

/-- A line that is evicted as well leaves fewer that are not. -/
lemma unevicted_lt (h : ∀ line ∈ a.evicted, line ∈ b.evicted) {line : Line} (hnamed : line ∈ s.named)
    (hb : line ∈ b.evicted) (ha : line ∉ a.evicted) : b.unevicted s < a.unevicted s := by
  refine List.sum_lt_sum _ _ (fun other _ => ?_) ⟨line, hnamed, by simp [hb, ha]⟩
  by_cases hother : other ∈ a.evicted
  · simp [hother, h other hother]
  · simp only [hother, if_false]
    split <;> omega

/-- A line that is held longer or is older has less to spare. -/
lemma spare_le {g : Geometry} {line : Line}
    (h : ∀ age, a.lines.get? line = some age → ∃ age' ≥ age, b.lines.get? line = some age') :
    b.spare g line ≤ a.spare g line := by
  unfold spare
  cases ha : a.lines.get? line with
  | none => simp
  | some age =>
    obtain ⟨age', hle, hb⟩ := h age ha
    rw [hb]
    simp only [Option.elim_some]
    omega

/-- A line that is held anew or gets older has less to spare. -/
lemma spare_lt (hb : b.Bounded s) {line : Line}
    (h : ∀ age, a.lines.get? line = some age → ∃ age' ≥ age, b.lines.get? line = some age')
    (hne : a.lines.get? line ≠ b.lines.get? line) :
    line ∈ s.named ∧ b.spare s.geometry line < a.spare s.geometry line := by
  cases hage : b.lines.get? line with
  | none =>
    cases ha : a.lines.get? line with
    | none => exact absurd (ha.trans hage.symm) hne
    | some age =>
      obtain ⟨_, _, hb'⟩ := h age ha
      rw [hage] at hb'
      cases hb'
  | some age' =>
    obtain ⟨hnamed, hlt⟩ := hb.lines line age' hage
    refine ⟨hnamed, ?_⟩
    unfold spare
    rw [hage]
    cases ha : a.lines.get? line with
    | none =>
      simp only [Option.elim_some, Option.elim_none]
      omega
    | some age =>
      obtain ⟨age'', hle, hb'⟩ := h age ha
      rw [hage] at hb'
      cases hb'
      have hne' : age ≠ age' := fun heq => hne (by rw [ha, hage, heq])
      simp only [Option.elim_some]
      omega

/-- A description that takes nothing back of another one, and is not the same, ranks below it. -/
lemma RetainedBy.rank_lt (h : a.RetainedBy b) (hb : b.Bounded s) (hne : a ≠ b) :
    b.rank s < a.rank s := by
  have hspare := totalSpare_le s b
  by_cases hevicted : ∀ line ∈ b.evicted, line ∈ a.evicted
  · -- nothing new is evicted, so some line is held longer or is older
    have hsame : a.evicted = b.evicted := OrderedSet.ext_mem fun line =>
      ⟨h.evicted line, hevicted line⟩
    obtain ⟨line, hline⟩ : ∃ line, a.lines.get? line ≠ b.lines.get? line := by
      by_contra hall
      push Not at hall
      exact hne (PersistenceCache.ext (OrderedMap.ext_get? hall) hsame)
    obtain ⟨hnamed, hlt⟩ := spare_lt hb (h.held hevicted line) hline
    have htotal : b.totalSpare s < a.totalSpare s :=
      List.sum_lt_sum _ _ (fun other _ => spare_le (h.held hevicted other)) ⟨line, hnamed, hlt⟩
    have hunevicted : b.unevicted s = a.unevicted s := by rw [unevicted, unevicted, hsame]
    unfold rank
    rw [hunevicted]
    omega
  · push Not at hevicted
    obtain ⟨line, hnew, hold⟩ := hevicted
    have hlt : b.unevicted s < a.unevicted s :=
      unevicted_lt h.evicted (hb.evicted line hnew) hnew hold
    calc
      b.rank s < (b.unevicted s + 1) * (spareBound s + 1) := by
        unfold rank
        rw [Nat.add_mul, Nat.one_mul]
        omega
      _ ≤ a.unevicted s * (spareBound s + 1) := Nat.mul_le_mul_right _ hlt
      _ ≤ a.rank s := Nat.le_add_right _ _

/-- No more lines are unevicted than are named. -/
lemma unevicted_le (s : Summary) (a : PersistenceCache) : a.unevicted s ≤ s.named.length := by
  calc
    a.unevicted s ≤ (s.named.map fun _ => 1).sum := by
      refine List.sum_le_sum fun _ _ => ?_
      split <;> omega
    _ = s.named.length := by simp

end PersistenceCache

namespace State

/-- Nothing of a state is taken back in another. -/
def RetainedBy : State PersistenceCache → State PersistenceCache → Prop
  | .unreached, _ => True
  | .reached _, .unreached => False
  | .reached a, .reached b => a.RetainedBy b

/-- A state takes nothing of itself back. -/
lemma RetainedBy.refl (state : State PersistenceCache) : state.RetainedBy state := by
  cases state with
  | unreached => trivial
  | reached a => exact ⟨fun _ h => h, fun _ _ age h => ⟨age, le_rfl, h⟩⟩

/-- The rank of a state; an unreached one ranks above all others. -/
def persistenceRank (s : Summary) : State PersistenceCache → Nat
  | .unreached => (s.named.length + 1) * (PersistenceCache.spareBound s + 1)
  | .reached a => a.rank s

/-- A state that takes nothing back and is another one ranks lower. -/
lemma RetainedBy.rank_lt {s : Summary} {old new : State PersistenceCache} (h : old.RetainedBy new)
    (hnew : new.Satisfies (PersistenceCache.Bounded s)) (hne : old ≠ new) :
    new.persistenceRank s < old.persistenceRank s := by
  cases new with
  | unreached =>
    cases old with
    | unreached => exact absurd rfl hne
    | reached a => exact absurd h id
  | reached b =>
    cases old with
    | reached a => exact PersistenceCache.RetainedBy.rank_lt h hnew fun heq => hne (heq ▸ rfl)
    | unreached =>
      have hspare := PersistenceCache.totalSpare_le s b
      calc
        b.rank s < (b.unevicted s + 1) * (PersistenceCache.spareBound s + 1) := by
          unfold PersistenceCache.rank
          rw [Nat.add_mul, Nat.one_mul]
          omega
        _ ≤ (s.named.length + 1) * (PersistenceCache.spareBound s + 1) :=
          Nat.mul_le_mul_right _ (Nat.succ_le_succ (b.unevicted_le s))

end State

/-! ### The queue -/

/-- What every visit of the queue keeps: waiting nodes lie in the region, exactly its nodes have
states, and those are bounded. -/
structure Iteration.Orderly (s : Summary) (r : Region) (it : Iteration (State PersistenceCache)) :
    Prop where
  queue : ∀ n ∈ it.queue, n ∈ r.nodes
  covers : it.Covers r
  all : it.All (State.Satisfies (PersistenceCache.Bounded s))

namespace Iteration

variable {s : Summary} {r : Region} {it : Iteration (State PersistenceCache)}

/-- The first iteration is orderly. -/
lemma orderly_start : (start r).Orderly s r := by
  have hstart : ∀ n (state : State PersistenceCache), (start r).outs.get? n = some state →
      state.Satisfies (PersistenceCache.Bounded s) := by
    intro n state hstate
    rw [get?_outs_start] at hstate
    split at hstate
    · cases hstate
      trivial
    · cases hstate
  exact ⟨fun _ hn => hn, Solution.covers_start, hstart, hstart⟩

/-- A step keeps an iteration orderly. -/
lemma Orderly.step (h : it.Orderly s r) : (Iteration.step s r it).Orderly s r := by
  cases hq : it.queue with
  | nil =>
    rw [step_of_nil hq]
    exact h
  | cons n rest =>
    have hn : n ∈ r.nodes := h.queue n (by rw [hq]; exact List.mem_cons_self)
    have hrest : ∀ m ∈ rest, m ∈ r.nodes := fun m hm =>
      h.queue m (by rw [hq]; exact List.mem_cons_of_mem _ hm)
    rw [step_of_cons hq]
    refine ⟨?_, ?_, (PersistenceCache.bounded_closed s).toClosed.visit h.all n rest⟩
    · by_cases hout : it.outs.get? n =
          some (Domain.transferAll s.geometry (meet s r it.outs n) (s.eventsOf n))
      · rw [visit_of_eq hout]
        exact hrest
      · rw [visit_of_ne hout]
        exact mem_nodes_of_mem_enqueueAll hrest
    · rw [toSolution_visit]
      exact h.covers.update hn

/-- Every iteration of the run is orderly. -/
lemma orderly_after (k : Nat) : (after s r k).Orderly s r := by
  induction k with
  | zero => exact orderly_start
  | succ k ih =>
    rw [after_succ]
    exact ih.step

/-- A visit that takes nothing back changes nothing behind the nodes, or lowers the potential. -/
lemma Orderly.outs_step_or (h : it.Orderly s r)
    (retained : ∀ n old new, it.outs.get? n = some old →
      (Iteration.step s r it).outs.get? n = some new → old.RetainedBy new) :
    (Iteration.step s r it).outs = it.outs ∨
      r.potential (State.persistenceRank s) (Iteration.step s r it).outs <
        r.potential (State.persistenceRank s) it.outs := by
  cases hq : it.queue with
  | nil =>
    rw [step_of_nil hq]
    exact .inl rfl
  | cons n rest =>
    have hn : n ∈ r.nodes := h.queue n (by rw [hq]; exact List.mem_cons_self)
    obtain ⟨old, hold⟩ := Option.isSome_iff_exists.1 ((h.covers.outs n).2 hn)
    have houts : (Iteration.step s r it).outs = it.outs.insert n
        (Domain.transferAll s.geometry (meet s r it.outs n) (s.eventsOf n)) := by
      rw [step_of_cons hq, toSolution_visit, Solution.outs_update]
    have hvalid := h.step.all.outs n
    rw [houts] at retained hvalid ⊢
    have hnew := (OrderedMap.get?_insert it.outs n n
      (Domain.transferAll s.geometry (meet s r it.outs n) (s.eventsOf n))).trans (if_pos rfl)
    by_cases heq : old = Domain.transferAll s.geometry (meet s r it.outs n) (s.eventsOf n)
    · refine .inl (OrderedMap.ext_get? fun m => ?_)
      rw [OrderedMap.get?_insert]
      split
      · rename_i hm
        rw [hm, hold, heq]
      · rfl
    · exact .inr (Region.potential_insert_lt hn hold
        ((retained n old _ hold hnew).rank_lt (hvalid _ hnew) heq))

end Iteration

/-- The analysis of persistent lines ends exactly if from some visit on nothing is taken back. -/
theorem Solution.persistence_ends_iff (s : Summary) (r : Region) :
    (∃ (bound : Nat) (solution : Solution (State PersistenceCache)),
      ∀ fuel ≥ bound, Solution.solve? fuel s r = some solution) ↔
    ∃ k, ∀ j ≥ k, ∀ (n : Nat) (old new : State PersistenceCache),
      (Iteration.after s r j).outs.get? n = some old →
      (Iteration.after s r (j + 1)).outs.get? n = some new → old.RetainedBy new := by
  rw [Solution.exists_solve?_iff]
  constructor
  · rintro ⟨k, hk⟩
    -- once nobody waits, nothing changes any more
    have hstill : ∀ j ≥ k, (Iteration.after s r j : Iteration (State PersistenceCache)) =
        Iteration.after s r k := by
      intro j hj
      induction j, hj using Nat.le_induction with
      | base => rfl
      | succ j _ ih => rw [Iteration.after_succ, ih, Iteration.step_of_nil hk]
    refine ⟨k, fun j hj n old new hold hnew => ?_⟩
    rw [hstill j hj] at hold
    rw [hstill (j + 1) (Nat.le_succ_of_le hj), hold] at hnew
    cases hnew
    exact .refl old
  · rintro ⟨k, retained⟩
    obtain ⟨rest, hrest⟩ := exists_rest (f := fun i => (Iteration.after s r (k + i)).outs)
      (r.potential (State.persistenceRank s)) fun i => by
        have hretained := retained (k + i) (Nat.le_add_right k i)
        rw [← Nat.add_assoc, Iteration.after_succ]
        rw [Iteration.after_succ] at hretained
        exact (Iteration.orderly_after (k + i)).outs_step_or hretained
    refine Iteration.exists_queue_nil (k := k + rest) fun j hj => ?_
    have hj' := hrest (j - k) (by omega)
    rwa [show k + (j - k + 1) = j + 1 by omega, show k + (j - k) = j by omega] at hj'

/-! ### A loop that swings -/

namespace Iteration

variable {S : Type} [Domain S] [DecidableEq S] {s : Summary} {r : Region} {it it' : Iteration S}

/-- Two iterations that differ at most in the number of visits made. -/
structure Alike (it it' : Iteration S) : Prop where
  ins : it.ins = it'.ins
  outs : it.outs = it'.outs
  queue : it.queue = it'.queue

instance : Decidable (Alike it it') :=
  decidable_of_iff (it.ins = it'.ins ∧ it.outs = it'.outs ∧ it.queue = it'.queue)
    ⟨fun ⟨hins, houts, hqueue⟩ => ⟨hins, houts, hqueue⟩, fun h => ⟨h.ins, h.outs, h.queue⟩⟩

/-- Steps keep iterations alike. -/
lemma Alike.step (h : it.Alike it') : (Iteration.step s r it).Alike (Iteration.step s r it') := by
  obtain ⟨⟨ins, outs, visits⟩, queue⟩ := it
  obtain ⟨⟨ins', outs', visits'⟩, queue'⟩ := it'
  obtain ⟨hins, houts, hqueue⟩ := h
  simp only at hins houts hqueue
  subst hins houts hqueue
  cases queue with
  | nil => exact ⟨rfl, rfl, rfl⟩
  | cons n rest =>
    simp only [Iteration.step, visit]
    split <;> exact ⟨rfl, rfl, rfl⟩

/-- An iteration that comes back to where it was while nodes wait never ends. -/
lemma queue_ne_nil_of_alike {k period : Nat} (hperiod : 0 < period)
    (alike : (after s r (k + period) : Iteration S).Alike (after s r k))
    (waiting : ∀ j < k + period, (after s r j : Iteration S).queue ≠ []) (j : Nat) :
    (after s r j : Iteration S).queue ≠ [] := by
  have back (i : Nat) : (after s r (k + i + period) : Iteration S).Alike (after s r (k + i)) := by
    induction i with
    | zero => exact alike
    | succ i ih =>
      have hstep := ih.step (s := s) (r := r)
      rw [← after_succ, ← after_succ] at hstep
      rwa [show k + (i + 1) + period = k + i + period + 1 by omega]
  induction j using Nat.strong_induction_on with
  | _ j ih =>
    rcases Nat.lt_or_ge j (k + period) with hlt | hge
    · exact waiting j hlt
    · have hback := (back (j - period - k)).queue
      rw [show k + (j - period - k) + period = j by omega,
        show k + (j - period - k) = j - period by omega] at hback
      rw [hback]
      exact ih (j - period) (by omega)

end Iteration

/-- A loop whose body loads line 0 or accesses a line that is not known, in a set of two ways. -/
def Summary.swingingLoop : Summary where
  geometry := .twoWays
  predecessors := [[1, 2], [0], [0]]
  successors := [[1, 2], [0], [0]]
  entries := [0]
  events := [[],
    [.access ⟨⟨1, 4, .data⟩, .lines [0], .always, none⟩],
    [.access ⟨⟨2, 8, .data⟩, .unknown, .always, none⟩]]
  coldStart := true

/-- In the loop, line 0 is evicted along one branch and loaded afresh along the other, so that its
age at the header swings between 0 and 1 for ever. -/
theorem Solution.persistence_never_ends_swingingLoop :
    Summary.swingingLoop.Transposed ∧ ∀ fuel, Solution.solve? fuel .swingingLoop ⟨.below 3, [0]⟩ =
      (none : Option (Solution (State PersistenceCache))) := by
  constructor
  · unfold Summary.Transposed
    decide
  · intro fuel
    have alike : (Iteration.after .swingingLoop ⟨.below 3, [0]⟩ (16 + 6) :
        Iteration (State PersistenceCache)).Alike (.after .swingingLoop ⟨.below 3, [0]⟩ 16) := by
      decide +kernel
    have waiting : ∀ j < 16 + 6, (Iteration.after .swingingLoop ⟨.below 3, [0]⟩ j :
        Iteration (State PersistenceCache)).queue ≠ [] := by
      decide +kernel
    refine Option.eq_none_iff_forall_ne_some.2 fun solution solved => ?_
    exact Iteration.queue_ne_nil_of_alike (by decide) alike waiting fuel
      (Iteration.run_eq_some_iff.1 solved).1

end CacheVerdict
