import CacheVerdict.Proofs.Cache.MaySound
import CacheVerdict.Proofs.Cache.MustSound
import CacheVerdict.Proofs.Flow.Simulation

/-!
# Both analyses speak of one cache

What must and what may be cached are analysed one after the other, over the same events. A node is
reached by either of them exactly if edges lead to it from an entry (`Solution.isReached_inOf_iff`).
Along those edges one concrete cache can be taken that both describe, because every event may touch
some line, or none (`Summary.Ends.exists_common`). So no access is at once said to hit and said to
miss (`Summary.Ends.not_hits_of_misses`), in whichever order the two are asked
(`Access.classify_eq_classifyMissFirst`).
-/

namespace CacheVerdict

/-- The solutions that both analyses of a procedure end with. -/
structure Summary.Ends (s : Summary) (must : Solution (State MustCache))
    (may : Solution (State MayCache)) : Prop where
  must : ∃ fuel, Solution.solve? fuel s (.whole s) = some must
  may : ∃ fuel, Solution.solve? fuel s (.whole s) = some may

/-- Both analyses end. -/
lemma Summary.exists_ends (s : Summary) : ∃ must may, s.Ends must may := by
  obtain ⟨bound, must, hmust⟩ := MustCache.exists_solve? s (.whole s)
  obtain ⟨bound', may, hmay⟩ := MayCache.exists_solve? s (.whole s)
  exact ⟨must, may, ⟨bound, hmust bound le_rfl⟩, ⟨bound', hmay bound' le_rfl⟩⟩

/-- Events stand only at nodes of the procedure. -/
lemma Summary.eventsOf_eq_nil {s : Summary} {n : Nat} (h : n ∉ (Region.whole s).nodes) :
    s.eventsOf n = [] := by
  have hlength : s.events.length ≤ n := Nat.le_of_not_lt fun hlt => h (OrderedSet.mem_below.2 hlt)
  rw [eventsOf, List.getElem?_eq_none hlength, Option.getD_none]

/-- The classification of the access at a place, from the states before it. -/
def Summary.classAt? (s : Summary) (must : Solution (State MustCache))
    (may : Solution (State MayCache)) (n i : Nat) : Option Classification :=
  match (s.eventsOf n)[i]?, (must.beforeEvents s n)[i]?, (may.beforeEvents s n)[i]? with
  | some (.access a), some must, some may => some (a.classify must may)
  | _, _, _ => none

/-- An access has the classification of the states before it. -/
lemma Summary.classAt?_eq {s : Summary} {must : Solution (State MustCache)}
    {may : Solution (State MayCache)} {n i : Nat} {a : Access}
    (h : (s.eventsOf n)[i]? = some (.access a)) :
    s.classAt? must may n i = some (a.classify (must.stateAt s n i) (may.stateAt s n i)) := by
  unfold classAt?
  rw [Solution.getElem?_beforeEvents h, Solution.getElem?_beforeEvents h, h]

/-- Only accesses are classified. -/
lemma Summary.exists_access_of_classAt? {s : Summary} {must : Solution (State MustCache)}
    {may : Solution (State MayCache)} {n i : Nat} {c : Classification}
    (h : s.classAt? must may n i = some c) :
    ∃ a, (s.eventsOf n)[i]? = some (.access a) ∧
      a.classify (must.stateAt s n i) (may.stateAt s n i) = c := by
  cases hevent : (s.eventsOf n)[i]? with
  | none => simp [classAt?, hevent] at h
  | some e =>
    cases e with
    | call => simp [classAt?, hevent] at h
    | access a =>
      rw [classAt?_eq hevent] at h
      exact ⟨a, rfl, Option.some.inj h⟩

/-- An access hits if it is made to known lines that must be cached. -/
lemma Access.classify_eq_alwaysHit {a : Access} {must : State MustCache} {may : State MayCache} :
    a.classify must may = .alwaysHit ↔ ∃ lines, a.target = .lines lines ∧ MustCache.hits must lines := by
  unfold classify
  split
  · simp_all
  · rename_i lines htarget
    split
    · simp_all
    · split <;> simp_all

/-- An access misses if it is made to known lines that cannot be cached. -/
lemma Access.classify_eq_alwaysMiss {a : Access} {must : State MustCache} {may : State MayCache} :
    a.classify must may = .alwaysMiss ↔
      ∃ lines, a.target = .lines lines ∧ ¬ MustCache.hits must lines ∧ MayCache.misses may lines := by
  unfold classify
  split
  · simp_all
  · rename_i lines htarget
    split
    · simp_all
    · split <;> simp_all

/-! ### Reached nodes -/

/-- The nodes of a region that edges lead to from its entries. -/
inductive Summary.Reaches (s : Summary) (r : Region) : Nat → Prop where
  | entry {n : Nat} : n ∈ r.entries → n ∈ r.nodes → Reaches s r n
  | edge {p n : Nat} : Reaches s r p → p ∈ s.predecessorsOf n → n ∈ r.nodes → Reaches s r n

/-- Nodes that are reached lie in the region. -/
lemma Summary.Reaches.mem_nodes {s : Summary} {r : Region} {n : Nat} (h : s.Reaches r n) :
    n ∈ r.nodes := by
  cases h with
  | entry _ hn => exact hn
  | edge _ _ hn => exact hn

section

variable {σ : Type} [Abstraction σ]

/-- Whether some path arrives. -/
def State.IsReached : State σ → Prop
  | .unreached => False
  | .reached _ => True

omit [Abstraction σ] in
/-- A state is reached if it describes some cache. -/
lemma State.isReached_iff {t : State σ} : t.IsReached ↔ ∃ a, t = .reached a := by
  cases t <;> simp [IsReached]

/-- Where paths meet, one that is reached is enough. -/
lemma State.isReached_join {t u : State σ} :
    (Domain.join t u).IsReached ↔ t.IsReached ∨ u.IsReached := by
  cases t <;> cases u <;> simp [Domain.join, join, IsReached]

/-- An access does not change whether a state is reached. -/
lemma State.isReached_access {g : Geometry} {target : Target} {t : State σ} :
    (Domain.access g target t).IsReached ↔ t.IsReached := by
  cases t with
  | unreached => rw [access_unreached]
  | reached a =>
    match target with
    | .unknown | .lines [] | .lines [_] | .lines (_ :: _ :: _) => rfl

/-- Events neither reach nor leave a node. -/
lemma State.isReached_transfer {g : Geometry} {e : Event} {t : State σ} :
    (Domain.transfer g t e).IsReached ↔ t.IsReached := by
  cases e with
  | call => cases t <;> rfl
  | access a =>
    simp only [Domain.transfer]
    split
    · exact isReached_access
    · rw [isReached_join, isReached_access, or_self]
    · rfl

/-- Events do not change whether a state is reached. -/
lemma State.isReached_transferAll {g : Geometry} {events : List Event} {t : State σ} :
    (Domain.transferAll g t events).IsReached ↔ t.IsReached := by
  induction events generalizing t with
  | nil => rfl
  | cons e events ih => exact ih.trans isReached_transfer

/-- Visits reach only nodes that edges lead to. -/
lemma Summary.keeps_reaches (s : Summary) (r : Region) :
    s.Keeps r (fun n (t : State σ) => t.IsReached → s.Reaches r n)
      (fun n t => t.IsReached → s.Reaches r n) where
  bottom _ := ⟨False.elim, False.elim⟩
  start _ hentry hn _ := .entry hentry hn
  join ha hb h := (State.isReached_join.1 h).elim ha hb
  edge _ hn hp hout h := .edge (hout h) hp hn
  node _ hin h := hin (State.isReached_transferAll.1 h)

/-- States that satisfy the flow equations are reached wherever edges lead to. -/
lemma Solution.Settled.of_reaches {s : Summary} {r : Region} {solution : Solution (State σ)}
    (settled : solution.Settled s r) {n : Nat} (h : s.Reaches r n) : (solution.inOf n).IsReached := by
  have left {t u : State σ} (ht : t.IsReached) : (Domain.join t u).IsReached :=
    State.isReached_join.2 (.inl ht)
  have right {t u : State σ} (hu : u.IsReached) : (Domain.join t u).IsReached :=
    State.isReached_join.2 (.inr hu)
  induction h with
  | entry hentry hn => exact settled.of_entry left right hn hentry trivial
  | edge hp hpred hn ih =>
    refine settled.of_pred left right hn hp.mem_nodes hpred ?_
    rw [settled.outOf_eq hp.mem_nodes]
    exact State.isReached_transferAll.2 ih

/-- An analysis reaches the nodes that edges lead to. -/
theorem Solution.isReached_inOf_iff [DecidableEq σ] {s : Summary} {r : Region} {fuel : Nat}
    {solution : Solution (State σ)} (linked : s.Linked r)
    (solved : Solution.solve? fuel s r = some solution) {n : Nat} :
    (solution.inOf n).IsReached ↔ s.Reaches r n :=
  ⟨((s.keeps_reaches r).of_solve? solved n).1, (settled_of_solve? linked solved).of_reaches⟩

/-- So it is before each of their events. -/
lemma Solution.isReached_stateAt_iff [DecidableEq σ] {s : Summary} {r : Region} {fuel : Nat}
    {solution : Solution (State σ)} (linked : s.Linked r)
    (solved : Solution.solve? fuel s r = some solution) {n i : Nat} :
    (solution.stateAt s n i).IsReached ↔ s.Reaches r n :=
  State.isReached_transferAll.trans (isReached_inOf_iff linked solved)

end

/-! ### A cache that both describe -/

/-- A line that an access to the target may touch, if there is one. -/
def Target.sample : Target → List Line
  | .unknown => [0]
  | .lines candidates => candidates.head?.toList

/-- One thing that an event may do to a cache: an access that may arrive is made, and a call touches
nothing. -/
def Event.sample : Event → List Line
  | .access a => if a.reach = .never then [] else a.target.sample
  | .call _ => []

/-- A description that touches keep, and calls that touch nothing, is kept by what an event may do. -/
lemma Joins.holds_sample {σ : Type} [Abstraction σ] [LawfulAbstraction σ] {g : Geometry}
    {D : σ → LruCache g → List Touched → Prop} (joins : Joins D) {a : σ} {c : LruCache g} (e : Event)
    (h : D a c []) (touch : ∀ line, D (Abstraction.touch g line a) (c.touch line) [])
    (unknown : D (Abstraction.touchUnknown g a) (c.touch 0) [])
    (call : ∀ call, D (Abstraction.call g call a) c []) :
    (Domain.transfer g (State.reached a) e).Holds D (c.touchAll e.sample) [] := by
  have made (target : Target) : (Domain.access g target (State.reached a)).Holds D
      (c.touchAll target.sample) [] := by
    cases target with
    | unknown => exact unknown
    | lines lines =>
      cases lines with
      | nil => exact h
      | cons line lines => exact joins.holds_access List.mem_cons_self (touch line)
  cases e with
  | call c => exact call c
  | access access =>
    cases hreach : access.reach with
    | always =>
      simp only [Domain.transfer, Event.sample, hreach, reduceCtorEq, if_false]
      exact made access.target
    | uncertain =>
      simp only [Domain.transfer, Event.sample, hreach, reduceCtorEq, if_false]
      exact joins.join_right (made access.target)
    | never =>
      simp only [Domain.transfer, Event.sample, hreach, if_true]
      exact h

/-- A call that touches nothing leaves the bounds true, however far it raises them. -/
lemma MustCache.Describes.call_nil {g : Geometry} {a : MustCache} {c : LruCache g}
    (h : a.Describes c) (call : Call) : (Abstraction.call g call a : MustCache).Describes c := by
  show (if call.effect.unknown then {} else
    ⟨a.lines.reage g (AgedLines.calledAge g call)⟩ : MustCache).Describes _
  split
  case isTrue => exact describes_empty
  case isFalse =>
    intro line age hget
    have hget : (a.lines.reage g (AgedLines.calledAge g call)).get? line = some age := hget
    rw [AgedLines.reage, OrderedMap.get?_filterMap] at hget
    obtain ⟨old, hold, hnew⟩ := Option.bind_eq_some_iff.1 hget
    split at hnew
    case isFalse => cases hnew
    case isTrue =>
      cases hnew
      exact ⟨(h line old hold).1, (h line old hold).2.trans (Nat.le_add_right _ _)⟩

/-- Both states are reached and describe one cache. -/
def State.Common {g : Geometry} (must : State MustCache) (may : State MayCache) (c : LruCache g) :
    Prop :=
  must.Holds (fun a c _ => a.Describes c) c [] ∧ may.Holds (fun a c _ => a.Describes c) c []

/-- What an event may do keeps a cache that both states describe. -/
lemma State.Common.transfer {g : Geometry} {must : State MustCache} {may : State MayCache}
    {c : LruCache g} (h : must.Common may c) (e : Event) :
    (Domain.transfer g must e).Common (Domain.transfer g may e) (c.touchAll e.sample) := by
  obtain ⟨hmust, hmay⟩ := h
  obtain ⟨a, rfl, ha⟩ := hmust.exists_reached
  obtain ⟨b, rfl, hb⟩ := hmay.exists_reached
  have hcall (call : Call) : (Abstraction.call g call b : MayCache).Describes (c.touchAll []) :=
    hb.call nofun
  exact ⟨MustCache.joins_describes.holds_sample e ha (fun _ => ha.touch) ha.touchUnknown ha.call_nil,
    MayCache.joins_describes.holds_sample e hb (fun _ => hb.touch)
      (MayCache.describes_of_saturated rfl) hcall⟩

/-- A cache that both descriptions allow leads to one that both allow after the events. -/
lemma State.Common.exists_transferAll {g : Geometry} {must : State MustCache} {may : State MayCache}
    {c : LruCache g} (h : must.Common may c) (events : List Event) :
    ∃ c' : LruCache g, (Domain.transferAll g must events).Common (Domain.transferAll g may events) c' := by
  induction events generalizing must may c with
  | nil => exact ⟨c, h⟩
  | cons e events ih => exact ih (h.transfer e)

namespace Summary.Ends

variable {s : Summary} {must : Solution (State MustCache)} {may : Solution (State MayCache)}

/-- The analysis of what must be cached has settled. -/
lemma settledMust (ends : s.Ends must may) (linked : s.Linked (.whole s)) :
    must.Settled s (.whole s) := by
  obtain ⟨fuel, solved⟩ := ends.must
  exact Solution.settled_of_solve? linked solved

/-- The analysis of what may be cached has settled. -/
lemma settledMay (ends : s.Ends must may) (linked : s.Linked (.whole s)) :
    may.Settled s (.whole s) := by
  obtain ⟨fuel, solved⟩ := ends.may
  exact Solution.settled_of_solve? linked solved

/-- At every node that edges lead to, both analyses describe one cache. -/
lemma exists_common (ends : s.Ends must may) (linked : s.Linked (.whole s)) {n : Nat}
    (h : s.Reaches (.whole s) n) :
    ∃ c : LruCache s.geometry, (must.inOf n).Common (may.inOf n) c := by
  have settled := ends.settledMust linked
  have settled' := ends.settledMay linked
  induction h with
  | entry hentry hn =>
    refine ⟨LruCache.empty s.geometry, ?_⟩
    rw [settled.inOf_eq hn, settled'.inOf_eq hn]
    exact ⟨MustCache.joins_describes.holds_meet_entry hentry MustCache.describes_empty,
      MayCache.joins_describes.holds_meet_entry hentry (MayCache.describes_start fun _ => rfl)⟩
  | @edge p n hp hpred hn ih =>
    -- the cache that is taken to the end of the predecessor arrives here
    obtain ⟨c, hc⟩ := ih
    obtain ⟨c', hmust, hmay⟩ := hc.exists_transferAll (s.eventsOf p)
    rw [← settled.outOf_eq hp.mem_nodes] at hmust
    rw [← settled'.outOf_eq hp.mem_nodes] at hmay
    refine ⟨c', ?_⟩
    rw [settled.inOf_eq hn, settled'.inOf_eq hn]
    exact ⟨MustCache.joins_describes.holds_meet_of_mem hpred (settled.get?_outs hp.mem_nodes) hmust,
      MayCache.joins_describes.holds_meet_of_mem hpred (settled'.get?_outs hp.mem_nodes) hmay⟩

/-- Before an event, lines that are said to be absent are not said to be cached. -/
theorem not_hits_of_misses (ends : s.Ends must may) (linked : s.Linked (.whole s)) {n i : Nat}
    {lines : List Line} (misses : MayCache.misses (may.stateAt s n i) lines = true) :
    ¬ MustCache.hits (must.stateAt s n i) lines = true := by
  intro hits
  obtain ⟨fuel, solved⟩ := ends.must
  have hreached : (must.stateAt s n i).IsReached := by
    cases hstate : must.stateAt s n i with
    | unreached =>
      rw [hstate] at hits
      cases hits
    | reached => trivial
  obtain ⟨c, hc⟩ :=
    ends.exists_common linked ((Solution.isReached_stateAt_iff linked solved).1 hreached)
  obtain ⟨c', hmust, hmay⟩ := hc.exists_transferAll ((s.eventsOf n).take i)
  obtain ⟨a, ha, hmust⟩ := hmust.exists_reached
  obtain ⟨b, hb, hmay⟩ := hmay.exists_reached
  have hits : MustCache.hits (.reached a) lines = true := ha ▸ hits
  have misses : MayCache.misses (.reached b) lines = true := hb ▸ misses
  -- some line is asked for, and it would have to be cached and not to be
  cases lines with
  | nil => cases hits
  | cons line lines =>
    exact hmay.not_mem_of_misses misses List.mem_cons_self
      (hmust.mem_of_hits hits List.mem_cons_self)

end Summary.Ends

/-! ### The order of the questions -/

/-- The classification of an access that first asks whether it misses. -/
def Access.classifyMissFirst (a : Access) (must : State MustCache) (may : State MayCache) :
    Classification :=
  match a.target with
  | .unknown => .notClassified
  | .lines lines =>
    if MayCache.misses may lines then .alwaysMiss
    else if MustCache.hits must lines then .alwaysHit
    else .notClassified

/-- Where no lines are both said to be cached and said to be absent, it does not matter which is
asked first. -/
lemma Access.classify_eq_classifyMissFirst (a : Access) {must : State MustCache}
    {may : State MayCache}
    (h : ∀ lines, ¬ (MustCache.hits must lines = true ∧ MayCache.misses may lines = true)) :
    a.classify must may = a.classifyMissFirst must may := by
  unfold classify classifyMissFirst
  cases a.target with
  | unknown => rfl
  | lines lines =>
    simp only
    by_cases hits : MustCache.hits must lines = true
    · rw [if_pos hits, if_neg fun misses => h lines ⟨hits, misses⟩, if_pos hits]
    · rw [if_neg hits, if_neg hits]

/-- Both analyses end. Before every event either of them is reached exactly if edges lead to the
node from an entry, and no lines are both said to be cached and said to be absent, so that an access
is classified alike whichever is asked first. -/
theorem Solution.verdicts_exclusive (s : Summary) (transposed : s.Transposed) :
    (∃ must may, s.Ends must may) ∧
    ∀ must may, s.Ends must may → ∀ (n i : Nat) (e : Event), (s.eventsOf n)[i]? = some e →
      ∃ (known : State MustCache) (possible : State MayCache),
        (must.beforeEvents s n)[i]? = some known ∧ (may.beforeEvents s n)[i]? = some possible ∧
        (known.IsReached ↔ s.Reaches (.whole s) n) ∧
        (possible.IsReached ↔ s.Reaches (.whole s) n) ∧
        (∀ lines, ¬ (MustCache.hits known lines = true ∧ MayCache.misses possible lines = true)) ∧
        ∀ access : Access,
          access.classify known possible = access.classifyMissFirst known possible := by
  have linked : s.Linked (.whole s) := transposed.linked fun _ => OrderedSet.mem_below.1
  refine ⟨s.exists_ends, ?_⟩
  intro must may ends n i e hevent
  obtain ⟨fuel, solved⟩ := ends.must
  obtain ⟨fuel', solved'⟩ := ends.may
  have exclusive : ∀ lines, ¬ (MustCache.hits (must.stateAt s n i) lines = true ∧
      MayCache.misses (may.stateAt s n i) lines = true) := by
    rintro lines ⟨hits, misses⟩
    exact ends.not_hits_of_misses linked misses hits
  refine ⟨must.stateAt s n i, may.stateAt s n i, getElem?_beforeEvents hevent,
    getElem?_beforeEvents hevent, isReached_stateAt_iff linked solved,
    isReached_stateAt_iff linked solved', exclusive, ?_⟩
  intro access
  exact access.classify_eq_classifyMissFirst exclusive

/-- An access to lines 0 and 2 of a set of one way behind an access to line 0, with a second way to
it from a node that nothing leads to. -/
def Summary.deadBranch : Summary where
  geometry := .oneWay
  predecessors := [[], [0, 2], []]
  successors := [[1], [], [1]]
  entries := [0]
  events := [[.access ⟨⟨0, 0, .data⟩, .lines [0], .always, none⟩],
    [.access ⟨⟨1, 4, .data⟩, .lines [0, 2], .always, none⟩],
    [.access ⟨⟨2, 8, .data⟩, .unknown, .always, none⟩]]
  coldStart := true

/-- Both analyses reach the access that the entry leads to, and neither reaches the other. -/
theorem Solution.verdicts_exclusive_deadBranch :
    Summary.deadBranch.Transposed ∧ ∃ must may, Summary.deadBranch.Ends must may ∧
      (∃ known possible, (must.beforeEvents .deadBranch 1)[0]? = some (.reached known) ∧
        (may.beforeEvents .deadBranch 1)[0]? = some (.reached possible) ∧
        ∀ lines, ¬ (MustCache.hits (.reached known) lines = true ∧
          MayCache.misses (.reached possible) lines = true)) ∧
      (must.beforeEvents .deadBranch 2)[0]? = some .unreached ∧
      (may.beforeEvents .deadBranch 2)[0]? = some .unreached := by
  have transposed : Summary.deadBranch.Transposed := by
    unfold Summary.Transposed
    decide
  have reaches : Summary.deadBranch.Reaches (.whole .deadBranch) 1 :=
    .edge (.entry (n := 0) (by decide) (by decide)) (by decide) (by decide)
  have unreached : ¬ Summary.deadBranch.Reaches (.whole .deadBranch) 2 := by
    intro h
    cases h with
    | entry hentry => exact absurd hentry (by decide)
    | edge _ hpred => exact absurd hpred (by simp [Summary.predecessorsOf, Summary.deadBranch])
  obtain ⟨⟨must, may, ends⟩, exclusive⟩ := verdicts_exclusive .deadBranch transposed
  obtain ⟨known, possible, hknown, hpossible, hreached, hreached', hnot, _⟩ :=
    exclusive must may ends 1 0 _ rfl
  obtain ⟨known', possible', hknown', hpossible', hreached₂, hreached₂', _, _⟩ :=
    exclusive must may ends 2 0 _ rfl
  obtain ⟨a, rfl⟩ := State.isReached_iff.1 (hreached.2 reaches)
  obtain ⟨b, rfl⟩ := State.isReached_iff.1 (hreached'.2 reaches)
  have never {σ : Type} {t : State σ} (h : t.IsReached ↔
      Summary.deadBranch.Reaches (.whole .deadBranch) 2) : t = .unreached := by
    cases t with
    | unreached => rfl
    | reached => exact absurd (h.1 trivial) unreached
  refine ⟨transposed, must, may, ends, ⟨a, b, hknown, hpossible, hnot⟩, ?_, ?_⟩
  · rw [hknown', never hreached₂]
  · rw [hpossible', never hreached₂']

end CacheVerdict
