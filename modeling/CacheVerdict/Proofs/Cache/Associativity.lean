import CacheVerdict.Proofs.Cache.Agreement
import CacheVerdict.Proofs.Cache.Convergence

/-!
# More ways

A cache with more ways in the same sets holds the lines of the smaller one at the same ages, and
older lines besides. Descriptions follow: dropping the lines that are too old for the smaller cache
commutes with accesses, calls and meets (`Truncates`), and therefore with the whole analysis
(`analyses_restrict`). What hits in the smaller cache hits in the larger one, and what misses in the
larger one misses in the smaller one.
-/

namespace CacheVerdict

/-- The sets are the same, and the second geometry has no fewer ways. -/
structure Geometry.Widens (g g' : Geometry) : Prop where
  sets : g'.sets = g.sets
  ways : g.ways ≤ g'.ways

/-- Wider caches put each line into the same set. -/
lemma Geometry.Widens.setOf {g g' : Geometry} (h : g.Widens g') (line : Line) :
    g'.setOf line = g.setOf line := by
  rw [Geometry.setOf, h.sets, Geometry.setOf]

/-- The same events in another cache. -/
def Summary.inCache (s : Summary) (g : Geometry) : Summary :=
  { s with geometry := g }

/-- Another cache sees the same events. -/
lemma Summary.eventsOf_inCache {s : Summary} {g : Geometry} {n : Nat} :
    (s.inCache g).eventsOf n = s.eventsOf n := rfl

/-- Calls conflict in a wider cache as they do in the narrower one. -/
lemma Call.conflicts_congr {g g' : Geometry} (h : g.Widens g') (c : Call) (line : Line) :
    c.conflicts g' (g'.setOf line) line = c.conflicts g (g.setOf line) line := by
  simp only [conflicts, h.setOf]

namespace AgedLines

variable {g g' : Geometry} {a b : AgedLines} {line : Line}

/-- The lines that are young enough for the geometry, at their ages. -/
def restrict (g : Geometry) (a : AgedLines) : AgedLines :=
  a.filterMap fun _ age => if age < g.ways.toNat then some age else none

/-- Restricting lines to fewer ways keeps the ages that these have room for. -/
lemma ageOf_restrict : (a.restrict g).ageOf line = cap g (a.ageOf line) := by
  refine (ageOf_reage (f := fun _ age => age)).trans ?_
  cases h : a.get? line with
  | none =>
    rw [ageOf_eq_top h]
    simp [cap]
  | some age =>
    rw [ageOf_of_get? h]
    rfl

/-- An age that is not kept does not come back by ageing. -/
lemma cap_add (age more : ℕ∞) : cap g (cap g age + more) = cap g (age + more) := by
  by_cases hage : age < g.ways.toNat
  · rw [cap.eq_def g age, if_pos hage]
  · have hmore : ¬ age + more < g.ways.toNat := fun hlt => hage (lt_of_le_of_lt le_self_add hlt)
    rw [cap.eq_def g age, if_neg hage, top_add, cap, cap, if_neg hmore, if_neg (not_lt.2 le_top)]

/-- A touched line that the smaller cache does not hold was older there than every line it holds, so
that these age in both caches. -/
lemma cap_bump (ties : Bool) (own age : ℕ∞) :
    cap g (bump ties (cap g own) (cap g age)) = cap g (bump ties own age) := by
  by_cases hage : age < g.ways.toNat
  · rw [cap.eq_def g age, if_pos hage]
    by_cases hown : own < g.ways.toNat
    · rw [cap.eq_def g own, if_pos hown]
    · have hlt : age < own := hage.trans_le (not_lt.1 hown)
      have hlt' : age < ⊤ := hlt.trans_le le_top
      rw [cap.eq_def g own, if_neg hown]
      cases ties with
      | true => simp only [bump, if_pos hlt.le, if_pos hlt'.le]
      | false => simp only [bump, if_pos hlt, if_pos hlt']
  · have hbump : ¬ bump ties own age < g.ways.toNat :=
      fun hlt => hage (lt_of_le_of_lt (le_bump ties own age) hlt)
    rw [cap.eq_def g age, if_neg hage, bump_top, cap, cap, if_neg hbump, if_neg (not_lt.2 le_top)]

/-- Restricting commutes with touching a line. -/
lemma restrict_touch (h : g.Widens g') (ties : Bool) (line : Line) (a : AgedLines) :
    (a.touch g' ties line).restrict g = (a.restrict g).touch g ties line := by
  refine ageOf_injective (funext fun other => ?_)
  simp only [ageOf_restrict, ageOf_touch, h.setOf]
  split
  · exact cap_zero
  · rw [cap_cap h.ways]
    split
    · rw [cap_bump]
    · rw [cap_cap (UInt32.le_refl _)]

/-- Restricting commutes with an access to an unknown line. -/
lemma restrict_reage_shifted (h : g.Widens g') (a : AgedLines) :
    (a.reage g' shiftedAge).restrict g = (a.restrict g).reage g shiftedAge := by
  refine ageOf_injective (funext fun line => ?_)
  rw [ageOf_restrict, ageOf_reage_shifted, ageOf_reage_shifted, ageOf_restrict, cap_cap h.ways,
    cap_add]

/-- Restricting commutes with a call. -/
lemma restrict_reage_called (h : g.Widens g') (c : Call) (a : AgedLines) :
    (a.reage g' (calledAge g' c)).restrict g = (a.restrict g).reage g (calledAge g c) := by
  refine ageOf_injective (funext fun line => ?_)
  rw [ageOf_restrict, ageOf_reage_called, ageOf_reage_called, ageOf_restrict, cap_cap h.ways,
    cap_add, Call.conflicts_congr h]

/-- Restricting commutes with the meet of lines that must be cached. -/
lemma restrict_interWith : restrict g (a.interWith max b) =
    (a.restrict g).interWith max (b.restrict g) := by
  refine ageOf_injective (funext fun line => ?_)
  rw [ageOf_restrict, ageOf_interWith, ageOf_interWith, ageOf_restrict, ageOf_restrict]
  exact (cap_mono g).map_max

/-- Restricting commutes with the meet of lines that may be cached. -/
lemma restrict_unionWith : restrict g (a.unionWith min b) =
    (a.restrict g).unionWith min (b.restrict g) := by
  refine ageOf_injective (funext fun line => ?_)
  rw [ageOf_restrict, ageOf_unionWith, ageOf_unionWith, ageOf_restrict, ageOf_restrict]
  exact (cap_mono g).map_min

/-- Restricting commutes with adding the lines of a call. -/
lemma restrict_unionWith_ofSet {lines : OrderedSet Line} :
    restrict g (a.unionWith (fun _ youngest => youngest) (.ofSet lines 0)) =
      (a.restrict g).unionWith (fun _ youngest => youngest) (.ofSet lines 0) := by
  refine ageOf_injective (funext fun line => ?_)
  rw [ageOf_restrict, ageOf_unionWith_ofSet, ageOf_unionWith_ofSet, ageOf_restrict]
  split
  · exact cap_zero
  · rfl

/-- A line that the smaller cache holds is held by the larger one. -/
lemma contains_of_contains_restrict (h : (a.restrict g).contains line = true) :
    a.contains line = true := by
  have h : ((a.restrict g).get? line).isSome := h
  rw [restrict, OrderedMap.get?_filterMap] at h
  show (a.get? line).isSome
  cases hget : a.get? line with
  | none =>
    rw [hget] at h
    cases h
  | some => rfl

end AgedLines

/-! ### Descriptions -/

/-- A map of descriptions that takes the accesses and calls of one cache to those of another. -/
structure Truncates {σ : Type} [Abstraction σ] (g g' : Geometry) (f : σ → σ) : Prop where
  start : ∀ coldStart, f (Abstraction.start coldStart) = Abstraction.start coldStart
  merge : ∀ a b, f (Abstraction.merge a b) = Abstraction.merge (f a) (f b)
  touch : ∀ line a, f (Abstraction.touch g' line a) = Abstraction.touch g line (f a)
  touchUnknown : ∀ a, f (Abstraction.touchUnknown g' a) = Abstraction.touchUnknown g (f a)
  call : ∀ c a, f (Abstraction.call g' c a) = Abstraction.call g c (f a)

namespace Truncates

variable {σ : Type} [Abstraction σ] {g g' : Geometry} {f : σ → σ}

/-- Truncating commutes with the meet of states. -/
lemma join (truncates : Truncates g g' f) (t u : State σ) :
    (Domain.join t u).map f = Domain.join (t.map f) (u.map f) := by
  cases t <;> cases u <;>
    simp [Domain.join, State.join, State.map, truncates.merge]

variable [LawfulAbstraction σ]

/-- An access to one of several lines is taken along as the accesses to each of them are. -/
lemma touchOneOf (truncates : Truncates g g' f) {candidates : OrderedSet Line} {line : Line}
    {rest : List Line} (h : candidates.toList = line :: rest) (a : σ) :
    f (Abstraction.touchOneOf g' candidates a) = Abstraction.touchOneOf g candidates (f a) := by
  rw [LawfulAbstraction.touchOneOf_eq_foldl h, LawfulAbstraction.touchOneOf_eq_foldl h,
    ← truncates.touch]
  generalize Abstraction.touch g' line a = first
  clear h
  induction rest generalizing first with
  | nil => rfl
  | cons other rest ih =>
    rw [List.foldl_cons, ih, List.foldl_cons, truncates.merge, truncates.touch]

/-- Truncating commutes with accesses. -/
lemma access (truncates : Truncates g g' f) (target : Target) (t : State σ) :
    (Domain.access g' target t).map f = Domain.access g target (t.map f) := by
  cases t with
  | unreached =>
    rw [State.map, State.access_unreached, State.access_unreached]
    rfl
  | reached a =>
    match target with
    | .unknown => exact congrArg State.reached (truncates.touchUnknown a)
    | .lines [] => rfl
    | .lines [line] => exact congrArg State.reached (truncates.touch line a)
    | .lines (line :: other :: lines) =>
      obtain ⟨first, rest, hl⟩ := List.exists_cons_of_ne_nil
        (OrderedSet.toList_ofList_ne_nil (List.mem_cons_self (a := line) (l := other :: lines)))
      exact congrArg State.reached (truncates.touchOneOf hl a)

/-- What an event does in the one cache becomes what it does in the other. -/
lemma transfer (truncates : Truncates g g' f) (t : State σ) (e : Event) :
    (Domain.transfer g' t e).map f = Domain.transfer g (t.map f) e := by
  cases e with
  | call c =>
    cases t with
    | unreached => rfl
    | reached a => exact congrArg State.reached (truncates.call c a)
  | access a =>
    simp only [Domain.transfer]
    split
    · exact truncates.access a.target t
    · rw [truncates.join, truncates.access]
    · rfl

/-- So it becomes what the analysis of the same events finds. -/
lemma projects {s : Summary} {g' : Geometry} (truncates : Truncates s.geometry g' f) (r : Region) :
    Projects s (s.inCache g') r (State.map f) where
  bottom := rfl
  start := congrArg State.reached (truncates.start s.coldStart)
  join := truncates.join
  predecessors _ _ := rfl
  events _ _ := List.forall₂_same.2 fun e _ t => truncates.transfer t e

end Truncates

/-- What must be cached, without the lines that are too old for the geometry. -/
def MustCache.restrict (g : Geometry) (a : MustCache) : MustCache :=
  ⟨a.lines.restrict g⟩

/-- What may be cached, without the lines that are too old for the geometry. -/
def MayCache.restrict (g : Geometry) (a : MayCache) : MayCache :=
  { a with lines := a.lines.restrict g }

/-- Lines that must be cached are truncated by their ages. -/
lemma MustCache.truncates {g g' : Geometry} (h : g.Widens g') :
    Truncates g g' (MustCache.restrict g) where
  start _ := rfl
  merge _ _ := congrArg MustCache.mk AgedLines.restrict_interWith
  touch line a := congrArg MustCache.mk (AgedLines.restrict_touch h false line a.lines)
  touchUnknown a := congrArg MustCache.mk (AgedLines.restrict_reage_shifted h a.lines)
  call c a := by
    simp only [Abstraction.call]
    split
    · rfl
    · exact congrArg MustCache.mk (AgedLines.restrict_reage_called h c a.lines)

/-- Lines that may be cached are truncated by their ages. -/
lemma MayCache.truncates {g g' : Geometry} (h : g.Widens g') :
    Truncates g g' (MayCache.restrict g) where
  start _ := rfl
  merge _ _ := MayCache.ext AgedLines.restrict_unionWith rfl
  touch line a := MayCache.ext (AgedLines.restrict_touch h true line a.lines) rfl
  touchUnknown _ := rfl
  call _ _ := MayCache.ext AgedLines.restrict_unionWith_ofSet rfl

/-- What hits in the smaller cache hits in the larger one. -/
lemma MustCache.hits_of_hits_map_restrict {g : Geometry} {t : State MustCache} {lines : List Line}
    (h : MustCache.hits (t.map (MustCache.restrict g)) lines = true) :
    MustCache.hits t lines = true := by
  cases t with
  | unreached => cases h
  | reached a =>
    obtain ⟨hne, hall⟩ := Bool.and_eq_true_iff.1 h
    refine Bool.and_eq_true_iff.2 ⟨hne, List.all_eq_true.2 fun line hline => ?_⟩
    exact AgedLines.contains_of_contains_restrict (List.all_eq_true.1 hall line hline)

/-- What misses in the larger cache misses in the smaller one. -/
lemma MayCache.misses_map_restrict_of_misses {g : Geometry} {t : State MayCache}
    {lines : List Line} (h : MayCache.misses t lines = true) :
    MayCache.misses (t.map (MayCache.restrict g)) lines = true := by
  cases t with
  | unreached => cases h
  | reached a =>
    obtain ⟨hfirst, hall⟩ := Bool.and_eq_true_iff.1 h
    refine Bool.and_eq_true_iff.2 ⟨hfirst, List.all_eq_true.2 fun line hline => ?_⟩
    have hnot : (!a.lines.contains line) = true := List.all_eq_true.1 hall line hline
    rw [Bool.not_eq_true'] at hnot ⊢
    by_contra hcontains
    have hcontains := AgedLines.contains_of_contains_restrict (Bool.eq_true_of_not_eq_false hcontains)
    rw [hnot] at hcontains
    cases hcontains

/-! ### Analyses -/

section

variable {σ : Type} [Abstraction σ] [OrderedAbstraction σ] [LawfulAbstraction σ] [DecidableEq σ]
  {s : Summary} {g : Geometry} {f : σ → σ} {fuel fuel' : Nat} {solution solution' : Solution (State σ)}

/-- The states before the events of every node are taken along. -/
lemma Truncates.beforeEvents_eq (truncates : Truncates s.geometry g f) (linked : s.Linked (.whole s))
    (solved : Solution.solve? fuel s (.whole s) = some solution)
    (solved' : Solution.solve? fuel' (s.inCache g) (.whole s) = some solution') (n : Nat) :
    solution.beforeEvents s n =
      (solution'.beforeEvents (s.inCache g) n).map (State.map f) := by
  by_cases hn : n ∈ (Region.whole s).nodes
  · exact (truncates.projects _).beforeEvents_eq linked linked solved solved' hn
  · rw [Solution.beforeEvents, Solution.beforeEvents, Summary.eventsOf_inCache,
      Summary.eventsOf_eq_nil hn]
    rfl

/-- The states of the narrower cache are the truncated ones of the wider cache. -/
lemma Truncates.stateAt_eq (truncates : Truncates s.geometry g f) (linked : s.Linked (.whole s))
    (solved : Solution.solve? fuel s (.whole s) = some solution)
    (solved' : Solution.solve? fuel' (s.inCache g) (.whole s) = some solution')
    {n i : Nat} {e : Event} (hevent : (s.eventsOf n)[i]? = some e) :
    solution.stateAt s n i = (solution'.stateAt (s.inCache g) n i).map f := by
  have hbefore := congrArg (·[i]?) (truncates.beforeEvents_eq linked solved solved' n)
  have hevent' : ((s.inCache g).eventsOf n)[i]? = some e := hevent
  simp only [List.getElem?_map, Solution.getElem?_beforeEvents hevent,
    Solution.getElem?_beforeEvents hevent', Option.map_some] at hbefore
  exact Option.some.inj hbefore

end

/-- With more ways in the same sets, the analyses of the same events find the same lines at the same
ages before every event, and lines besides that are too old for fewer ways. An access that hits with
fewer ways hits with more, and an access that misses with more ways misses with fewer. -/
theorem analyses_restrict (s : Summary) (g : Geometry) (linked : s.Linked (.whole s))
    (widens : s.geometry.Widens g) :
    (∃ must may, s.Ends must may) ∧ (∃ must may, (s.inCache g).Ends must may) ∧
    ∀ must may must' may', s.Ends must may → (s.inCache g).Ends must' may' →
      (∀ n, must.inOf n = (must'.inOf n).map (MustCache.restrict s.geometry) ∧
        must.outOf n = (must'.outOf n).map (MustCache.restrict s.geometry) ∧
        must.beforeEvents s n = (must'.beforeEvents (s.inCache g) n).map
          (State.map (MustCache.restrict s.geometry))) ∧
      (∀ n, may.inOf n = (may'.inOf n).map (MayCache.restrict s.geometry) ∧
        may.outOf n = (may'.outOf n).map (MayCache.restrict s.geometry) ∧
        may.beforeEvents s n = (may'.beforeEvents (s.inCache g) n).map
          (State.map (MayCache.restrict s.geometry))) ∧
      ∀ n i,
        (s.classAt? must may n i = some .alwaysHit →
          (s.inCache g).classAt? must' may' n i = some .alwaysHit) ∧
        ((s.inCache g).classAt? must' may' n i = some .alwaysMiss →
          s.classAt? must may n i = some .alwaysMiss) := by
  refine ⟨s.exists_ends, Summary.exists_ends _, ?_⟩
  intro must may must' may' ends ends'
  obtain ⟨⟨fuelMust, solvedMust⟩, ⟨fuelMay, solvedMay⟩⟩ := ends
  obtain ⟨⟨fuelMust', solvedMust'⟩, ⟨fuelMay', solvedMay'⟩⟩ := ends'
  have truncatesMust := MustCache.truncates widens
  have truncatesMay := MayCache.truncates widens
  have projectsMust := truncatesMust.projects (.whole s)
  have projectsMay := truncatesMay.projects (.whole s)
  refine ⟨fun n => ?_, fun n => ?_, fun n i => ⟨fun hclass => ?_, fun hclass => ?_⟩⟩
  · obtain ⟨hin, hout⟩ := projectsMust.inOf_outOf_eq linked linked solvedMust solvedMust' n
    exact ⟨hin, hout, truncatesMust.beforeEvents_eq linked solvedMust solvedMust' n⟩
  · obtain ⟨hin, hout⟩ := projectsMay.inOf_outOf_eq linked linked solvedMay solvedMay' n
    exact ⟨hin, hout, truncatesMay.beforeEvents_eq linked solvedMay solvedMay' n⟩
  · obtain ⟨a, hevent, hclass⟩ := Summary.exists_access_of_classAt? hclass
    obtain ⟨lines, htarget, hits⟩ := Access.classify_eq_alwaysHit.1 hclass
    rw [truncatesMust.stateAt_eq linked solvedMust solvedMust' hevent] at hits
    rw [Summary.classAt?_eq (Summary.eventsOf_inCache ▸ hevent)]
    exact congrArg some (Access.classify_eq_alwaysHit.2
      ⟨lines, htarget, MustCache.hits_of_hits_map_restrict hits⟩)
  · obtain ⟨a, hevent, hclass⟩ := Summary.exists_access_of_classAt? hclass
    obtain ⟨lines, htarget, nohits, misses⟩ := Access.classify_eq_alwaysMiss.1 hclass
    rw [Summary.eventsOf_inCache] at hevent
    rw [Summary.classAt?_eq hevent, truncatesMust.stateAt_eq linked solvedMust solvedMust' hevent,
      truncatesMay.stateAt_eq linked solvedMay solvedMay' hevent]
    exact congrArg some (Access.classify_eq_alwaysMiss.2 ⟨lines, htarget,
      fun hits => nohits (MustCache.hits_of_hits_map_restrict hits),
      MayCache.misses_map_restrict_of_misses misses⟩)

/-- Two sets of four ways, for lines of 64 bytes. -/
def Geometry.fourWays : Geometry :=
  ⟨⟨512, 4, 64⟩, by decide, by decide, by decide, by decide, by decide⟩

/-- In two ways, line 2 is cached behind the second branch at age 1; with four ways it is so too, and
no other line that must be cached is as young. -/
theorem analyses_restrict_branchingLoop :
    Summary.branchingLoop.Linked (.whole .branchingLoop) ∧
      Summary.branchingLoop.geometry.Widens .fourWays ∧
      ∀ must' may', (Summary.branchingLoop.inCache .fourWays).Ends must' may' →
        (must'.outOf 2).map (MustCache.restrict .twoWays) = .reached ⟨.ofList [(2, 1)]⟩ := by
  have transposed : Summary.branchingLoop.Transposed := by
    unfold Summary.Transposed
    decide
  have linked : Summary.branchingLoop.Linked (.whole .branchingLoop) :=
    transposed.linked fun _ => OrderedSet.mem_below.1
  have widens : Summary.branchingLoop.geometry.Widens .fourWays := ⟨by decide, by decide⟩
  refine ⟨linked, widens, ?_⟩
  intro must' may' ends'
  obtain ⟨⟨must, may, ends⟩, _, inclusion⟩ := analyses_restrict .branchingLoop .fourWays linked widens
  have hout : (Solution.solve? 20 .branchingLoop (.whole .branchingLoop)).map
      (fun solution : Solution (State MustCache) => solution.outOf 2) =
        some (.reached ⟨.ofList [(2, 1)]⟩) := by
    decide +kernel
  obtain ⟨must₂, solved, hout⟩ := Option.map_eq_some_iff.1 hout
  obtain ⟨restricted, _⟩ := inclusion must₂ may must' may' ⟨⟨20, solved⟩, ends.may⟩ ends'
  rw [← hout]
  exact (restricted 2).2.1.symm

end CacheVerdict
