import CacheVerdict.Analysis.Classify
import CacheVerdict.Proofs.Cache.Rank
import CacheVerdict.Proofs.Program.CallOrder

/-!
# What the analysis finds

The analysis goes through the procedures one by one, and in each through the levels, nearest first.
The step for a procedure and a level writes only what is kept under that procedure and level, and
reads only verdicts at nearer levels. So what it writes is still there in the end, and the verdicts
that it has read are so too. Main statements: the analysis ends (`exists_classify`), and in the end
every procedure is analysed at every level (`analysed_of_classify`).
-/

namespace CacheVerdict

/-! ### Chains of caches -/

namespace Hierarchy

variable {h : Hierarchy} {kind : AccessKind}

/-- The caches that accesses of a kind go through, nearest first. -/
def chain (h : Hierarchy) (kind : AccessKind) : List (Level × Geometry) :=
  h.caches.entries.filter (·.1.serves kind)

/-- No level is configured twice. -/
lemma nodup_levels (h : Hierarchy) : (h.caches.entries.map Prod.fst).Nodup := by
  refine List.pairwise_map.2 (h.caches.sorted.imp ?_)
  intro a b hlt heq
  rw [heq] at hlt
  simp at hlt

/-- No level stands twice in a chain. -/
lemma nodup_chain (h : Hierarchy) (kind : AccessKind) : ((h.chain kind).map Prod.fst).Nodup :=
  h.nodup_levels.sublist ((List.filter_sublist).map _)

/-- The levels for a kind are those of the chain. -/
lemma levelsFor_eq : h.levelsFor kind = (h.chain kind).map Prod.fst :=
  List.filter_map ..

/-- The level before a cache of the chain is that of the last cache in front of it. -/
lemma previous?_eq {front behind : List (Level × Geometry)} {cache : Level × Geometry}
    (hchain : h.chain kind = front ++ cache :: behind) :
    h.previous? kind cache.1 = front.getLast?.map Prod.fst := by
  have hnodup := h.nodup_chain kind
  rw [hchain, List.map_append, List.map_cons] at hnodup
  have hfront : ∀ level ∈ front.map Prod.fst, decide (level ≠ cache.1) = true := by
    intro level hlevel
    apply decide_eq_true
    rintro rfl
    exact List.disjoint_of_nodup_append hnodup hlevel List.mem_cons_self
  unfold previous?
  simp only
  rw [levelsFor_eq, hchain, List.map_append, List.map_cons,
    if_pos (List.mem_append_right _ List.mem_cons_self), List.takeWhile_append_of_pos hfront,
    List.takeWhile_cons]
  simp

/-- The level before another one is nearer. -/
lemma previous?_mem {front behind : List (Level × Geometry)} {cache : Level × Geometry}
    (hentries : h.caches.entries = front ++ cache :: behind) {level : Level}
    (hprevious : h.previous? kind cache.1 = some level) :
    level ∉ (cache :: behind).map Prod.fst := by
  -- a level outside the chain has no level before it
  have hserves : cache.1.serves kind = true := by
    by_contra hserves
    unfold previous? at hprevious
    simp only at hprevious
    rw [if_neg] at hprevious
    · cases hprevious
    · intro hmem
      exact hserves (List.mem_filter.1 hmem).2
  have hchain : h.chain kind =
      front.filter (·.1.serves kind) ++ cache :: behind.filter (·.1.serves kind) := by
    rw [chain, hentries, List.filter_append]
    congr 1
    exact List.filter_cons_of_pos hserves
  rw [previous?_eq hchain] at hprevious
  obtain ⟨cache', hlast, rfl⟩ := Option.map_eq_some_iff.1 hprevious
  have hmem : cache' ∈ front := (List.mem_filter.1 (List.mem_of_getLast? hlast)).1
  have hnodup := h.nodup_levels
  rw [hentries, List.map_append] at hnodup
  exact List.disjoint_of_nodup_append hnodup (List.mem_map_of_mem hmem)

end Hierarchy

namespace Study

variable {s : Study} {fuel p : Nat} {coldStart : Bool} {f f' : Findings}

/-! ### Verdicts -/

/-- Adding verdicts leaves the others alone. -/
lemma get?_addVerdicts_of_not_mem {verdicts : OrderedMap AccessKey Verdict}
    {found : List (AccessKey × Verdict)} {k : AccessKey} (hk : k ∉ found.map Prod.fst) :
    (addVerdicts verdicts found).get? k = verdicts.get? k := by
  induction found generalizing verdicts with
  | nil => rfl
  | cons e found ih =>
    rw [List.map_cons, List.mem_cons, not_or] at hk
    refine (ih hk.2).trans ?_
    rw [OrderedMap.get?_insert, if_neg hk.1]

/-- The verdict on an access hangs on an earlier one only if no new one is added. -/
lemma get?_addVerdicts_congr {verdicts verdicts' : OrderedMap AccessKey Verdict}
    {found : List (AccessKey × Verdict)} {k : AccessKey} (h : verdicts.get? k = verdicts'.get? k) :
    (addVerdicts verdicts found).get? k = (addVerdicts verdicts' found).get? k := by
  induction found generalizing verdicts verdicts' with
  | nil => exact h
  | cons e found ih =>
    apply ih
    rw [OrderedMap.get?_insert, OrderedMap.get?_insert, h]

/-- Of verdicts on different accesses, all are there in the end. -/
lemma get?_addVerdicts_of_mem {verdicts : OrderedMap AccessKey Verdict}
    {found : List (AccessKey × Verdict)} (hnodup : (found.map Prod.fst).Nodup) {k : AccessKey}
    {v : Verdict} (he : (k, v) ∈ found) : (addVerdicts verdicts found).get? k = some v := by
  induction found generalizing verdicts with
  | nil => cases he
  | cons e' found ih =>
    rw [List.map_cons, List.nodup_cons] at hnodup
    rcases List.mem_cons.1 he with rfl | he
    · refine (get?_addVerdicts_of_not_mem hnodup.1).trans ?_
      rw [OrderedMap.get?_insert, if_pos rfl]
    · exact ih hnodup.2 he

/-- A verdict that is there and was not before is one of those added. -/
lemma mem_of_get?_addVerdicts {verdicts : OrderedMap AccessKey Verdict}
    {found : List (AccessKey × Verdict)} {k : AccessKey} {v : Verdict}
    (h : (addVerdicts verdicts found).get? k = some v) :
    verdicts.get? k = some v ∨ (k, v) ∈ found := by
  induction found generalizing verdicts with
  | nil => exact .inl h
  | cons e found ih =>
    rcases ih h with h | h
    · rw [OrderedMap.get?_insert] at h
      split at h
      · rename_i heq
        cases h
        exact .inr (heq ▸ List.mem_cons_self)
      · exact .inl h
    · exact .inr (List.mem_cons_of_mem _ h)

/-- An access that a verdict is added on has one. -/
lemma exists_get?_addVerdicts {verdicts : OrderedMap AccessKey Verdict}
    {found : List (AccessKey × Verdict)} {k : AccessKey}
    (h : (∃ v, verdicts.get? k = some v) ∨ k ∈ found.map Prod.fst) :
    ∃ v, (addVerdicts verdicts found).get? k = some v := by
  induction found generalizing verdicts with
  | nil => exact h.resolve_right List.not_mem_nil
  | cons e found ih =>
    apply ih
    rw [List.map_cons, List.mem_cons, ← or_assoc] at h
    refine h.imp_left fun h => ?_
    rw [OrderedMap.get?_insert]
    split
    · exact ⟨e.2, rfl⟩
    · rename_i hne
      exact h.resolve_right hne

/-- The verdicts that the analysis of a procedure at a level comes to. -/
def found (s : Study) (p : Nat) (level : Level) (summary : Summary)
    (must : Solution (State MustCache)) (may : Solution (State MayCache)) :
    List (AccessKey × Verdict) :=
  (s.procedure p).nodeIds.flatMap (s.nodeVerdicts p level summary must may)

/-- All of them are kept under the procedure and the level. -/
lemma mem_found {level : Level} {summary : Summary} {must : Solution (State MustCache)}
    {may : Solution (State MayCache)} {e : AccessKey × Verdict}
    (he : e ∈ s.found p level summary must may) : e.1.procedure = p ∧ e.1.level = level := by
  obtain ⟨n, _, he⟩ := List.mem_flatMap.1 he
  obtain ⟨⟨event, before⟩, _, hevent⟩ := List.mem_filterMap.1 he
  cases event with
  | call => cases hevent
  | access a =>
    cases hevent
    exact ⟨rfl, rfl⟩

/-! ### One level -/

/-- What the step for a procedure and a level does. -/
lemma classifyLevel_eq_some {cache : Level × Geometry}
    (h : s.classifyLevel fuel p coldStart f cache = some f') :
    ∃ (must : Solution (State MustCache)) (may : Solution (State MayCache)),
      Solution.solve? fuel (s.summary f p cache.1 cache.2 coldStart)
        (.whole (s.summary f p cache.1 cache.2 coldStart)) = some must ∧
      Solution.solve? fuel (s.summary f p cache.1 cache.2 coldStart)
        (.whole (s.summary f p cache.1 cache.2 coldStart)) = some may ∧
      f'.summaries = f.summaries.insert ⟨p, cache.1⟩ (s.summary f p cache.1 cache.2 coldStart) ∧
      f'.verdicts = addVerdicts f.verdicts
        (s.found p cache.1 (s.summary f p cache.1 cache.2 coldStart) must may) := by
  obtain ⟨must, hmust, h⟩ := Option.bind_eq_some_iff.1 h
  obtain ⟨may, hmay, h⟩ := Option.bind_eq_some_iff.1 h
  cases h
  exact ⟨must, may, hmust, hmay, rfl, rfl⟩

/-- The findings under a procedure at the levels that are not named agree. -/
structure AgreesOn (p : Nat) (except : List Level) (f f' : Findings) : Prop where
  verdicts : ∀ site level, level ∉ except →
    f'.verdicts.get? ⟨p, site, level⟩ = f.verdicts.get? ⟨p, site, level⟩
  summaries : ∀ level, level ∉ except → f'.summaries.get? ⟨p, level⟩ = f.summaries.get? ⟨p, level⟩

/-- Findings agree with themselves. -/
lemma AgreesOn.refl (except : List Level) : AgreesOn p except f f where
  verdicts _ _ _ := rfl
  summaries _ _ := rfl

/-- Agreement with fewer exceptions is agreement with more. -/
lemma AgreesOn.mono {except except' : List Level} (h : AgreesOn p except f f')
    (hsub : except ⊆ except') : AgreesOn p except' f f' where
  verdicts site level hlevel := h.verdicts site level fun hmem => hlevel (hsub hmem)
  summaries level hlevel := h.summaries level fun hmem => hlevel (hsub hmem)

/-- Agreement is transitive. -/
lemma AgreesOn.trans {f'' : Findings} {except : List Level} (h : AgreesOn p except f f')
    (h' : AgreesOn p except f' f'') : AgreesOn p except f f'' where
  verdicts site level hlevel :=
    (h'.verdicts site level hlevel).trans (h.verdicts site level hlevel)
  summaries level hlevel := (h'.summaries level hlevel).trans (h.summaries level hlevel)

/-- The step for a procedure and a level leaves the other levels of the procedure alone. -/
lemma agreesOn_classifyLevel {cache : Level × Geometry}
    (h : s.classifyLevel fuel p coldStart f cache = some f') : AgreesOn p [cache.1] f f' := by
  obtain ⟨must, may, _, _, hsummaries, hverdicts⟩ := classifyLevel_eq_some h
  constructor
  · intro site level hlevel
    rw [hverdicts]
    apply get?_addVerdicts_of_not_mem
    intro hmem
    obtain ⟨e, he, heq⟩ := List.mem_map.1 hmem
    have hlevel' := (mem_found he).2
    rw [heq] at hlevel'
    exact hlevel (List.mem_singleton.2 hlevel')
  · intro level hlevel
    rw [hsummaries, OrderedMap.get?_insert, if_neg]
    intro heq
    exact hlevel (List.mem_singleton.2 (congrArg LevelKey.level heq))

/-- It leaves the other procedures alone altogether. -/
lemma agreesOn_classifyLevel_of_ne {q : Nat} (hq : q ≠ p) {cache : Level × Geometry}
    (h : s.classifyLevel fuel p coldStart f cache = some f') : AgreesOn q [] f f' := by
  obtain ⟨must, may, _, _, hsummaries, hverdicts⟩ := classifyLevel_eq_some h
  constructor
  · intro site level _
    rw [hverdicts]
    apply get?_addVerdicts_of_not_mem
    intro hmem
    obtain ⟨e, he, heq⟩ := List.mem_map.1 hmem
    have hp := (mem_found he).1
    rw [heq] at hp
    exact hq hp
  · intro level _
    rw [hsummaries, OrderedMap.get?_insert, if_neg]
    intro heq
    exact hq (congrArg LevelKey.procedure heq)

/-! ### All levels of a procedure -/

/-- Whether a procedure starts with empty caches. -/
def startsCold (s : Study) (p : Nat) : Bool :=
  s.settings.coldRoots && s.roots.contains p

/-- The findings hold the analysis of a procedure at a level: of the summary that was made when the
findings were `before`. What was read of the verdicts then still stands. -/
structure AnalysedFrom (s : Study) (p : Nat) (cache : Level × Geometry) (before f : Findings)
    (must : Solution (State MustCache)) (may : Solution (State MayCache)) : Prop where
  summary : f.summaries.get? ⟨p, cache.1⟩ =
    some (s.summary before p cache.1 cache.2 (s.startsCold p))
  solvedMust : ∃ fuel, Solution.solve? fuel (s.summary before p cache.1 cache.2 (s.startsCold p))
    (.whole (s.summary before p cache.1 cache.2 (s.startsCold p))) = some must
  solvedMay : ∃ fuel, Solution.solve? fuel (s.summary before p cache.1 cache.2 (s.startsCold p))
    (.whole (s.summary before p cache.1 cache.2 (s.startsCold p))) = some may
  reach : ∀ site, s.reachOf before p site cache.1 = s.reachOf f p site cache.1
  verdicts : ∀ site, f.verdicts.get? ⟨p, site, cache.1⟩ = (addVerdicts {} (s.found p cache.1
    (s.summary before p cache.1 cache.2 (s.startsCold p)) must may)).get? ⟨p, site, cache.1⟩

/-- The findings hold the analysis of a procedure at a level. -/
def Analysed (s : Study) (p : Nat) (f : Findings) (cache : Level × Geometry) : Prop :=
  ∃ before must may, s.AnalysedFrom p cache before f must may

/-- The reach of an access hangs on the verdict at the level before. -/
lemma reachOf_congr {site : Site} {level : Level}
    (h : ∀ previous, s.hierarchy.previous? site.kind level = some previous →
      f'.verdicts.get? ⟨p, site, previous⟩ = f.verdicts.get? ⟨p, site, previous⟩) :
    s.reachOf f' p site level = s.reachOf f p site level := by
  unfold reachOf
  split
  · rfl
  · rename_i previous hprevious
    rw [h previous hprevious]

/-- Every access arrives at the first level of its chain. -/
lemma reachOf_first {site : Site} {cache : Level × Geometry} {behind : List (Level × Geometry)}
    (hchain : s.hierarchy.chain site.kind = [] ++ cache :: behind) :
    s.reachOf f p site cache.1 = .always := by
  rw [reachOf, Hierarchy.previous?_eq hchain]
  rfl

/-- Beyond the nearest level, the verdict at the level before decides. -/
lemma reachOf_next {site : Site} {front behind : List (Level × Geometry)}
    {last cache : Level × Geometry}
    (hchain : s.hierarchy.chain site.kind = front ++ ([last] ++ cache :: behind)) :
    s.reachOf f p site cache.1 = Verdict.nextReach (f.verdicts.get? ⟨p, site, last.1⟩) := by
  rw [← List.append_assoc] at hchain
  rw [reachOf, Hierarchy.previous?_eq hchain, List.getLast?_concat]
  rfl

/-- What is analysed stays so while other procedures are. -/
lemma Analysed.congr {cache : Level × Geometry} (h : s.Analysed p f cache)
    (agrees : AgreesOn p [] f f') : s.Analysed p f' cache := by
  obtain ⟨before, must, may, analysed⟩ := h
  refine ⟨before, must, may, ?_, analysed.solvedMust, analysed.solvedMay, ?_, ?_⟩
  · rw [agrees.summaries _ List.not_mem_nil]
    exact analysed.summary
  · intro site
    rw [analysed.reach site]
    exact (reachOf_congr fun previous _ => agrees.verdicts site previous List.not_mem_nil).symm
  · intro site
    rw [agrees.verdicts site _ List.not_mem_nil]
    exact analysed.verdicts site

/-- The steps for all levels of a procedure, from some level on. -/
lemma foldlM_classifyLevel {front behind : List (Level × Geometry)}
    (hentries : s.hierarchy.caches.entries = front ++ behind)
    (hfresh : ∀ cache ∈ behind, ∀ site, f.verdicts.get? ⟨p, site, cache.1⟩ = none)
    (h : behind.foldlM (s.classifyLevel fuel p (s.startsCold p)) f = some f') :
    AgreesOn p (behind.map Prod.fst) f f' ∧ ∀ cache ∈ behind, s.Analysed p f' cache := by
  induction behind generalizing front f with
  | nil =>
    cases h
    exact ⟨.refl _, nofun⟩
  | cons cache behind ih =>
    rw [List.foldlM_cons] at h
    obtain ⟨f₁, hstep, hrest⟩ := Option.bind_eq_some_iff.1 h
    have hnodup := s.hierarchy.nodup_levels
    rw [hentries, List.map_append, List.map_cons] at hnodup
    have hcache : cache.1 ∉ behind.map Prod.fst :=
      (List.nodup_cons.1 (List.Nodup.of_append_right hnodup)).1
    have first := agreesOn_classifyLevel hstep
    have hentries' : s.hierarchy.caches.entries = (front ++ [cache]) ++ behind := by simp [hentries]
    have hfresh' : ∀ cache' ∈ behind, ∀ site, f₁.verdicts.get? ⟨p, site, cache'.1⟩ = none := by
      intro cache' hcache' site
      rw [first.verdicts]
      · exact hfresh cache' (List.mem_cons_of_mem _ hcache') site
      · intro hmem
        exact hcache (List.mem_singleton.1 hmem ▸ List.mem_map_of_mem hcache')
    obtain ⟨rest, analysed⟩ := ih hentries' hfresh' hrest
    have all : AgreesOn p ((cache :: behind).map Prod.fst) f f' :=
      (first.mono (by simp)).trans (rest.mono (List.subset_cons_self _ _))
    refine ⟨all, ?_⟩
    intro cache' hcache'
    rcases List.mem_cons.1 hcache' with rfl | hcache'
    · -- the steps behind write under other levels, and what was read stands under nearer ones
      obtain ⟨must, may, hmust, hmay, hsummaries, hverdicts⟩ := classifyLevel_eq_some hstep
      refine ⟨f, must, may, ?_, ⟨fuel, hmust⟩, ⟨fuel, hmay⟩, ?_, ?_⟩
      · rw [rest.summaries _ hcache, hsummaries, OrderedMap.get?_insert, if_pos rfl]
      · intro site
        refine (reachOf_congr fun previous hprevious => ?_).symm
        exact all.verdicts site previous (Hierarchy.previous?_mem hentries hprevious)
      · intro site
        rw [rest.verdicts site _ hcache, hverdicts]
        apply get?_addVerdicts_congr
        rw [hfresh cache' List.mem_cons_self site, OrderedMap.get?_empty]
    · exact analysed cache' hcache'

/-! ### All procedures -/

/-- The steps for a procedure leave the others alone. -/
lemma agreesOn_foldlM_of_ne {q : Nat} (hq : q ≠ p) {caches : List (Level × Geometry)}
    (h : caches.foldlM (s.classifyLevel fuel p coldStart) f = some f') : AgreesOn q [] f f' := by
  induction caches generalizing f with
  | nil =>
    cases h
    exact .refl _
  | cons cache caches ih =>
    rw [List.foldlM_cons] at h
    obtain ⟨f₁, hstep, hrest⟩ := Option.bind_eq_some_iff.1 h
    exact (agreesOn_classifyLevel_of_ne hq hstep).trans (ih hrest)

/-- The steps for procedures that have not been looked at. -/
lemma foldlM_classifyProcedure {procedures : List Nat} (hnodup : procedures.Nodup)
    (hfresh : ∀ p ∈ procedures, ∀ site level, f.verdicts.get? ⟨p, site, level⟩ = none)
    (h : procedures.foldlM (s.classifyProcedure fuel) f = some f') :
    (∀ q, q ∉ procedures → AgreesOn q [] f f') ∧
      ∀ p ∈ procedures, ∀ cache ∈ s.hierarchy.caches.entries, s.Analysed p f' cache := by
  induction procedures generalizing f with
  | nil =>
    cases h
    exact ⟨fun _ _ => .refl _, nofun⟩
  | cons p procedures ih =>
    rw [List.foldlM_cons] at h
    obtain ⟨f₁, hstep, hrest⟩ := Option.bind_eq_some_iff.1 h
    obtain ⟨hp, hnodup⟩ := List.nodup_cons.1 hnodup
    have hfresh' : ∀ q ∈ procedures, ∀ site level, f₁.verdicts.get? ⟨q, site, level⟩ = none := by
      intro q hq site level
      have hne : q ≠ p := fun heq => hp (heq ▸ hq)
      rw [(agreesOn_foldlM_of_ne hne hstep).verdicts site level List.not_mem_nil]
      exact hfresh q (List.mem_cons_of_mem _ hq) site level
    obtain ⟨agrees, analysed⟩ := ih hnodup hfresh' hrest
    constructor
    · intro q hq
      rw [List.mem_cons, not_or] at hq
      exact (agreesOn_foldlM_of_ne hq.1 hstep).trans (agrees q hq.2)
    · intro q hq cache hcache
      rcases List.mem_cons.1 hq with rfl | hq
      · have hlevels := foldlM_classifyLevel (s := s) (p := q) (f := f) (List.nil_append _).symm
          (fun cache _ site => hfresh q List.mem_cons_self site cache.1) hstep
        exact (hlevels.2 cache hcache).congr (agrees q hp)
      · exact analysed q hq cache hcache

/-- In the end, every procedure that is listed is analysed at every level. -/
theorem analysed_of_classify (hnodup : s.callOrder.order.Nodup) (h : s.classify fuel = some f)
    (hp : p ∈ s.callOrder.order) {cache : Level × Geometry}
    (hcache : cache ∈ s.hierarchy.caches.entries) : s.Analysed p f cache :=
  (foldlM_classifyProcedure hnodup (fun _ _ _ _ => OrderedMap.get?_empty _) h).2 p hp cache hcache

/-! ### The analysis ends -/

/-- Steps that each end with enough fuel do so together. -/
lemma exists_foldlM {α β : Type} {step : Nat → β → α → Option β} {l : List α}
    (h : ∀ b, ∀ a ∈ l, ∃ bound b', ∀ fuel ≥ bound, step fuel b a = some b') (b : β) :
    ∃ bound b', ∀ fuel ≥ bound, l.foldlM (step fuel) b = some b' := by
  induction l generalizing b with
  | nil => exact ⟨0, b, fun _ _ => rfl⟩
  | cons a l ih =>
    obtain ⟨bound, b₁, hstep⟩ := h b a List.mem_cons_self
    obtain ⟨bound', b', hrest⟩ := ih (fun b a ha => h b a (List.mem_cons_of_mem _ ha)) b₁
    refine ⟨max bound bound', b', ?_⟩
    intro fuel hfuel
    rw [List.foldlM_cons, hstep fuel (le_of_max_le_left hfuel)]
    exact hrest fuel (le_of_max_le_right hfuel)

/-- The classification of a level ends. -/
lemma exists_classifyLevel (s : Study) (p : Nat) (coldStart : Bool) (f : Findings)
    (cache : Level × Geometry) :
    ∃ bound f', ∀ fuel ≥ bound, s.classifyLevel fuel p coldStart f cache = some f' := by
  obtain ⟨bound, must, hmust⟩ := MustCache.exists_solve?
    (s.summary f p cache.1 cache.2 coldStart) (.whole (s.summary f p cache.1 cache.2 coldStart))
  obtain ⟨bound', may, hmay⟩ := MayCache.exists_solve?
    (s.summary f p cache.1 cache.2 coldStart) (.whole (s.summary f p cache.1 cache.2 coldStart))
  refine ⟨max bound bound',
    { summaries := f.summaries.insert ⟨p, cache.1⟩ (s.summary f p cache.1 cache.2 coldStart)
      footprints := f.footprints.insert ⟨p, cache.1⟩
        (s.summary f p cache.1 cache.2 coldStart).footprint
      verdicts := addVerdicts f.verdicts
        (s.found p cache.1 (s.summary f p cache.1 cache.2 coldStart) must may) }, ?_⟩
  intro fuel hfuel
  unfold classifyLevel
  simp only
  rw [hmust fuel (le_of_max_le_left hfuel), hmay fuel (le_of_max_le_right hfuel)]
  rfl

/-- With enough fuel, the analysis of a program ends. -/
theorem exists_classify (s : Study) :
    ∃ (bound : Nat) (f : Findings), ∀ fuel ≥ bound, s.classify fuel = some f := by
  refine exists_foldlM (fun f p _ => ?_) _
  exact exists_foldlM (fun f cache _ => exists_classifyLevel s p _ f cache) f

end Study

end CacheVerdict
