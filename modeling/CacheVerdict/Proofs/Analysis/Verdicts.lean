import CacheVerdict.Proofs.Analysis.Execution
import CacheVerdict.Proofs.Cache.Run

/-!
# The verdict on an access

The accesses of a procedure come from different sites, so no verdict takes the place of another
one. What is kept of an access at a level is hence the verdict on its event there, or nothing if it
has no event (`Analyses.verdict_eq`, `Analyses.verdict_eq_none`).
-/

namespace CacheVerdict

/-- What is taken from pairs, but from their first parts only, is taken from the first list. -/
lemma sublist_filterMap_zip {α β γ : Type} {f : α × β → Option γ} {g : α → Option γ}
    (h : ∀ a b, f (a, b) = g a) (l : List α) (m : List β) :
    ((l.zip m).filterMap f).Sublist (l.filterMap g) := by
  induction l generalizing m with
  | nil => exact List.Sublist.refl _
  | cons a l ih =>
    cases m with
    | nil => exact List.nil_sublist _
    | cons b m =>
      rw [List.zip_cons_cons, List.filterMap_cons, List.filterMap_cons, h a b]
      cases g a with
      | none => exact ih m
      | some c => exact (ih m).cons_cons c

namespace Study

variable {s : Study} {f : Findings} {p n : Nat} {cache : Level × Geometry}

/-! ### Verdicts and events -/

/-- The access that an event is a verdict on. -/
def keyOf? (p : Nat) (level : Level) : Event → Option AccessKey
  | .access a => some ⟨p, a.site, level⟩
  | .call _ => none

/-- The event of an access, where it may reach the level. -/
lemma eventAt?_access {r : Request} (hserves : cache.1.serves r.site.kind = true)
    (hreach : s.reachOf f p r.site cache.1 ≠ .never) :
    ∃ frameOffset, s.eventAt? f p cache n (.access r) = some (.access
      ⟨r.site, r.targetAt s.hierarchy.finestShift cache.2, s.reachOf f p r.site cache.1,
        frameOffset⟩) := by
  refine ⟨if r.site.kind = .data then (s.referencesOf p).frameOffsets.get? r.site.instruction
    else none, ?_⟩
  rw [eventAt?_request, if_pos hserves, accessEvent?, if_neg hreach]

/-- An access that the level does not serve or that never reaches it is no event. -/
lemma eventAt?_eq_none {r : Request}
    (h : ¬(cache.1.serves r.site.kind = true ∧ s.reachOf f p r.site cache.1 ≠ .never)) :
    s.eventAt? f p cache n (.access r) = none := by
  rw [eventAt?_request]
  split
  · rename_i hserves
    rw [accessEvent?, if_pos]
    by_contra hreach
    exact h ⟨hserves, hreach⟩
  · rfl

/-- An access that is an event comes from a request that may reach the level. -/
lemma eventAt?_eq_access {action : NodeAction} {a : Access}
    (h : s.eventAt? f p cache n action = some (.access a)) :
    ∃ r, action = .access r ∧ a.site = r.site ∧ a.reach = s.reachOf f p r.site cache.1 ∧
      a.target = r.targetAt s.hierarchy.finestShift cache.2 ∧
      cache.1.serves r.site.kind = true ∧ s.reachOf f p r.site cache.1 ≠ .never := by
  cases action with
  | call => cases h
  | access r =>
    rw [eventAt?_request] at h
    split at h
    · rename_i hserves
      unfold accessEvent? at h
      simp only at h
      split at h
      · cases h
      · rename_i hreach
        cases h
        exact ⟨r, rfl, rfl, rfl, rfl, hserves, hreach⟩
    · cases h

/-- The events of a node are its own. -/
lemma node_of_event {coldStart : Bool} {a : Access}
    (hevent : .access a ∈ (s.summary f p cache.1 cache.2 coldStart).eventsOf n) :
    a.site.node = n := by
  rw [eventsOf_summary] at hevent
  obtain ⟨action, haction, hevent⟩ := List.mem_filterMap.1 hevent
  obtain ⟨r, rfl, hsite, _⟩ := eventAt?_eq_access hevent
  rw [hsite]
  exact site_of_mem_actions haction

/-- No two events of a node are accesses from one site. -/
lemma nodup_keys (distinct : s.DistinctAddresses p) (coldStart : Bool) (n : Nat) :
    (((s.summary f p cache.1 cache.2 coldStart).eventsOf n).filterMap (keyOf? p cache.1)).Nodup := by
  rw [eventsOf_summary, List.filterMap_filterMap]
  refine List.pairwise_filterMap.2 ((pairwise_actions distinct n).imp ?_)
  intro x y hxy k hk k' hk' heq
  obtain ⟨e, he, hk⟩ := Option.bind_eq_some_iff.1 hk
  obtain ⟨e', he', hk'⟩ := Option.bind_eq_some_iff.1 hk'
  cases e with
  | call => cases hk
  | access a =>
    cases e' with
    | call => cases hk'
    | access a' =>
      cases hk
      cases hk'
      obtain ⟨r, hr, hsite, _⟩ := eventAt?_eq_access he
      obtain ⟨r', hr', hsite', _⟩ := eventAt?_eq_access he'
      have hsites : a.site = a'.site := congrArg AccessKey.site heq
      exact hxy r r' hr hr' (hsite.symm.trans (hsites.trans hsite'))

section

variable {level : Level} {summary : Summary} {must : Solution (State MustCache)}
  {may : Solution (State MayCache)}

/-- The verdicts on the accesses of a node. -/
lemma mem_nodeVerdicts {e : AccessKey × Verdict} :
    e ∈ s.nodeVerdicts p level summary must may n ↔
      ∃ (i : Nat) (a : Access), (summary.eventsOf n)[i]? = some (.access a) ∧
        e = (⟨p, a.site, level⟩, ⟨a.reach,
          a.classify (must.stateAt summary n i) (may.stateAt summary n i),
          (s.nest p).innermost? n⟩) := by
  unfold nodeVerdicts
  simp only
  rw [List.mem_filterMap]
  constructor
  · rintro ⟨⟨event, beforeMust, beforeMay⟩, hmem, he⟩
    obtain ⟨i, hi⟩ := List.mem_iff_getElem?.1 hmem
    obtain ⟨hevent, hbefore⟩ := List.getElem?_zip_eq_some.1 hi
    obtain ⟨hmust, hmay⟩ := List.getElem?_zip_eq_some.1 hbefore
    cases event with
    | call => cases he
    | access a =>
      rw [Solution.getElem?_beforeEvents hevent] at hmust hmay
      cases he
      cases hmust
      cases hmay
      exact ⟨i, a, hevent, rfl⟩
  · rintro ⟨i, a, hevent, rfl⟩
    refine ⟨(.access a, must.stateAt summary n i, may.stateAt summary n i), ?_, rfl⟩
    refine List.mem_iff_getElem?.2 ⟨i, List.getElem?_zip_eq_some.2 ⟨hevent, ?_⟩⟩
    exact List.getElem?_zip_eq_some.2
      ⟨Solution.getElem?_beforeEvents hevent, Solution.getElem?_beforeEvents hevent⟩

/-- They are verdicts on the accesses among the events, in order. -/
lemma keys_nodeVerdicts_sublist :
    ((s.nodeVerdicts p level summary must may n).map Prod.fst).Sublist
      ((summary.eventsOf n).filterMap (keyOf? p level)) := by
  unfold nodeVerdicts
  simp only
  generalize (must.beforeEvents summary n).zip (may.beforeEvents summary n) = states
  rw [List.map_filterMap]
  apply sublist_filterMap_zip
  intro event before
  cases event <;> rfl

end

/-- They are on accesses of the node. -/
lemma node_of_mem_nodeVerdicts {coldStart : Bool} {must : Solution (State MustCache)}
    {may : Solution (State MayCache)} {e : AccessKey × Verdict} (he : e ∈
      s.nodeVerdicts p cache.1 (s.summary f p cache.1 cache.2 coldStart) must may n) :
    e.1.site.node = n := by
  obtain ⟨i, a, hevent, rfl⟩ := mem_nodeVerdicts.1 he
  exact node_of_event (List.mem_of_getElem? hevent)

/-- The verdicts of a level are on different accesses. -/
lemma nodup_found (distinct : s.DistinctAddresses p) {coldStart : Bool}
    {must : Solution (State MustCache)} {may : Solution (State MayCache)} :
    ((s.found p cache.1 (s.summary f p cache.1 cache.2 coldStart) must may).map Prod.fst).Nodup := by
  unfold found
  rw [List.map_flatMap]
  refine List.nodup_flatMap.2 ⟨?_, ?_⟩
  · intro n _
    exact (nodup_keys distinct coldStart n).sublist keys_nodeVerdicts_sublist
  · refine (List.nodup_range : (s.procedure p).nodeIds.Nodup).imp ?_
    intro m n hne k hm hn
    obtain ⟨e, he, rfl⟩ := List.mem_map.1 hm
    obtain ⟨e', he', heq⟩ := List.mem_map.1 hn
    rw [← (node_of_mem_nodeVerdicts he), ← heq, node_of_mem_nodeVerdicts he'] at hne
    exact hne rfl

/-! ### All levels of a procedure -/

/-- The analyses of a procedure at all levels, with the findings that each of them started from. -/
structure Analyses (s : Study) (p : Nat) (f : Findings) where
  before : Level × Geometry → Findings
  must : Level × Geometry → Solution (State MustCache)
  may : Level × Geometry → Solution (State MayCache)
  analysed : ∀ cache ∈ s.hierarchy.caches.entries,
    s.AnalysedFrom p cache (before cache) f (must cache) (may cache)

/-- Levels that are analysed make up analyses of the procedure. -/
lemma nonempty_analyses (h : ∀ cache ∈ s.hierarchy.caches.entries, s.Analysed p f cache) :
    Nonempty (s.Analyses p f) := by
  have : Nonempty Findings := ⟨{}⟩
  have : Nonempty (Solution (State MustCache)) := ⟨⟨{}, {}, 0⟩⟩
  have : Nonempty (Solution (State MayCache)) := ⟨⟨{}, {}, 0⟩⟩
  choose! before must may analysed using h
  exact ⟨before, must, may, analysed⟩

namespace Analyses

/-- The procedure as a level sees it. -/
def summary (A : s.Analyses p f) (cache : Level × Geometry) : Summary :=
  s.summary (A.before cache) p cache.1 cache.2 (s.startsCold p)

/-- How many events of a level lie behind when a number of actions of a node do. -/
def position (A : s.Analyses p f) (cache : Level × Geometry) (n j : Nat) : Nat :=
  (((s.actions p n).take j).filterMap (s.eventAt? (A.before cache) p cache n)).length

variable {A : s.Analyses p f} {j : Nat} {r : Request} {action : NodeAction}

/-- The events of a node are those of its actions. -/
lemma eventsOf_summary :
    (A.summary cache).eventsOf n =
      (s.actions p n).filterMap (s.eventAt? (A.before cache) p cache n) :=
  Study.eventsOf_summary ..

/-- Summaries list their edges alike from both ends. -/
lemma transposed_summary (A : s.Analyses p f) (cache : Level × Geometry) :
    (A.summary cache).Transposed :=
  s.transposed_summary (A.before cache) p cache (s.startsCold p)

/-- An action that the level sees is its event at the position. -/
lemma getElem?_position {e : Event} (haction : (s.actions p n)[j]? = some action)
    (he : s.eventAt? (A.before cache) p cache n action = some e) :
    ((A.summary cache).eventsOf n)[A.position cache n j]? = some e := by
  obtain ⟨hj, rfl⟩ := List.getElem?_eq_some_iff.1 haction
  have hsplit : (s.actions p n).filterMap (s.eventAt? (A.before cache) p cache n) =
      ((s.actions p n).take j).filterMap (s.eventAt? (A.before cache) p cache n) ++
        e :: ((s.actions p n).drop (j + 1)).filterMap (s.eventAt? (A.before cache) p cache n) := by
    rw [← List.filterMap_cons_some he, ← List.drop_eq_getElem_cons hj, ← List.filterMap_append,
      List.take_append_drop]
  rw [eventsOf_summary, hsplit, position, List.getElem?_append_right le_rfl, Nat.sub_self]
  rfl

/-- An action is followed by the next one behind its own events. -/
lemma position_succ (haction : (s.actions p n)[j]? = some action) :
    A.position cache n (j + 1) = A.position cache n j +
      (s.eventAt? (A.before cache) p cache n action).toList.length := by
  unfold position
  rw [List.take_add_one, haction, Option.toList_some, List.filterMap_append, List.length_append]
  cases h : s.eventAt? (A.before cache) p cache n action <;> simp [h]

/-- Behind the last action all events have been seen. -/
lemma position_length :
    A.position cache n (s.actions p n).length = ((A.summary cache).eventsOf n).length := by
  rw [position, List.take_length, eventsOf_summary]

/-- A verdict is on an event of the level, from an access that it serves and that may reach it. -/
lemma exists_event (A : s.Analyses p f) (hcache : cache ∈ s.hierarchy.caches.entries) {site : Site}
    {v : Verdict} (h : f.verdicts.get? ⟨p, site, cache.1⟩ = some v) :
    ∃ (r : Request) (i : Nat) (a : Access), .access r ∈ s.actions p site.node ∧ r.site = site ∧
      ((A.summary cache).eventsOf site.node)[i]? = some (.access a) ∧
      a.site = site ∧ cache ∈ s.hierarchy.chain site.kind ∧ s.reachOf f p site cache.1 ≠ .never ∧
      v = ⟨s.reachOf f p site cache.1,
        a.classify ((A.must cache).stateAt (A.summary cache) site.node i)
          ((A.may cache).stateAt (A.summary cache) site.node i),
        (s.nest p).innermost? site.node⟩ := by
  have analysed := A.analysed cache hcache
  rw [analysed.verdicts] at h
  have hmem := (mem_of_get?_addVerdicts h).resolve_left fun h => by cases h
  obtain ⟨n, _, hmem⟩ := List.mem_flatMap.1 hmem
  obtain ⟨i, a, hevent, heq⟩ := mem_nodeVerdicts.1 hmem
  obtain ⟨rfl, rfl⟩ : site = a.site ∧ v = _ := by
    obtain ⟨hkey, hv⟩ := Prod.mk.inj heq
    exact ⟨congrArg AccessKey.site hkey, hv⟩
  have hactions := List.mem_of_getElem? hevent
  rw [Study.eventsOf_summary] at hactions
  obtain ⟨action, haction, hactions⟩ := List.mem_filterMap.1 hactions
  obtain ⟨r, rfl, hsite, hreach, _, hserves, hne⟩ := eventAt?_eq_access hactions
  obtain rfl : n = a.site.node := by rw [hsite, site_of_mem_actions haction]
  refine ⟨r, i, a, haction, hsite.symm, hevent, rfl,
    List.mem_filter.2 ⟨hcache, hsite ▸ hserves⟩, ?_, ?_⟩
  · rw [← analysed.reach, hsite]
    exact hne
  · rw [← analysed.reach, hsite, ← hreach, ← hsite]
    rfl

/-- There is no verdict on an access that never reaches the level. -/
lemma verdict_eq_none (A : s.Analyses p f) (hcache : cache ∈ s.hierarchy.caches.entries)
    {site : Site} (hreach : s.reachOf f p site cache.1 = .never) :
    f.verdicts.get? ⟨p, site, cache.1⟩ = none := by
  rw [Option.eq_none_iff_forall_ne_some]
  intro v h
  obtain ⟨_, _, _, _, _, _, _, _, hne, _⟩ := A.exists_event hcache h
  exact hne hreach

/-- An access that is an event of the level has a verdict among those found. -/
lemma mem_found_of_action {a : Access} (haction : (s.actions p n)[j]? = some (.access r))
    (hevent : s.eventAt? (A.before cache) p cache n (.access r) = some (.access a)) :
    (⟨p, a.site, cache.1⟩, ⟨a.reach, a.classify
        ((A.must cache).stateAt (A.summary cache) n (A.position cache n j))
        ((A.may cache).stateAt (A.summary cache) n (A.position cache n j)),
        (s.nest p).innermost? n⟩) ∈
      s.found p cache.1 (A.summary cache) (A.must cache) (A.may cache) := by
  obtain ⟨node, _, hnode, _⟩ := mem_actions (List.mem_of_getElem? haction)
  obtain ⟨hn, _⟩ := List.getElem?_eq_some_iff.1 hnode
  refine List.mem_flatMap.2 ⟨n, List.mem_range.2 hn, ?_⟩
  exact mem_nodeVerdicts.2 ⟨_, _, getElem?_position haction hevent, rfl⟩

/-- An access that the level serves and that may reach it has a verdict. -/
lemma exists_verdict (A : s.Analyses p f) (hcache : cache ∈ s.hierarchy.chain r.site.kind)
    (haction : .access r ∈ s.actions p n) (hreach : s.reachOf f p r.site cache.1 ≠ .never) :
    ∃ v, f.verdicts.get? ⟨p, r.site, cache.1⟩ = some v := by
  obtain ⟨hentries, hserves⟩ := List.mem_filter.1 hcache
  have analysed := A.analysed cache hentries
  rw [← analysed.reach] at hreach
  obtain ⟨frameOffset, hevent⟩ := eventAt?_access (n := n) hserves hreach
  obtain ⟨j, haction⟩ := List.mem_iff_getElem?.1 haction
  rw [analysed.verdicts]
  apply exists_get?_addVerdicts
  exact .inr (List.mem_map_of_mem (mem_found_of_action haction hevent))

/-- The verdict on an access that may reach the level is that on its event there. -/
lemma verdict_eq (A : s.Analyses p f) (distinct : s.DistinctAddresses p)
    (hcache : cache ∈ s.hierarchy.chain r.site.kind)
    (haction : (s.actions p n)[j]? = some (.access r))
    (hreach : s.reachOf f p r.site cache.1 ≠ .never) :
    ∃ a : Access, a.reach = s.reachOf f p r.site cache.1 ∧
      a.target = r.targetAt s.hierarchy.finestShift cache.2 ∧
      s.eventAt? (A.before cache) p cache n (.access r) = some (.access a) ∧
      f.verdicts.get? ⟨p, r.site, cache.1⟩ = some ⟨a.reach, a.classify
        ((A.must cache).stateAt (A.summary cache) n (A.position cache n j))
        ((A.may cache).stateAt (A.summary cache) n (A.position cache n j)),
        (s.nest p).innermost? n⟩ := by
  obtain ⟨hentries, hserves⟩ := List.mem_filter.1 hcache
  have analysed := A.analysed cache hentries
  rw [← analysed.reach] at hreach ⊢
  obtain ⟨frameOffset, hevent⟩ := eventAt?_access hserves hreach
  refine ⟨_, rfl, rfl, hevent, ?_⟩
  rw [analysed.verdicts]
  apply get?_addVerdicts_of_mem (nodup_found distinct)
  exact mem_found_of_action haction hevent

/-- An access without a verdict never reaches the level. -/
lemma reachOf_eq_never (A : s.Analyses p f) (hcache : cache ∈ s.hierarchy.chain r.site.kind)
    (haction : (s.actions p n)[j]? = some (.access r))
    (hnone : f.verdicts.get? ⟨p, r.site, cache.1⟩ = none) :
    s.reachOf f p r.site cache.1 = .never := by
  by_contra hreach
  obtain ⟨_, hget⟩ := A.exists_verdict hcache (List.mem_of_getElem? haction) hreach
  rw [hnone] at hget
  cases hget

end Analyses

end Study

end CacheVerdict
