import CacheVerdict.Proofs.Analysis.Footprints
import CacheVerdict.Proofs.Analysis.Verdicts
import CacheVerdict.Proofs.Cache.Agreement

/-!
# Accesses that never arrive

The summary of a level leaves out the accesses that never reach it, so which events there are hangs
on the verdicts at the levels before. What a level is offered keeps them, as events that change
nothing, and stands place by place beside the actions of the procedure (`Study.offers`). The analyses
of both come to the same (`Solution.solve?_arriving`), so the verdicts that are found are those on
what the level is offered (`Study.Analyses.verdict_offered`).
-/

namespace CacheVerdict

/-! ### Events that change nothing -/

/-- Whether an event may happen. -/
def Event.arrives : Event → Bool
  | .access a => a.reach ≠ .never
  | .call _ => true

/-- The events that may happen have the effect of all. -/
lemma Domain.transferAll_arrives {S : Type} [Domain S] (g : Geometry) (state : S)
    (events : List Event) :
    transferAll g state (events.filter Event.arrives) = transferAll g state events := by
  induction events generalizing state with
  | nil => rfl
  | cons e events ih =>
    by_cases harrives : e.arrives = true
    · rw [List.filter_cons_of_pos harrives]
      exact ih _
    · have hidle : transfer g state e = state := by
        cases e with
        | call => exact absurd rfl harrives
        | access a =>
          have hnever : a.reach = .never := by simpa [Event.arrives] using harrives
          rw [transfer, hnever]
      rw [List.filter_cons_of_neg harrives, ih]
      exact congrArg (transferAll g · events) hidle.symm

/-- The procedure without the accesses that never happen. -/
def Summary.arriving (s : Summary) : Summary :=
  { s with events := s.events.map (List.filter Event.arrives) }

section

variable {S : Type} [Domain S] {s : Summary} {r : Region}

/-- The events that arrive are kept in order. -/
lemma Summary.eventsOf_arriving (s : Summary) (n : Nat) :
    s.arriving.eventsOf n = (s.eventsOf n).filter Event.arrives := by
  unfold eventsOf arriving
  rw [List.getElem?_map]
  cases s.events[n]? <;> rfl

/-- Leaving events out leaves all nodes. -/
lemma Summary.whole_arriving (s : Summary) : Region.whole s.arriving = Region.whole s := by
  rw [Region.whole, Region.whole, arriving, List.length_map]

/-- A visit looks at the events that arrive only. -/
lemma Iteration.visit_arriving [DecidableEq S] (it : Iteration S) (n : Nat) :
    visit s.arriving r it n = visit s r it n := by
  have houtput : Domain.transferAll s.arriving.geometry (meet s.arriving r it.outs n)
      (s.arriving.eventsOf n) = Domain.transferAll s.geometry (meet s r it.outs n)
        (s.eventsOf n) := by
    rw [s.eventsOf_arriving]
    exact Domain.transferAll_arrives s.geometry _ _
  simp only [visit, houtput]
  rfl

/-- Both analyses come to the same. -/
lemma Solution.solve?_arriving [DecidableEq S] {fuel : Nat} :
    (Solution.solve? fuel s.arriving r : Option (Solution S)) = Solution.solve? fuel s r := by
  have run (fuel : Nat) (it : Iteration S) :
      Iteration.run s.arriving r fuel it = Iteration.run s r fuel it := by
    induction fuel generalizing it with
    | zero =>
      unfold Iteration.run
      cases it.queue <;> rfl
    | succ fuel ih =>
      unfold Iteration.run
      cases it.queue with
      | nil => rfl
      | cons n rest =>
        simp only
        rw [ih, Iteration.visit_arriving]
  exact run fuel _

/-- The position of an event among those that may happen. -/
def Summary.arrivalsBefore (s : Summary) (n i : Nat) : Nat :=
  (((s.eventsOf n).take i).filter Event.arrives).length

/-- The state before an event is the same among those that may happen. -/
lemma Solution.stateAt_arriving (solution : Solution S) (s : Summary) (n i : Nat) :
    solution.stateAt s.arriving n (s.arrivalsBefore n i) = solution.stateAt s n i := by
  have htake : (s.arriving.eventsOf n).take (s.arrivalsBefore n i) =
      ((s.eventsOf n).take i).filter Event.arrives := by
    have hsplit : (s.eventsOf n).filter Event.arrives =
        ((s.eventsOf n).take i).filter Event.arrives ++
          ((s.eventsOf n).drop i).filter Event.arrives := by
      rw [← List.filter_append, List.take_append_drop]
    rw [s.eventsOf_arriving, hsplit, Summary.arrivalsBefore, List.take_left]
  unfold stateAt
  rw [htake]
  exact Domain.transferAll_arrives s.geometry _ _

end

/-- So are the solutions of both analyses together. -/
lemma Summary.Ends.of_arriving {s : Summary} {must : Solution (State MustCache)}
    {may : Solution (State MayCache)} (ends : s.arriving.Ends must may) : s.Ends must may := by
  obtain ⟨⟨fuel, hmust⟩, fuel', hmay⟩ := ends
  rw [Solution.solve?_arriving, s.whole_arriving] at hmust hmay
  exact ⟨⟨fuel, hmust⟩, fuel', hmay⟩

/-! ### What a level is offered -/

namespace Study

variable {s : Study} {f before : Findings} {p n i : Nat} {cache : Level × Geometry}

/-- What a level is offered of an action, whether or not it arrives. -/
def offered? (s : Study) (f : Findings) (p : Nat) (cache : Level × Geometry) (n : Nat) :
    NodeAction → Option Event
  | .access r =>
    if cache.1.serves r.site.kind then
      some (.access
        { site := r.site
          target := r.targetAt s.hierarchy.finestShift cache.2
          reach := s.reachOf f p r.site cache.1
          frameOffset := if r.site.kind = .data then
            (s.referencesOf p).frameOffsets.get? r.site.instruction else none })
    else none
  | .call callee => some (.call (.ofEffect cache.2 s.settings.stackBase
      ((s.calleeEffect f p callee cache.1).calledAt ((s.referencesOf p).heights.atEntry n))))

/-- A level sees what it is offered and arrives. -/
lemma eventAt?_eq_filter {action : NodeAction} :
    s.eventAt? f p cache n action = (s.offered? f p cache n action).filter Event.arrives := by
  cases action with
  | call => rfl
  | access r =>
    rw [eventAt?_request, offered?]
    split
    · unfold accessEvent?
      by_cases hreach : s.reachOf f p r.site cache.1 = .never <;>
        simp [hreach, Event.arrives, Option.filter]
    · rfl

/-- A procedure as it is offered to a level. -/
def offers (s : Study) (f : Findings) (p : Nat) (cache : Level × Geometry) : Summary :=
  { s.summary f p cache.1 cache.2 (s.startsCold p) with
    events := (s.procedure p).nodeIds.map fun n =>
      (s.actions p n).filterMap (s.offered? f p cache n) }

/-- The position among what the level is offered of an action of a node. -/
def offersBefore (s : Study) (f : Findings) (p : Nat) (cache : Level × Geometry) (n j : Nat) : Nat :=
  (((s.actions p n).take j).filterMap (s.offered? f p cache n)).length

/-- The level is offered the accesses of its kinds, and the calls. -/
lemma eventsOf_offers (s : Study) (f : Findings) (p : Nat) (cache : Level × Geometry) (n : Nat) :
    (s.offers f p cache).eventsOf n = (s.actions p n).filterMap (s.offered? f p cache n) := by
  unfold Summary.eventsOf offers Procedure.nodeIds
  rcases Nat.lt_or_ge n (s.procedure p).nodes.length with hn | hn
  · simp [hn]
  · simp [hn, actions]

/-- The edges of what is offered are listed alike from both ends. -/
lemma linked_offers (s : Study) (f : Findings) (p : Nat) (cache : Level × Geometry) :
    (s.offers f p cache).Linked (.whole (s.offers f p cache)) := by
  have transposed := s.transposed_summary f p cache (s.startsCold p)
  have hlength : (s.offers f p cache).events.length =
      (s.summary f p cache.1 cache.2 (s.startsCold p)).events.length := by
    simp only [offers, summary, List.length_map]
  intro m hm n hn hpred
  have hm : m < (s.offers f p cache).events.length := OrderedSet.mem_below.1 hm
  have hn : n < (s.offers f p cache).events.length := OrderedSet.mem_below.1 hn
  rw [hlength] at hm hn
  exact (transposed m hm n hn).2 hpred

/-- Counting what is offered before an action finds its place. -/
lemma take_offersBefore (j : Nat) :
    ((s.offers f p cache).eventsOf n).take (s.offersBefore f p cache n j) =
      ((s.actions p n).take j).filterMap (s.offered? f p cache n) := by
  rw [eventsOf_offers]
  conv_lhs => rw [← List.take_append_drop j (s.actions p n)]
  rw [List.filterMap_append, offersBefore, List.take_left]

/-- An action is offered at its position. -/
lemma getElem?_offers {j : Nat} {action : NodeAction} {e : Event}
    (haction : (s.actions p n)[j]? = some action) (he : s.offered? f p cache n action = some e) :
    ((s.offers f p cache).eventsOf n)[s.offersBefore f p cache n j]? = some e := by
  obtain ⟨hj, rfl⟩ := List.getElem?_eq_some_iff.1 haction
  have hsplit : (s.actions p n).filterMap (s.offered? f p cache n) =
      ((s.actions p n).take j).filterMap (s.offered? f p cache n) ++
        e :: ((s.actions p n).drop (j + 1)).filterMap (s.offered? f p cache n) := by
    rw [← List.filterMap_cons_some he, ← List.drop_eq_getElem_cons hj, ← List.filterMap_append,
      List.take_append_drop]
  rw [eventsOf_offers, hsplit, offersBefore, List.getElem?_append_right le_rfl, Nat.sub_self]
  rfl

namespace Analyses

/-- What a level sees of an action is what it is offered in the end, if that arrives: the reach of an
access is read from verdicts that stay, and the effect of a call from a footprint that does. -/
lemma eventAt?_before (A : s.Analyses p f) (kept : s.Kept p cache f before)
    (hcache : cache ∈ s.hierarchy.caches.entries) {action : NodeAction}
    (haction : action ∈ s.actions p n) :
    s.eventAt? (A.before cache) p cache n action =
      (s.offered? f p cache n action).filter Event.arrives := by
  cases action with
  | access r =>
    rw [eventAt?_eq_filter, offered?, offered?, (A.analysed cache hcache).reach]
  | call callee =>
    -- the node does nothing else, and the findings that the kept summary is from have the same event
    obtain ⟨i, hcall⟩ := List.mem_iff_getElem?.1 haction
    have hsummary : s.summary before p cache.1 cache.2 (s.startsCold p) = A.summary cache :=
      Option.some_inj.1 (kept.summary.symm.trans (A.analysed cache hcache).summary)
    have hevents := congrArg (·.eventsOf n) hsummary
    simp only [Study.eventsOf_summary, Analyses.eventsOf_summary, (actions_of_call hcall).1,
      List.filterMap_cons, List.filterMap_nil, eventAt?] at hevents
    rw [eventAt?, ← (List.cons.inj hevents).1, kept.effect hcall]
    rfl

/-- So it is for actions of a node together. -/
lemma filterMap_eventAt? (A : s.Analyses p f) (kept : s.Kept p cache f before)
    (hcache : cache ∈ s.hierarchy.caches.entries) {actions : List NodeAction}
    (hactions : actions ⊆ s.actions p n) :
    actions.filterMap (s.eventAt? (A.before cache) p cache n) =
      (actions.filterMap (s.offered? f p cache n)).filter Event.arrives := by
  rw [List.filter_filterMap]
  exact List.filterMap_congr fun action haction =>
    A.eventAt?_before kept hcache (hactions haction)

/-- What a level sees of a procedure is what it is offered and arrives. -/
lemma summary_eq_arriving (A : s.Analyses p f) (kept : s.Kept p cache f before)
    (hcache : cache ∈ s.hierarchy.caches.entries) :
    A.summary cache = (s.offers f p cache).arriving := by
  have hevents : (s.procedure p).nodeIds.map (s.nodeEvents (A.before cache) p cache.1 cache.2) =
      ((s.procedure p).nodeIds.map fun n =>
        (s.actions p n).filterMap (s.offered? f p cache n)).map (List.filter Event.arrives) := by
    rw [List.map_map]
    refine List.map_congr_left fun n _ => ?_
    rw [Study.nodeEvents_eq]
    exact A.filterMap_eventAt? kept hcache (List.Subset.refl _)
  exact congrArg (fun events => { A.summary cache with events }) hevents

/-- In the end, the summaries that are kept are of what arrives. -/
lemma get?_summaries (A : s.Analyses p f) (kept : s.Kept p cache f before)
    (hcache : cache ∈ s.hierarchy.caches.entries) :
    f.summaries.get? ⟨p, cache.1⟩ = some (s.offers f p cache).arriving := by
  rw [← A.summary_eq_arriving kept hcache]
  exact (A.analysed cache hcache).summary

/-- So are the footprints. -/
lemma get?_footprints (A : s.Analyses p f) (kept : s.Kept p cache f before)
    (hcache : cache ∈ s.hierarchy.caches.entries) :
    f.footprints.get? ⟨p, cache.1⟩ = some (s.offers f p cache).arriving.footprint := by
  have hsummary := kept.summary.symm.trans (A.get?_summaries kept hcache)
  rw [kept.footprint, Option.some_inj.1 hsummary]

variable {r : Request} {j : Nat}

/-- The analyses of a level are analyses of what it is offered. -/
lemma ends_offers (A : s.Analyses p f) (kept : s.Kept p cache f before)
    (hcache : cache ∈ s.hierarchy.caches.entries) :
    (s.offers f p cache).Ends (A.must cache) (A.may cache) := by
  have analysed := A.analysed cache hcache
  apply Summary.Ends.of_arriving
  rw [← A.summary_eq_arriving kept hcache]
  exact ⟨analysed.solvedMust, analysed.solvedMay⟩

/-- The verdict on an access that may reach a level is that on what the level is offered. -/
lemma verdict_offered (A : s.Analyses p f) (kept : s.Kept p cache f before)
    (distinct : s.DistinctAddresses p) (hcache : cache ∈ s.hierarchy.chain r.site.kind)
    (haction : (s.actions p n)[j]? = some (.access r))
    (hreach : s.reachOf f p r.site cache.1 ≠ .never) :
    ∃ c, f.verdicts.get? ⟨p, r.site, cache.1⟩ =
        some ⟨s.reachOf f p r.site cache.1, c, (s.nest p).innermost? n⟩ ∧
      (s.offers f p cache).classAt? (A.must cache) (A.may cache) n (s.offersBefore f p cache n j) =
        some c := by
  obtain ⟨hentries, hserves⟩ := List.mem_filter.1 hcache
  obtain ⟨a, hreach', htarget, hevent, hverdict⟩ := A.verdict_eq distinct hcache haction hreach
  refine ⟨_, hreach' ▸ hverdict, ?_⟩
  have hoffered : s.offered? f p cache n (.access r) = some (.access a) := by
    have hsame : s.offered? f p cache n (.access r) =
        s.offered? (A.before cache) p cache n (.access r) := by
      rw [offered?, offered?, (A.analysed cache hentries).reach]
    rw [eventAt?_eq_filter, Option.filter_eq_some_iff] at hevent
    exact hsame.trans hevent.1
  have hposition : A.position cache n j =
      (s.offers f p cache).arrivalsBefore n (s.offersBefore f p cache n j) := by
    rw [position, A.filterMap_eventAt? kept hentries (List.take_subset _ _),
      Summary.arrivalsBefore, take_offersBefore]
  rw [Summary.classAt?_eq (getElem?_offers haction hoffered), hposition,
    A.summary_eq_arriving kept hentries, Solution.stateAt_arriving, Solution.stateAt_arriving]

/-- Verdicts are on accesses of the procedure that the level serves and that may reach it. -/
lemma exists_request (A : s.Analyses p f) (hcache : cache ∈ s.hierarchy.caches.entries) {site : Site}
    {v : Verdict} (h : f.verdicts.get? ⟨p, site, cache.1⟩ = some v) :
    ∃ (n j : Nat) (r : Request), (s.actions p n)[j]? = some (.access r) ∧ r.site = site ∧
      cache ∈ s.hierarchy.chain site.kind ∧ s.reachOf f p site cache.1 ≠ .never := by
  obtain ⟨r, _, _, haction, hsite, _, _, hchain, hreach, _⟩ := A.exists_event hcache h
  obtain ⟨j, hj⟩ := List.mem_iff_getElem?.1 haction
  exact ⟨site.node, j, r, hj, hsite, hchain, hreach⟩

end Analyses

/-- When the analysis of a program has ended, every procedure is analysed at every level, from
findings that agree with the final ones. -/
lemma exists_analyses {fuel : Nat} (hs : s.callOrder = s.program.callOrder)
    (h : s.classify fuel = some f) (hp : p < s.program.procedures.length) :
    ∃ _ : s.Analyses p f, ∀ cache ∈ s.hierarchy.caches.entries, ∃ before, s.Kept p cache f before := by
  have hnodup : s.callOrder.order.Nodup := hs ▸ s.program.nodup_callOrder
  have hmem : p ∈ s.callOrder.order := hs ▸ Program.mem_callOrder hp
  obtain ⟨A⟩ := nonempty_analyses fun _ => analysed_of_classify hnodup h hmem
  exact ⟨A, fun cache hcache => exists_kept hs h hp hcache⟩

end Study

end CacheVerdict
