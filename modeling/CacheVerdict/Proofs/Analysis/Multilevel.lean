import CacheVerdict.Proofs.Analysis.Verdicts
import CacheVerdict.Proofs.Cache.MaySound
import CacheVerdict.Proofs.Cache.MustSound

/-!
# Verdicts hold at every level

An execution through all levels looks to each level like a run of the summary that was analysed for
it: the accesses that the summary leaves out never arrive, and those that it takes to arrive always
do. Whether an access arrives at a level hangs on the verdict at the level before, so the argument
goes down the chain of the access, and along the execution. Main statement: `verdicts_sound`.
-/

namespace CacheVerdict

namespace Verdict

variable {v : Verdict}

/-- An access does not arrive behind a level that it does not reach or always hits. -/
lemma nextReach_some_eq_never :
    nextReach (some v) = .never ↔ v.reach = .never ∨ v.classification = .alwaysHit := by
  obtain ⟨reach, classification, _⟩ := v
  cases reach <;> cases classification <;> simp [nextReach]

/-- An access arrives for certain behind a level that it always reaches and misses. -/
lemma nextReach_some_eq_always :
    nextReach (some v) = .always ↔ v.reach = .always ∧ v.classification = .alwaysMiss := by
  obtain ⟨reach, classification, _⟩ := v
  cases reach <;> cases classification <;> simp [nextReach]

end Verdict

/-- What comes next is an access, and the line that it goes to at each level is one that the level
takes it to go to. Levels that it is never to reach are left out. -/
structure Stage.Requests (s : Study) (f : Findings) (p : Nat) (st : Stage) (r : Request)
    (line : Level × Geometry → Line) : Prop where
  action : (s.actions p st.node)[st.index]? = some (.access r)
  admits : ∀ cache ∈ s.hierarchy.chain r.site.kind, s.reachOf f p r.site cache.1 ≠ .never →
    (r.targetAt s.hierarchy.finestShift cache.2).Admits (line cache)

/-- An access to an address goes to its line at each level. -/
lemma Stage.Accesses.requests {s : Study} {f : Findings} {p : Nat} {st : Stage} {r : Request}
    {a : Address} (accesses : st.Accesses s p r a) :
    st.Requests s f p r fun cache => cache.2.lineOf a where
  action := accesses.action
  admits _ _ _ := Request.admits_targetAt accesses.picks

namespace Study.Analyses

variable {s : Study} {f : Findings} {p : Nat} {A : s.Analyses p f} {cache : Level × Geometry}
  {st : Stage}

/-- The analyses apply: no verdict takes the place of another, and no call overflows its counter. -/
structure Applicable (A : s.Analyses p f) : Prop where
  distinct : s.DistinctAddresses p
  fits : ∀ cache ∈ s.hierarchy.caches.entries, (A.summary cache).CallsFit

/-- At its position in the events of the level, the stage is a moment of a run of the level. -/
def Follows (A : s.Analyses p f) (st : Stage) (cache : Level × Geometry) : Prop :=
  ∃ past : List Touched, Run (A.summary cache) (.whole (A.summary cache))
    (fun c => s.startsCold p = true → c = LruCache.empty cache.2)
    ⟨st.node, A.position cache st.node st.index, st.caches cache, past⟩

/-! ### Hits and misses -/

section

variable {r : Request} {a : Address} {line : Level × Geometry → Line} {v : Verdict}

/-- What the verdict on an access was made from. -/
lemma Applicable.verdict_spec (applicable : A.Applicable)
    (hcache : cache ∈ s.hierarchy.chain r.site.kind) (requests : st.Requests s f p r line)
    (hverdict : f.verdicts.get? ⟨p, r.site, cache.1⟩ = some v) :
    ∃ access : Access, v.reach = s.reachOf f p r.site cache.1 ∧
      v.classification = access.classify
        ((A.must cache).stateAt (A.summary cache) st.node (A.position cache st.node st.index))
        ((A.may cache).stateAt (A.summary cache) st.node (A.position cache st.node st.index)) ∧
      (Event.access access).Performs [line cache] := by
  have hreach : s.reachOf f p r.site cache.1 ≠ .never := by
    intro hnever
    rw [A.verdict_eq_none (List.mem_filter.1 hcache).1 hnever] at hverdict
    cases hverdict
  obtain ⟨access, haccess, htarget, _, hget⟩ :=
    A.verdict_eq applicable.distinct hcache requests.action hreach
  rw [hverdict] at hget
  cases hget
  refine ⟨access, haccess, rfl, .of_reach ?_ ?_⟩
  · rw [haccess]
    exact hreach
  · rw [htarget]
    exact requests.admits cache hcache hreach

/-- An access that is said to hit finds its line. -/
lemma Follows.mem_of_alwaysHit (follows : A.Follows st cache) (applicable : A.Applicable)
    (hcache : cache ∈ s.hierarchy.chain r.site.kind) (requests : st.Requests s f p r line)
    (hverdict : f.verdicts.get? ⟨p, r.site, cache.1⟩ = some v)
    (hclass : v.classification = .alwaysHit) : line cache ∈ st.caches cache := by
  obtain ⟨access, _, hspec, performs⟩ := applicable.verdict_spec hcache requests hverdict
  obtain ⟨past, run⟩ := follows
  have hentries := (List.mem_filter.1 hcache).1
  obtain ⟨fuel, solved⟩ := (A.analysed cache hentries).solvedMust
  obtain ⟨held, hstate, describes⟩ := run.describes_must (A.transposed_summary cache)
    (applicable.fits cache hentries) solved
  rw [hstate, hclass] at hspec
  exact describes.mem_of_alwaysHit hspec.symm performs _ List.mem_cons_self

/-- An access that is said to miss does not find its line. -/
lemma Follows.not_mem_of_alwaysMiss (follows : A.Follows st cache) (applicable : A.Applicable)
    (hcache : cache ∈ s.hierarchy.chain r.site.kind) (requests : st.Requests s f p r line)
    (hverdict : f.verdicts.get? ⟨p, r.site, cache.1⟩ = some v)
    (hclass : v.classification = .alwaysMiss) : line cache ∉ st.caches cache := by
  obtain ⟨access, _, hspec, performs⟩ := applicable.verdict_spec hcache requests hverdict
  obtain ⟨past, run⟩ := follows
  have hentries := (List.mem_filter.1 hcache).1
  obtain ⟨fuel, solved⟩ := (A.analysed cache hentries).solvedMay
  obtain ⟨held, hstate, describes⟩ := run.describes_may (A.transposed_summary cache)
    (fun _ hc => hc) solved
  rw [hstate, hclass] at hspec
  exact describes.not_mem_of_alwaysMiss hspec.symm performs _ List.mem_cons_self

/-- Whether the caches in front of a level hit is as the reach of an access at the level says. -/
lemma Applicable.front_sound (applicable : A.Applicable)
    (follows : ∀ cache ∈ s.hierarchy.caches.entries, A.Follows st cache)
    (requests : st.Requests s f p r line) {front behind : List (Level × Geometry)}
    (hchain : s.hierarchy.chain r.site.kind = front ++ cache :: behind) :
    (s.reachOf f p r.site cache.1 = .never → ∃ c ∈ front, line c ∈ st.caches c) ∧
      (s.reachOf f p r.site cache.1 = .always → ∀ c ∈ front, line c ∉ st.caches c) := by
  -- from the nearest level on; at each further one, the verdict at the level before decides
  induction front using List.reverseRecOn generalizing cache behind with
  | nil =>
    rw [reachOf_first hchain]
    exact ⟨nofun, nofun⟩
  | append_singleton front last ih =>
    rw [List.append_assoc] at hchain
    have hlast : last ∈ s.hierarchy.chain r.site.kind := by simp [hchain]
    have hfollows := follows last (List.mem_filter.1 hlast).1
    obtain ⟨ihNever, ihAlways⟩ := ih hchain
    rw [reachOf_next hchain]
    cases hverdict : f.verdicts.get? ⟨p, r.site, last.1⟩ with
    | none =>
      refine ⟨fun _ => ?_, nofun⟩
      obtain ⟨c, hc, hhit⟩ :=
        ihNever (A.reachOf_eq_never hlast requests.action hverdict)
      exact ⟨c, List.mem_append_left _ hc, hhit⟩
    | some v =>
      obtain ⟨_, hreach, _⟩ := applicable.verdict_spec hlast requests hverdict
      constructor
      · intro hnever
        rcases Verdict.nextReach_some_eq_never.1 hnever with hnever | hhit
        · obtain ⟨c, hc, hhit⟩ := ihNever (hreach.symm.trans hnever)
          exact ⟨c, List.mem_append_left _ hc, hhit⟩
        · refine ⟨last, List.mem_append_right _ List.mem_cons_self, ?_⟩
          exact hfollows.mem_of_alwaysHit applicable hlast requests hverdict hhit
      · intro halways c hc
        obtain ⟨halways, hmiss⟩ := Verdict.nextReach_some_eq_always.1 halways
        rcases List.mem_append.1 hc with hc | hc
        · exact ihAlways (hreach.symm.trans halways) c hc
        · cases List.mem_singleton.1 hc
          exact hfollows.not_mem_of_alwaysMiss applicable hlast requests hverdict hmiss

/-- Whether an access to an address gets to a level is as its reach there says, if the caches hold
its line where those that are followed hold the requested one. -/
lemma Applicable.reached_requests (applicable : A.Applicable)
    (follows : ∀ cache ∈ s.hierarchy.caches.entries, A.Follows st cache)
    (requests : st.Requests s f p r line) {caches : Caches}
    (hsame : ∀ c ∈ s.hierarchy.chain r.site.kind, c.2.lineOf a ∈ caches c ↔ line c ∈ st.caches c)
    (hcache : cache ∈ s.hierarchy.chain r.site.kind) :
    (s.reachOf f p r.site cache.1 = .never →
      cache ∉ caches.reached a (s.hierarchy.chain r.site.kind)) ∧
    (s.reachOf f p r.site cache.1 = .always →
      cache ∈ caches.reached a (s.hierarchy.chain r.site.kind)) := by
  obtain ⟨front, behind, hchain⟩ := List.append_of_mem hcache
  have hfront : cache ∉ front := by
    have hnodup := (s.hierarchy.nodup_chain r.site.kind).of_map
    rw [hchain] at hnodup
    intro hmem
    exact List.disjoint_of_nodup_append hnodup hmem List.mem_cons_self
  have hsame' (c : Level × Geometry) (hc : c ∈ front) :
      c.2.lineOf a ∈ caches c ↔ line c ∈ st.caches c := by
    apply hsame
    rw [hchain]
    exact List.mem_append_left _ hc
  obtain ⟨never, always⟩ := applicable.front_sound follows requests hchain
  rw [hchain, Caches.mem_reached_iff hfront]
  constructor
  · intro hnever hmiss
    obtain ⟨c, hc, hhit⟩ := never hnever
    exact hmiss c hc ((hsame' c hc).2 hhit)
  · intro halways c hc hhit
    exact always halways c hc ((hsame' c hc).1 hhit)

/-- Whether an access gets to a level is as its reach there says. -/
lemma Applicable.reached_sound (applicable : A.Applicable)
    (follows : ∀ cache ∈ s.hierarchy.caches.entries, A.Follows st cache)
    (accesses : st.Accesses s p r a) (hcache : cache ∈ s.hierarchy.chain r.site.kind) :
    (s.reachOf f p r.site cache.1 = .never →
      cache ∉ st.caches.reached a (s.hierarchy.chain r.site.kind)) ∧
    (s.reachOf f p r.site cache.1 = .always →
      cache ∈ st.caches.reached a (s.hierarchy.chain r.site.kind)) :=
  applicable.reached_requests follows accesses.requests (fun _ _ => Iff.rfl) hcache

end

/-! ### Executions as runs -/

section

variable {action : NodeAction} {caches : Caches}

/-- An action that the level sees is an event of the run. -/
lemma Follows.event {e : Event} {lines : List Line} (follows : A.Follows st cache)
    (haction : (s.actions p st.node)[st.index]? = some action)
    (he : s.eventAt? (A.before cache) p cache st.node action = some e) (performs : e.Performs lines)
    (hcaches : caches cache = (st.caches cache).touchAll lines) :
    A.Follows ⟨st.node, st.index + 1, caches⟩ cache := by
  obtain ⟨past, run⟩ := follows
  unfold Follows
  simp only
  rw [position_succ haction, he, hcaches]
  exact ⟨_, run.event (getElem?_position haction he) performs⟩

/-- An action that the level does not see leaves the run where it is. -/
lemma Follows.skip (follows : A.Follows st cache)
    (haction : (s.actions p st.node)[st.index]? = some action)
    (he : s.eventAt? (A.before cache) p cache st.node action = none)
    (hcaches : caches cache = st.caches cache) :
    A.Follows ⟨st.node, st.index + 1, caches⟩ cache := by
  obtain ⟨past, run⟩ := follows
  unfold Follows
  simp only
  rw [position_succ haction, he, hcaches]
  exact ⟨past, run⟩

end

/-- After an access, a level has taken it as it sees it, if the access gets there where it always
should and stays away where it never should. -/
lemma Follows.access (follows : A.Follows st cache) (hcache : cache ∈ s.hierarchy.caches.entries)
    {r : Request} {line : Level × Geometry → Line} (requests : st.Requests s f p r line)
    {arrives : Prop} [Decidable arrives] (hchain : arrives → cache ∈ s.hierarchy.chain r.site.kind)
    (reached : cache ∈ s.hierarchy.chain r.site.kind →
      (s.reachOf f p r.site cache.1 = .never → ¬arrives) ∧
      (s.reachOf f p r.site cache.1 = .always → arrives)) {caches : Caches}
    (hcaches : caches cache =
      if arrives then (st.caches cache).touch (line cache) else st.caches cache) :
    A.Follows ⟨st.node, st.index + 1, caches⟩ cache := by
  have hbefore := (A.analysed cache hcache).reach r.site
  rcases Decidable.em (cache.1.serves r.site.kind = true ∧
    s.reachOf f p r.site cache.1 ≠ .never) with ⟨hserves, hreach⟩ | hunseen
  · have hmem : cache ∈ s.hierarchy.chain r.site.kind := List.mem_filter.2 ⟨hcache, hserves⟩
    have admits := requests.admits cache hmem hreach
    rw [← hbefore] at hreach reached
    obtain ⟨frameOffset, he⟩ := eventAt?_access (n := st.node) hserves hreach
    rcases Decidable.em arrives with hin | hout
    · apply follows.event requests.action he (.of_reach hreach admits)
      rw [hcaches, if_pos hin]
      rfl
    · -- only an access that is not certain to arrive can stay out
      have huncertain : s.reachOf (A.before cache) p r.site cache.1 = .uncertain := by
        cases h : s.reachOf (A.before cache) p r.site cache.1 with
        | always => exact absurd ((reached hmem).2 h) hout
        | uncertain => rfl
        | never => exact absurd h hreach
      apply follows.event requests.action he (.skipped huncertain)
      rw [hcaches, if_neg hout]
      rfl
  · apply follows.skip requests.action
    · exact eventAt?_eq_none (hbefore ▸ hunseen)
    · rw [hcaches, if_neg]
      intro hin
      apply hunseen
      exact ⟨(List.mem_filter.1 (hchain hin)).2, fun hnever => (reached (hchain hin)).1 hnever hin⟩

/-- After an access to an address, every level has taken it as it sees it. -/
lemma Applicable.follows_access (applicable : A.Applicable)
    (follows : ∀ cache ∈ s.hierarchy.caches.entries, A.Follows st cache) {r : Request}
    {a : Address} (accesses : st.Accesses s p r a) (hcache : cache ∈ s.hierarchy.caches.entries) :
    A.Follows ⟨st.node, st.index + 1, st.caches.access a (s.hierarchy.chain r.site.kind)⟩
      cache :=
  (follows cache hcache).access hcache accesses.requests Caches.mem_of_mem_reached
    (applicable.reached_sound follows accesses) rfl

/-- A procedure that has just been entered. -/
lemma follows_enter {n : Nat} {caches : Caches} (hentry : n ∈ (s.procedure p).entries)
    (hn : n < (s.procedure p).nodes.length)
    (hcold : s.startsCold p = true → caches cache = LruCache.empty cache.2) :
    A.Follows ⟨n, 0, caches⟩ cache :=
  ⟨[], .enter hentry (OrderedSet.mem_below.2 (Study.length_events_summary.symm ▸ hn)) hcold⟩

/-- Along an edge, every level goes on with what the node left. -/
lemma Follows.edge (follows : A.Follows st cache) (hnode : st.node < (s.procedure p).nodes.length)
    (hend : st.index = (s.actions p st.node).length) {n : Nat}
    (hsuccessor : n ∈ (s.procedure p).successors st.node)
    (hn : n < (s.procedure p).nodes.length) : A.Follows ⟨n, 0, st.caches⟩ cache := by
  obtain ⟨past, run⟩ := follows
  refine ⟨past, run.edge ?_ ?_ ?_⟩
  · rw [hend]
    exact A.position_length
  · exact (Study.successorsOf_summary hnode).symm ▸ hsuccessor
  · exact OrderedSet.mem_below.2 (Study.length_events_summary.symm ▸ hn)

/-- After a call, every level has taken what the call may do there. -/
lemma Follows.call (follows : A.Follows st cache) {callee : String}
    {lines : Level × Geometry → List Line} (hcache : cache ∈ s.hierarchy.caches.entries)
    (haction : (s.actions p st.node)[st.index]? = some (.call callee))
    (hlines : ∃ summary c, f.summaries.get? ⟨p, cache.1⟩ = some summary ∧
      summary.eventsOf st.node = [.call c] ∧
      ∀ line ∈ lines cache, c.effect.unknown = true ∨ line ∈ c.lines) :
    A.Follows ⟨st.node, st.index + 1, st.caches.touchAll lines⟩ cache := by
  obtain ⟨summary, c, hsummary, hevents, hlines⟩ := hlines
  rw [(A.analysed cache hcache).summary] at hsummary
  cases hsummary
  -- the summary that is kept is that of the level, so the call is its event at the position
  have hevent : ((A.summary cache).eventsOf st.node)[A.position cache st.node st.index]? = _ :=
    getElem?_position haction rfl
  rw [Analyses.summary, hevents] at hevent
  have hcall := List.mem_singleton.1 (List.mem_of_getElem? hevent)
  exact follows.event haction (congrArg some hcall) (.call hlines) rfl

end Study.Analyses

namespace Execution

variable {s : Study} {f : Findings} {p : Nat} {st : Stage}

/-- Executions stay within the nodes of the procedure. -/
lemma node_lt (execution : Execution s f p st) : st.node < (s.procedure p).nodes.length := by
  induction execution with
  | enter _ hn => exact hn
  | access _ _ ih => exact ih
  | call _ _ _ ih => exact ih
  | edge _ _ _ hn => exact hn

/-- Every level follows an execution. -/
theorem follows {A : s.Analyses p f} (applicable : A.Applicable) (execution : Execution s f p st) :
    ∀ cache ∈ s.hierarchy.caches.entries, A.Follows st cache := by
  induction execution with
  | enter hentry hn hcold =>
    intro cache _
    exact Study.Analyses.follows_enter hentry hn fun h => hcold h cache
  | access _ accesses ih =>
    intro cache hcache
    exact applicable.follows_access ih accesses hcache
  | call _ haction hlines ih =>
    intro cache hcache
    exact (ih cache hcache).call hcache haction (hlines cache hcache)
  | edge execution hend hsuccessor hn ih =>
    intro cache hcache
    exact (ih cache hcache).edge execution.node_lt hend hsuccessor hn

end Execution

/-- What the findings say of an access at a level holds wherever an execution makes the access. -/
lemma Study.Analyses.Applicable.sound {s : Study} {f : Findings} {p : Nat} {A : s.Analyses p f}
    (applicable : A.Applicable) {st : Stage} (execution : Execution s f p st) {r : Request}
    {a : Address} (accesses : st.Accesses s p r a) {cache : Level × Geometry}
    (hcache : cache ∈ s.hierarchy.chain r.site.kind) :
    (f.verdicts.get? ⟨p, r.site, cache.1⟩ = none →
      cache ∉ st.caches.reached a (s.hierarchy.chain r.site.kind)) ∧
    ∀ v, f.verdicts.get? ⟨p, r.site, cache.1⟩ = some v →
      (v.reach = .always → cache ∈ st.caches.reached a (s.hierarchy.chain r.site.kind)) ∧
      (v.classification = .alwaysHit → cache.2.lineOf a ∈ st.caches cache) ∧
      (v.classification = .alwaysMiss → cache.2.lineOf a ∉ st.caches cache) := by
  have follows := execution.follows applicable
  have hfollows := follows cache (List.mem_filter.1 hcache).1
  obtain ⟨never, always⟩ := applicable.reached_sound follows accesses hcache
  constructor
  · intro hnone
    exact never (A.reachOf_eq_never hcache accesses.action hnone)
  · intro v hverdict
    obtain ⟨_, hreach, _⟩ := applicable.verdict_spec hcache accesses.requests hverdict
    refine ⟨?_, ?_, ?_⟩
    · intro halways
      exact always (hreach.symm.trans halways)
    · intro hhit
      exact hfollows.mem_of_alwaysHit applicable hcache accesses.requests hverdict hhit
    · intro hmiss
      exact hfollows.not_mem_of_alwaysMiss applicable hcache accesses.requests hverdict hmiss

/-- Classification ends, and in every execution its verdicts hold at every level: an access without
a verdict does not get there, one with a reach of `always` does, and there it hits where it is said
to hit and misses where it is said to miss. -/
theorem Study.verdicts_sound (program : Program) (hierarchy : Hierarchy) (settings : Settings) :
    (∃ (bound : Nat) (f : Findings), ∀ fuel ≥ bound,
      (Study.ofProgram program hierarchy settings).classify fuel = some f) ∧
    ∀ (fuel : Nat) (f : Findings),
      (Study.ofProgram program hierarchy settings).classify fuel = some f →
      ∀ p < program.procedures.length,
      (Study.ofProgram program hierarchy settings).DistinctAddresses p →
      (∀ cache ∈ hierarchy.caches.entries, ∀ summary,
        f.summaries.get? ⟨p, cache.1⟩ = some summary → summary.CallsFit) →
      ∀ st, Execution (.ofProgram program hierarchy settings) f p st →
      ∀ r a, st.Accesses (.ofProgram program hierarchy settings) p r a →
      ∀ cache ∈ hierarchy.chain r.site.kind,
        (f.verdicts.get? ⟨p, r.site, cache.1⟩ = none →
          cache ∉ st.caches.reached a (hierarchy.chain r.site.kind)) ∧
        ∀ v, f.verdicts.get? ⟨p, r.site, cache.1⟩ = some v →
          (v.reach = .always → cache ∈ st.caches.reached a (hierarchy.chain r.site.kind)) ∧
          (cache ∈ st.caches.reached a (hierarchy.chain r.site.kind) →
            (v.classification = .alwaysHit → cache.2.lineOf a ∈ st.caches cache) ∧
            (v.classification = .alwaysMiss → cache.2.lineOf a ∉ st.caches cache)) := by
  refine ⟨exists_classify _, ?_⟩
  intro fuel f hclassify p hp distinct fits st execution r a accesses cache hcache
  obtain ⟨A⟩ := nonempty_analyses fun _ => analysed_of_classify program.nodup_callOrder hclassify
    (program.mem_callOrder hp)
  have applicable : A.Applicable := by
    refine ⟨distinct, ?_⟩
    intro cache hcache
    exact fits cache hcache _ (A.analysed cache hcache).summary
  obtain ⟨absent, present⟩ := applicable.sound execution accesses hcache
  refine ⟨absent, ?_⟩
  intro v hverdict
  obtain ⟨always, hit, miss⟩ := present v hverdict
  exact ⟨always, fun _ => ⟨hit, miss⟩⟩

/-- A first level for fetches, and a second level with room for two lines of a set. -/
def Hierarchy.fetchesFirst : Hierarchy where
  caches := .ofList [(.l1i, .oneWay), (.l2, .twoWays)]
  served kind := by cases kind <;> decide

/-- Lines 64 and 66 take each other's place in the first level, before a loop and in it. In between,
a procedure is called that fetches line 65. -/
def Program.thrashingLoop : Program where
  procedures := [
    { name := "main"
      nodes := [
        ⟨"start", .straight [⟨0x1000, .other, "nop"⟩, ⟨0x1080, .other, "nop"⟩]⟩,
        ⟨"call", .call "leaf"⟩,
        ⟨"again", .straight [⟨0x1004, .other, "nop"⟩, ⟨0x1084, .other, "nop"⟩]⟩]
      edges := [⟨none, 0⟩, ⟨some 0, 1⟩, ⟨some 1, 2⟩, ⟨some 2, 1⟩] },
    { name := "leaf"
      nodes := [⟨"only", .straight [⟨0x1040, .other, "ret"⟩]⟩]
      edges := [⟨none, 0⟩] }]

/-- The study of the loop. -/
def Study.thrashingLoop : Study :=
  .ofProgram .thrashingLoop .fetchesFirst {}

/-- What is found of the fetch of line 64 in the loop, and of the call. -/
lemma Study.thrashingLoop_classify :
    ∃ f, thrashingLoop.classify 40 = some f ∧
      f.verdicts.get? ⟨0, ⟨2, 0x1004, .fetch⟩, .l1i⟩ = some ⟨.always, .alwaysMiss, none⟩ ∧
      f.verdicts.get? ⟨0, ⟨2, 0x1004, .fetch⟩, .l2⟩ = some ⟨.always, .alwaysHit, none⟩ ∧
      ∀ cache ∈ Hierarchy.fetchesFirst.caches.entries, ∃ summary,
        f.summaries.get? ⟨0, cache.1⟩ = some summary ∧ summary.CallsFit ∧
        summary.eventsOf 1 = [.call ⟨⟨.ofList [65], {}, false⟩, .ofList [65]⟩] := by
  have h : (thrashingLoop.classify 40).map (fun f =>
      (f.verdicts.get? ⟨0, ⟨2, 0x1004, .fetch⟩, .l1i⟩,
        f.verdicts.get? ⟨0, ⟨2, 0x1004, .fetch⟩, .l2⟩,
        decide (∀ cache ∈ Hierarchy.fetchesFirst.caches.entries,
          (f.summaries.get? ⟨0, cache.1⟩).map (fun summary =>
            (decide summary.CallsFit, summary.eventsOf 1)) =
            some (true, [.call ⟨⟨.ofList [65], {}, false⟩, .ofList [65]⟩])))) =
      some (some ⟨.always, .alwaysMiss, none⟩, some ⟨.always, .alwaysHit, none⟩, true) := by
    decide +kernel
  obtain ⟨f, hclassify, hfound⟩ := Option.map_eq_some_iff.1 h
  obtain ⟨hfirst, hfound⟩ := Prod.mk.inj hfound
  obtain ⟨hsecond, hsummaries⟩ := Prod.mk.inj hfound
  refine ⟨f, hclassify, hfirst, hsecond, ?_⟩
  intro cache hcache
  have hcall := of_decide_eq_true hsummaries cache hcache
  obtain ⟨summary, hget, hsummary⟩ := Option.map_eq_some_iff.1 hcall
  obtain ⟨fits, hevents⟩ := Prod.mk.inj hsummary
  exact ⟨summary, hget, of_decide_eq_true fits, hevents⟩

/-- The loop is executed. -/
lemma Execution.exists_thrashingLoop {f : Findings}
    (hcall : ∀ cache ∈ Hierarchy.fetchesFirst.caches.entries, ∃ summary c,
      f.summaries.get? ⟨0, cache.1⟩ = some summary ∧ summary.eventsOf 1 = [.call c]) :
    ∃ caches, Execution .thrashingLoop f 0 ⟨2, 0, caches⟩ := by
  have hstart : Study.thrashingLoop.actions 0 0 =
      [.access ⟨⟨0, 0x1000, .fetch⟩, [.line .fetch 64]⟩,
        .access ⟨⟨0, 0x1080, .fetch⟩, [.line .fetch 66]⟩] := by
    decide +kernel
  have start : Execution .thrashingLoop f 0 ⟨0, 0, fun cache => LruCache.empty cache.2⟩ :=
    .enter (by decide) (by decide) fun _ _ => rfl
  have first := start.access ⟨congrArg (·[0]?) hstart, _, List.mem_cons_self, .inl rfl⟩
  have second := first.access ⟨congrArg (·[1]?) hstart, _, List.mem_cons_self, .inl rfl⟩
  obtain ⟨caches, atCall⟩ : ∃ caches, Execution .thrashingLoop f 0 ⟨1, 0, caches⟩ :=
    ⟨_, second.edge (congrArg List.length hstart).symm (by decide) (by decide)⟩
  have back : Execution .thrashingLoop f 0 ⟨1, 1, caches.touchAll fun _ => []⟩ := by
    refine atCall.call rfl ?_
    intro cache hcache
    obtain ⟨summary, c, hsummary, hevents⟩ := hcall cache hcache
    exact ⟨summary, c, hsummary, hevents, fun _ hline => absurd hline List.not_mem_nil⟩
  have hedge : 2 ∈ (Study.thrashingLoop.procedure 0).successors 1 := by
    decide
  exact ⟨_, back.edge rfl hedge (by decide)⟩

/-- In the loop, the fetch of line 64 misses the first level and hits the second every time. -/
theorem Study.verdicts_sound_thrashingLoop :
    ∃ f, thrashingLoop.classify 40 = some f ∧ thrashingLoop.DistinctAddresses 0 ∧
      (∃ caches, Execution .thrashingLoop f 0 ⟨2, 0, caches⟩) ∧
      ∀ caches, Execution .thrashingLoop f 0 ⟨2, 0, caches⟩ →
        (64 : Line) ∉ caches (.l1i, .oneWay) ∧ (64 : Line) ∈ caches (.l2, .twoWays) := by
  obtain ⟨f, hclassify, hfirst, hsecond, hsummaries⟩ := thrashingLoop_classify
  have distinct : thrashingLoop.DistinctAddresses 0 := by
    unfold DistinctAddresses
    decide
  refine ⟨f, hclassify, distinct, ?_, ?_⟩
  · apply Execution.exists_thrashingLoop
    intro cache hcache
    obtain ⟨summary, hget, _, hevents⟩ := hsummaries cache hcache
    exact ⟨summary, _, hget, hevents⟩
  · intro caches execution
    obtain ⟨_, sound⟩ := verdicts_sound .thrashingLoop .fetchesFirst {}
    have fits : ∀ cache ∈ Hierarchy.fetchesFirst.caches.entries, ∀ summary,
        f.summaries.get? ⟨0, cache.1⟩ = some summary → summary.CallsFit := by
      intro cache hcache summary hget
      obtain ⟨_, hget', fits, _⟩ := hsummaries cache hcache
      cases hget.symm.trans hget'
      exact fits
    have haction : (thrashingLoop.actions 0 2)[0]? =
        some (.access ⟨⟨2, 0x1004, .fetch⟩, [.line .fetch 64]⟩) := by
      decide +kernel
    have accesses : Stage.Accesses thrashingLoop 0 ⟨2, 0, caches⟩ _ (0x1000 : Address) :=
      ⟨haction, _, List.mem_cons_self, .inl (by decide)⟩
    have here := sound 40 f hclassify 0 (by decide) distinct fits _ execution _ _ accesses
    obtain ⟨_, first⟩ := here (.l1i, .oneWay) (by decide)
    obtain ⟨_, second⟩ := here (.l2, .twoWays) (by decide)
    obtain ⟨reachFirst, first⟩ := first _ hfirst
    obtain ⟨reachSecond, second⟩ := second _ hsecond
    exact ⟨(first (reachFirst rfl)).2 rfl, (second (reachSecond rfl)).1 rfl⟩

end CacheVerdict
