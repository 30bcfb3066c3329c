import CacheVerdict.Proofs.Analysis.Machine
import CacheVerdict.Proofs.Analysis.Multilevel
import CacheVerdict.Proofs.Analysis.Offered

/-!
# Which accesses have verdicts

The accesses of a program are the fetches of all instructions and the data of those that load or
store (`Program.Makes`). Each has a verdict at the nearest level for its kind, and from there on down
the chain as long as no level is sure to hold it (`Findings.Complete`). Nothing else has one. Main
statement: the classification of a program ends, and its findings are complete
(`Study.classify_complete`).
-/

namespace CacheVerdict

/-- A procedure of the program makes an access: one of the node's instructions has the address, and
loads or stores if the access is for data. -/
def Program.Makes (program : Program) (p : Nat) (site : Site) : Prop :=
  ∃ q, program.procedures[p]? = some q ∧ ∃ i ∈ q.codeOf site.node,
    i.address = site.instruction ∧ (site.kind = .data → i.isAccess = true)

/-- Only procedures of the program make accesses. -/
lemma Program.Makes.lt {program : Program} {p : Nat} {site : Site} (makes : program.Makes p site) :
    p < program.procedures.length := by
  obtain ⟨_, hq, _⟩ := makes
  exact (List.getElem?_eq_some_iff.1 hq).1

/-- The findings have verdicts on the accesses of the program, as far as these may come. -/
structure Findings.Complete (f : Findings) (program : Program) (hierarchy : Hierarchy) : Prop where
  /-- Verdicts are on accesses that may reach a level that serves them. -/
  made : ∀ key v, f.verdicts.get? key = some v → program.Makes key.procedure key.site ∧
    key.level ∈ hierarchy.levelsFor key.site.kind ∧ v.reach ≠ .never
  /-- Every access reaches the nearest level. -/
  nearest : ∀ p site, program.Makes p site → ∀ level behind,
    hierarchy.levelsFor site.kind = level :: behind →
    ∃ v, f.verdicts.get? ⟨p, site, level⟩ = some v ∧ v.reach = .always
  /-- Whether it may reach a further level, the verdict at the level before says. -/
  further : ∀ p site, program.Makes p site → ∀ front level next behind,
    hierarchy.levelsFor site.kind = front ++ level :: next :: behind →
    ((∃ v', f.verdicts.get? ⟨p, site, next⟩ = some v') ↔
      ∃ v, f.verdicts.get? ⟨p, site, level⟩ = some v ∧ v.classification ≠ .alwaysHit) ∧
    ∀ v v', f.verdicts.get? ⟨p, site, level⟩ = some v →
      f.verdicts.get? ⟨p, site, next⟩ = some v' →
      v'.reach = if v.reach = .always ∧ v.classification = .alwaysMiss then .always else .uncertain

/-- Behind a level that may miss, an access arrives for certain only after a certain miss. -/
lemma Verdict.nextReach_some {v : Verdict} (hreach : v.reach ≠ .never)
    (hclass : v.classification ≠ .alwaysHit) : nextReach (some v) =
      if v.reach = .always ∧ v.classification = .alwaysMiss then .always else .uncertain := by
  split
  · rename_i h
    exact nextReach_some_eq_always.2 h
  · rename_i h
    cases hnext : nextReach (some v) with
    | always => exact absurd (nextReach_some_eq_always.1 hnext) h
    | uncertain => rfl
    | never => exact ((nextReach_some_eq_never.1 hnext).elim hreach hclass).elim

namespace Study

variable {s : Study} {f : Findings} {fuel p : Nat} {site : Site} {cache : Level × Geometry}

/-! ### Accesses -/

/-- A procedure is found at its position. -/
lemma procedure_eq {q : Procedure} (hq : s.program.procedures[p]? = some q) : s.procedure p = q := by
  rw [procedure, hq, Option.getD_some]

/-- An instruction makes a request for its fetch, and one for its data if it loads or stores. -/
lemma exists_request_of_mem_codeOf {n : Nat} {i : Instruction} {kind : AccessKind}
    (hi : i ∈ (s.procedure p).codeOf n) (hdata : kind = .data → i.isAccess = true) :
    ∃ r ∈ (s.nodeReferences p n).requests n i, r.site = ⟨n, i.address, kind⟩ := by
  cases kind with
  | fetch =>
    exact ⟨_, NodeReferences.mem_requests.2 (.inl ⟨_, ReferenceTable.get?_fetches hi, rfl⟩), rfl⟩
  | data =>
    have hget : ∃ references, (s.nodeReferences p n).data.get? i.address = some references :=
      ReferenceTable.exists_data_iff.2
        ⟨s.resolved p n i, ReferenceTable.mem_accesses.2 ⟨i, hi, hdata rfl, rfl⟩, rfl⟩
    obtain ⟨references, hget⟩ := hget
    exact ⟨_, NodeReferences.mem_requests.2 (.inr ⟨references, hget, rfl⟩), rfl⟩

/-- The accesses of a program are the requests of its nodes. -/
lemma Prepared.makes_iff (prepared : s.Prepared) :
    s.program.Makes p site ↔ ∃ r, .access r ∈ s.actions p site.node ∧ r.site = site := by
  constructor
  · rintro ⟨q, hq, i, hi, haddress, hdata⟩
    obtain ⟨hp, _⟩ := List.getElem?_eq_some_iff.1 hq
    obtain rfl := procedure_eq hq
    obtain ⟨r, hr, hsite⟩ := exists_request_of_mem_codeOf hi hdata
    rw [haddress] at hsite
    exact ⟨r, (prepared.mem_actions hp).2 ⟨i, hi, hr⟩, hsite⟩
  · rintro ⟨r, hr, rfl⟩
    have hp : p < s.program.procedures.length := by
      by_contra hp
      obtain ⟨node, _, hnode, _⟩ := Study.mem_actions hr
      rw [procedure, List.getElem?_eq_none (Nat.le_of_not_lt hp)] at hnode
      cases hnode
    have hq : s.program.procedures[p]? = some (s.procedure p) := by
      rw [procedure, List.getElem?_eq_getElem hp, Option.getD_some]
    obtain ⟨i, hi, hr⟩ := (prepared.mem_actions hp).1 hr
    rcases NodeReferences.mem_requests.1 hr with ⟨_, _, heq⟩ | ⟨references, hget, heq⟩
    · rw [heq]
      exact ⟨_, hq, i, hi, rfl, nofun⟩
    · -- the data is that of some access at the address
      obtain ⟨access, haccess, haddress⟩ := ReferenceTable.exists_data_iff.1 ⟨references, hget⟩
      obtain ⟨j, hj, hisAccess, rfl⟩ := ReferenceTable.mem_accesses.1 haccess
      rw [heq]
      exact ⟨_, hq, j, hj, haddress, fun _ => hisAccess⟩

/-! ### Verdicts of analysed procedures -/

/-- Nothing is found at levels that are not configured. -/
lemma agreesOn_classify (h : s.classify fuel = some f) (p : Nat) :
    AgreesOn p (s.hierarchy.caches.entries.map Prod.fst) {} f := by
  refine foldlM_induction (P := AgreesOn p (s.hierarchy.caches.entries.map Prod.fst) {}) ?_
    (.refl _) h
  intro f₁ q _ f₂ agrees hstep
  rcases Nat.decEq p q with hne | rfl
  · exact agrees.trans ((agreesOn_foldlM_of_ne hne hstep).mono (List.nil_subset _))
  · exact agrees.trans (agreesOn_foldlM_classifyLevel hstep)

/-- A verdict comes from the analysis of its procedure at its level. -/
lemma exists_analyses_of_verdict (hs : s.callOrder = s.program.callOrder)
    (h : s.classify fuel = some f) {key : AccessKey} {v : Verdict}
    (hverdict : f.verdicts.get? key = some v) :
    ∃ (_ : s.Analyses key.procedure f) (cache : Level × Geometry),
      cache ∈ s.hierarchy.caches.entries ∧ cache.1 = key.level := by
  have hlevel : key.level ∈ s.hierarchy.caches.entries.map Prod.fst := by
    by_contra hlevel
    have hnone := (agreesOn_classify h key.procedure).verdicts key.site key.level hlevel
    cases hverdict.symm.trans hnone
  have horder : key.procedure ∈ s.callOrder.order := by
    by_contra horder
    have hnone := (agreesOn_foldlM_of_not_mem horder h).verdicts key.site key.level
      List.not_mem_nil
    cases hverdict.symm.trans hnone
  have hnodup : s.callOrder.order.Nodup := hs ▸ s.program.nodup_callOrder
  obtain ⟨A⟩ := nonempty_analyses fun _ => analysed_of_classify hnodup h horder
  obtain ⟨cache, hcache, heq⟩ := List.mem_map.1 hlevel
  exact ⟨A, cache, hcache, heq⟩

/-- The summary of a verdict's procedure at its level. -/
lemma Prepared.exists_summary (prepared : s.Prepared) (h : s.classify fuel = some f)
    {key : AccessKey} {v : Verdict} (hverdict : f.verdicts.get? key = some v) :
    ∃ (A : s.Analyses key.procedure f) (cache : Level × Geometry),
      cache ∈ s.hierarchy.caches.entries ∧ cache.1 = key.level ∧
        f.summaries.get? ⟨key.procedure, key.level⟩ = some (A.summary cache) := by
  obtain ⟨A, cache, hcache, hlevel⟩ := exists_analyses_of_verdict prepared.callOrder h hverdict
  refine ⟨A, cache, hcache, hlevel, ?_⟩
  rw [← hlevel]
  exact (A.analysed cache hcache).summary

namespace Analyses

/-- The verdict on an access has the access's reach. -/
lemma reach_of_verdict (A : s.Analyses p f) (hcache : cache ∈ s.hierarchy.caches.entries)
    {v : Verdict} (h : f.verdicts.get? ⟨p, site, cache.1⟩ = some v) :
    v.reach = s.reachOf f p site cache.1 ∧ v.reach ≠ .never := by
  obtain ⟨_, _, _, _, _, _, _, _, hreach, rfl⟩ := A.exists_event hcache h
  exact ⟨rfl, hreach⟩

/-- An access has a verdict at the levels that it may reach. -/
lemma exists_verdict_iff (A : s.Analyses p f) {r : Request} (hr : .access r ∈ s.actions p site.node)
    (hsite : r.site = site) (hcache : cache ∈ s.hierarchy.chain site.kind) :
    (∃ v, f.verdicts.get? ⟨p, site, cache.1⟩ = some v) ↔
      s.reachOf f p site cache.1 ≠ .never := by
  subst hsite
  constructor
  · rintro ⟨v, hv⟩
    obtain ⟨hreach, hne⟩ := A.reach_of_verdict (List.mem_filter.1 hcache).1 hv
    exact hreach ▸ hne
  · exact A.exists_verdict hcache hr

end Analyses

/-- When the analysis of a program has ended, its findings are complete. -/
lemma Prepared.complete (prepared : s.Prepared) (h : s.classify fuel = some f) :
    f.Complete s.program s.hierarchy := by
  constructor
  · intro key v hverdict
    obtain ⟨A, cache, hcache, hlevel⟩ := exists_analyses_of_verdict prepared.callOrder h hverdict
    obtain ⟨p, site, level⟩ := key
    obtain rfl : cache.1 = level := hlevel
    obtain ⟨r, _, _, hr, hsite, _, _, hchain, _⟩ := A.exists_event hcache hverdict
    refine ⟨prepared.makes_iff.2 ⟨r, hr, hsite⟩, ?_, (A.reach_of_verdict hcache hverdict).2⟩
    rw [Hierarchy.levelsFor_eq]
    exact List.mem_map_of_mem hchain
  · intro p site makes level behind hlevels
    obtain ⟨A, _⟩ := exists_analyses prepared.callOrder h makes.lt
    obtain ⟨r, hr, hsite⟩ := prepared.makes_iff.1 makes
    rw [Hierarchy.levelsFor_eq, List.map_eq_cons_iff] at hlevels
    obtain ⟨cache, rest, hchain, rfl, _⟩ := hlevels
    have hcache : cache ∈ s.hierarchy.chain site.kind := hchain ▸ List.mem_cons_self
    have halways : s.reachOf f p site cache.1 = .always := reachOf_first hchain
    obtain ⟨v, hv⟩ := (A.exists_verdict_iff hr hsite hcache).2 (halways ▸ nofun)
    exact ⟨v, hv, (A.reach_of_verdict (List.mem_filter.1 hcache).1 hv).1.trans halways⟩
  · intro p site makes front level next behind hlevels
    obtain ⟨A, _⟩ := exists_analyses prepared.callOrder h makes.lt
    obtain ⟨r, hr, hsite⟩ := prepared.makes_iff.1 makes
    rw [Hierarchy.levelsFor_eq, List.map_eq_append_iff] at hlevels
    obtain ⟨near, far, hchain, rfl, hfar⟩ := hlevels
    obtain ⟨last, far, rfl, rfl, hbehind⟩ := List.map_eq_cons_iff.1 hfar
    obtain ⟨cache, far, rfl, rfl, _⟩ := List.map_eq_cons_iff.1 hbehind
    have hlast : last ∈ s.hierarchy.chain site.kind := by simp [hchain]
    have hcache : cache ∈ s.hierarchy.chain site.kind := by simp [hchain]
    have hnext : s.reachOf f p site cache.1 =
        Verdict.nextReach (f.verdicts.get? ⟨p, site, last.1⟩) := reachOf_next hchain
    constructor
    · rw [A.exists_verdict_iff hr hsite hcache, hnext]
      cases hverdict : f.verdicts.get? ⟨p, site, last.1⟩ with
      | none => simp [Verdict.nextReach]
      | some v =>
        have hreach := (A.reach_of_verdict (List.mem_filter.1 hlast).1 hverdict).2
        simp [Verdict.nextReach_some_eq_never, hreach]
    · intro v v' hv hv'
      have hreach := (A.reach_of_verdict (List.mem_filter.1 hlast).1 hv).2
      obtain ⟨hreach', hne⟩ := A.reach_of_verdict (List.mem_filter.1 hcache).1 hv'
      rw [hreach', hnext, hv] at *
      exact Verdict.nextReach_some hreach fun hhit =>
        hne (Verdict.nextReach_some_eq_never.2 (.inr hhit))

/-- The classification of a program ends, and its findings are complete: every access has a verdict
at the nearest level, and at a further one exactly where the level before does not say that it
always hits. -/
theorem classify_complete (program : Program) (hierarchy : Hierarchy) (settings : Settings) :
    (∃ (bound : Nat) (f : Findings), ∀ fuel ≥ bound,
      (ofProgram program hierarchy settings).classify fuel = some f) ∧
    ∀ (fuel : Nat) (f : Findings), (ofProgram program hierarchy settings).classify fuel = some f →
      f.Complete program hierarchy :=
  ⟨exists_classify _, fun _ _ h => (prepared_ofProgram program hierarchy settings).complete h⟩

end Study

end CacheVerdict
