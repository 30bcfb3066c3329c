import CacheVerdict.Proofs.Analysis.Completeness
import CacheVerdict.Proofs.Analysis.Placement
import CacheVerdict.Proofs.Analysis.Refinement

/-!
# Accesses whose address is not known

An access whose address is not resolved may go anywhere, and so may every access that shares its
address (`Prepared.targetAt_of_unresolved`). At each level its verdict leaves open whether it hits,
so that it goes on to the next one, and it is not found to persist, in whatever loop it stands. Main
statement: it reaches the nearest level, may or may not reach the others, and is not classified at
any of them, before looking for persistence and after (`Study.unresolved_notClassified`).
-/

namespace CacheVerdict

/-- The reach at a level of an access that no level before is sure to hold or to miss: certain at the
nearest level only. -/
def Hierarchy.openReach (h : Hierarchy) (kind : AccessKind) (level : Level) : Reach :=
  if (h.levelsFor kind).head? = some level then .always else .uncertain

/-- At every level for its kind, the findings do not classify an access. -/
def Findings.Undecided (f : Findings) (hierarchy : Hierarchy) (p : Nat) (site : Site) : Prop :=
  ∀ level ∈ hierarchy.levelsFor site.kind, ∃ loop, f.verdicts.get? ⟨p, site, level⟩ =
    some ⟨hierarchy.openReach site.kind level, .notClassified, loop⟩

/-- Where no verdict classifies an access, the access comes to every level. -/
lemma Findings.Complete.undecided {f : Findings} {program : Program} {hierarchy : Hierarchy}
    {p : Nat} {site : Site} (complete : f.Complete program hierarchy) (makes : program.Makes p site)
    (unclassified : ∀ level v, f.verdicts.get? ⟨p, site, level⟩ = some v →
      v.classification = .notClassified) : f.Undecided hierarchy p site := by
  have hnodup : (hierarchy.levelsFor site.kind).Nodup := by
    rw [Hierarchy.levelsFor_eq]
    exact hierarchy.nodup_chain site.kind
  -- by induction on the levels in front
  have hlevel (front : List Level) : ∀ level behind,
      hierarchy.levelsFor site.kind = front ++ level :: behind →
      ∃ loop, f.verdicts.get? ⟨p, site, level⟩ =
        some ⟨hierarchy.openReach site.kind level, .notClassified, loop⟩ := by
    induction front using List.reverseRecOn with
    | nil =>
      intro level behind hlevels
      obtain ⟨⟨reach, classification, loop⟩, hv, hreach⟩ :=
        complete.nearest p site makes level behind hlevels
      obtain rfl : classification = .notClassified := unclassified level _ hv
      obtain rfl : reach = .always := hreach
      refine ⟨loop, ?_⟩
      rw [hv, Hierarchy.openReach, hlevels]
      simp
    | append_singleton front last ih =>
      intro level behind hlevels
      rw [List.append_assoc, List.singleton_append] at hlevels
      obtain ⟨loop, hlast⟩ := ih last (level :: behind) hlevels
      obtain ⟨comes, reaches⟩ := complete.further p site makes front last level behind hlevels
      obtain ⟨⟨reach, classification, loop'⟩, hv⟩ := comes.2 ⟨_, hlast, nofun⟩
      obtain rfl : classification = .notClassified := unclassified level _ hv
      obtain rfl : reach = .uncertain := by simpa using reaches _ _ hlast hv
      refine ⟨loop', ?_⟩
      have hhead : (hierarchy.levelsFor site.kind).head? ≠ some level := by
        rw [hlevels] at hnodup ⊢
        cases front with
        | nil =>
          rintro heq
          cases heq
          exact (List.nodup_cons.1 hnodup).1 List.mem_cons_self
        | cons first front =>
          rintro heq
          cases heq
          exact (List.nodup_cons.1 hnodup).1 (by simp)
      rw [hv, Hierarchy.openReach, if_neg hhead]
  intro level hmem
  obtain ⟨front, behind, hlevels⟩ := List.append_of_mem hmem
  exact hlevel front level behind hlevels

namespace Study

variable {s : Study} {f g : Findings} {fuel p n : Nat} {i : Instruction} {fault : ResolveFault}
  {cache : Level × Geometry}

/-- What shares its address with an access that is not resolved may go to any line. -/
lemma Prepared.targetAt_of_unresolved (prepared : s.Prepared) (hp : p < s.program.procedures.length)
    (hi : i ∈ (s.procedure p).codeOf n) (haccess : i.isAccess = true)
    (unresolved : (s.resolved p n i).resolution.outcome = .unresolved fault) {r : Request}
    (hr : .access r ∈ s.actions p n) (hsite : r.site = ⟨n, i.address, .data⟩) (geometry : Geometry) :
    r.targetAt s.hierarchy.finestShift geometry = .unknown := by
  have hkind : r.site.kind = .data := congrArg Site.kind hsite
  have haddress : i.address = r.site.instruction := by rw [hsite]
  have hblocks := Resolution.blocks_of_unresolved unresolved
  have hmem := mem_references prepared hp hr hkind hi haddress haccess
    (hblocks ▸ List.mem_cons_self)
  exact if_pos ⟨hkind, List.any_eq_true.2 ⟨_, hmem, rfl⟩⟩

/-- So the levels do not know the lines of its events. -/
lemma Analyses.target_of_unresolved (A : s.Analyses p f) (prepared : s.Prepared)
    (hp : p < s.program.procedures.length) (hi : i ∈ (s.procedure p).codeOf n)
    (haccess : i.isAccess = true)
    (unresolved : (s.resolved p n i).resolution.outcome = .unresolved fault) {m : Nat} {a : Access}
    (hevent : .access a ∈ (A.summary cache).eventsOf m) (hsite : a.site = ⟨n, i.address, .data⟩) :
    a.target = .unknown := by
  rw [Analyses.eventsOf_summary] at hevent
  obtain ⟨action, haction, hevent⟩ := List.mem_filterMap.1 hevent
  obtain ⟨r, rfl, hr, _, htarget, _⟩ := eventAt?_eq_access hevent
  obtain rfl : m = n := by
    rw [← site_of_mem_actions haction, ← hr, hsite]
  rw [htarget]
  exact prepared.targetAt_of_unresolved hp hi haccess unresolved haction (hr ▸ hsite) _

/-- The classification leaves it open at every level. -/
lemma Prepared.undecided_of_unresolved (prepared : s.Prepared) (h : s.classify fuel = some f)
    {q : Procedure} (hq : s.program.procedures[p]? = some q) (hi : i ∈ q.codeOf n)
    (haccess : i.isAccess = true)
    (unresolved : (s.resolved p n i).resolution.outcome = .unresolved fault) :
    f.Undecided s.hierarchy p ⟨n, i.address, .data⟩ := by
  refine (prepared.complete h).undecided ⟨q, hq, i, hi, rfl, fun _ => haccess⟩ ?_
  intro level v hverdict
  obtain ⟨A, cache, hcache, hlevel⟩ := exists_analyses_of_verdict prepared.callOrder h hverdict
  obtain rfl : cache.1 = level := hlevel
  obtain ⟨hp, _⟩ := List.getElem?_eq_some_iff.1 hq
  obtain rfl := procedure_eq hq
  obtain ⟨_, _, a, _, _, hevent, hsite, _, _, rfl⟩ := A.exists_event hcache hverdict
  have htarget := A.target_of_unresolved prepared hp hi haccess unresolved
    (List.mem_of_getElem? hevent) hsite
  show a.classify _ _ = .notClassified
  rw [Access.classify, htarget]

/-- Looking for persistence leaves it open as well: no event of it has a line that could persist. -/
lemma Prepared.undecided_refine (prepared : s.Prepared) (h : s.classify fuel = some f)
    {q : Procedure} (hq : s.program.procedures[p]? = some q) (hi : i ∈ q.codeOf n)
    (haccess : i.isAccess = true)
    (unresolved : (s.resolved p n i).resolution.outcome = .unresolved fault) {fuel' : Nat}
    (hrefine : s.refine fuel' f = some g) : g.Undecided s.hierarchy p ⟨n, i.address, .data⟩ := by
  intro level hlevel
  obtain ⟨loop, hverdict⟩ := prepared.undecided_of_unresolved h hq hi haccess unresolved level hlevel
  refine ⟨loop, refine_of_not_mayPersist hrefine hverdict fun persists => ?_⟩
  obtain ⟨summary, m, a, hsummary, hevent, hsite, hlines⟩ := persists.event
  obtain ⟨A, cache, _, _, hsummary'⟩ := prepared.exists_summary h hverdict
  cases hsummary'.symm.trans hsummary
  obtain ⟨hp, _⟩ := List.getElem?_eq_some_iff.1 hq
  obtain rfl := procedure_eq hq
  rw [A.target_of_unresolved prepared hp hi haccess unresolved hevent hsite] at hlines
  exact hlines rfl

/-- A verdict is a row of the table. -/
lemma row_mem_table {key : AccessKey} {v : Verdict} (hverdict : f.verdicts.get? key = some v) :
    s.row key v ∈ (s.table f).rows :=
  mem_rows_table.2 ⟨key, v, hverdict, rfl⟩

/-- The table of a program is made of the findings of its study, with or without the search for
persistence. -/
lemma exists_of_analyse {program : Program} {hierarchy : Hierarchy} {settings : Settings}
    {table : Table} (h : program.analyse hierarchy settings = .ok table) :
    ∃ f g, (ofProgram program hierarchy settings).classify visitLimit = some f ∧
      (g = f ∨ (ofProgram program hierarchy settings).refine visitLimit f = some g) ∧
      table = (ofProgram program hierarchy settings).table g := by
  obtain ⟨f, g, hclassify, hsettle, rfl⟩ := exists_settle_of_analyse h
  refine ⟨f, g, hclassify, ?_, rfl⟩
  unfold settle at hsettle
  split at hsettle
  · exact .inr hsettle
  · cases hsettle
    exact .inl rfl

/-- Classification ends and leaves an access whose address is not resolved undecided at every level
that serves data, also after the search for persistence: it reaches the nearest level, may reach the
others and is not classified at any. -/
theorem unresolved_notClassified (program : Program) (hierarchy : Hierarchy) (settings : Settings)
    {p n : Nat} {q : Procedure} {node : Node} {i : Instruction} {fault : ResolveFault}
    (hq : program.procedures[p]? = some q) (hnode : q.nodes[n]? = some node) (hi : i ∈ node.code)
    (haccess : i.isAccess = true)
    (unresolved : (Resolution.resolve settings program.segments hierarchy.finestLineSize
      (q.searchMap q.stackHeights) n i).outcome = .unresolved fault) :
    (∃ (bound : Nat) (f : Findings), ∀ fuel ≥ bound,
      (ofProgram program hierarchy settings).classify fuel = some f) ∧
    (∀ (fuel fuel' : Nat) (f g : Findings),
      (ofProgram program hierarchy settings).classify fuel = some f →
      (g = f ∨ (ofProgram program hierarchy settings).refine fuel' f = some g) →
      g.Undecided hierarchy p ⟨n, i.address, .data⟩) ∧
    ∀ table, program.analyse hierarchy settings = .ok table →
      ∀ level ∈ hierarchy.levelsFor .data, ∃ loop,
        ⟨q.name, node.name, i.address, .data, level, hierarchy.openReach .data level, loop,
          .notClassified⟩ ∈ table.rows := by
  have prepared := prepared_ofProgram program hierarchy settings
  have hprocedure : (ofProgram program hierarchy settings).procedure p = q := procedure_eq hq
  have hcode : i ∈ q.codeOf n := Procedure.mem_codeOf.2 ⟨node, hnode, hi⟩
  have unresolved' : ((ofProgram program hierarchy settings).resolved p n i).resolution.outcome =
      .unresolved fault := by
    rw [resolved, hprocedure]
    exact unresolved
  have undecided {fuel fuel' : Nat} {f g : Findings}
      (h : (ofProgram program hierarchy settings).classify fuel = some f)
      (hg : g = f ∨ (ofProgram program hierarchy settings).refine fuel' f = some g) :
      g.Undecided hierarchy p ⟨n, i.address, .data⟩ := by
    rcases hg with rfl | hrefine
    · exact prepared.undecided_of_unresolved h hq hcode haccess unresolved'
    · exact prepared.undecided_refine h hq hcode haccess unresolved' hrefine
  refine ⟨exists_classify _, fun _ _ _ _ => undecided, ?_⟩
  intro table htable level hlevel
  obtain ⟨f, g, hclassify, hg, rfl⟩ := exists_of_analyse htable
  obtain ⟨loop, hverdict⟩ := undecided hclassify hg level hlevel
  have hrow := row_mem_table (s := ofProgram program hierarchy settings) hverdict
  rw [row, hprocedure] at hrow
  simp only [hnode] at hrow
  exact ⟨_, hrow⟩

end Study

/-! ### A load in a loop -/

/-- Split first levels with a level behind them. -/
def Hierarchy.twoLevels : Hierarchy where
  caches := .ofList [(.l1i, .oneWay), (.l1d, .oneWay), (.l2, .twoWays)]
  served kind := by
    cases kind with
    | fetch => exact ⟨.l1i, List.mem_cons_self, rfl⟩
    | data => exact ⟨.l1d, List.mem_cons_of_mem _ List.mem_cons_self, rfl⟩

/-- A load from an address that the procedure has been given. -/
def Instruction.pointerLoad : Instruction :=
  ⟨0x1000, .access ⟨[⟨"x9"⟩], none, false, false, none⟩, "ldr x0, [x9]"⟩

/-- A loop that makes the load. -/
def Procedure.pointerLoop : Procedure where
  name := "main"
  nodes := [⟨"loop", .loopHead [.pointerLoad]⟩]
  edges := [⟨none, 0⟩, ⟨some 0, 0⟩]
  loops := [⟨0, .ofList [0]⟩]

/-- The program of the loop. -/
def Program.pointerLoop : Program where
  procedures := [.pointerLoop]

/-- The instruction is found to stay in its cache. Of the load nothing is found at either level. -/
theorem Study.unresolved_notClassified_pointerLoop :
    ∃ f g, (ofProgram .pointerLoop .twoLevels {}).classify 40 = some f ∧
      (ofProgram .pointerLoop .twoLevels {}).refine 40 f = some g ∧
      g.verdicts.get? ⟨0, ⟨0, 0x1000, .fetch⟩, .l1i⟩ = some ⟨.always, .firstMiss, some 0⟩ ∧
      (∃ loop, g.verdicts.get? ⟨0, ⟨0, 0x1000, .data⟩, .l1d⟩ =
        some ⟨.always, .notClassified, loop⟩) ∧
      ∃ loop, g.verdicts.get? ⟨0, ⟨0, 0x1000, .data⟩, .l2⟩ =
        some ⟨.uncertain, .notClassified, loop⟩ := by
  have hends : (((ofProgram .pointerLoop .twoLevels {}).classify 40).bind fun f =>
      ((ofProgram .pointerLoop .twoLevels {}).refine 40 f).map fun g =>
        g.verdicts.get? ⟨0, ⟨0, 0x1000, .fetch⟩, .l1i⟩) =
      some (some ⟨.always, .firstMiss, some 0⟩) := by
    decide +kernel
  obtain ⟨f, hclassify, hends⟩ := Option.bind_eq_some_iff.1 hends
  obtain ⟨g, hrefine, hfetch⟩ := Option.map_eq_some_iff.1 hends
  have unresolved : (Resolution.resolve {} Program.pointerLoop.segments
      Hierarchy.twoLevels.finestLineSize (Procedure.pointerLoop.searchMap
        Procedure.pointerLoop.stackHeights) 0 .pointerLoad).outcome =
      .unresolved (.budget 100) := by
    decide +kernel
  obtain ⟨-, undecided, -⟩ := unresolved_notClassified .pointerLoop .twoLevels {} (p := 0) rfl rfl
    List.mem_cons_self rfl unresolved
  have here := undecided 40 40 f g hclassify (.inr hrefine)
  exact ⟨f, g, hclassify, hrefine, hfetch, here .l1d (by decide), here .l2 (by decide)⟩

end CacheVerdict
