import CacheVerdict.Proofs.Analysis.FootprintCovers
import CacheVerdict.Proofs.Analysis.PersistentLoops
import CacheVerdict.Proofs.Cache.Agreement
import CacheVerdict.Proofs.Procedure.Paths

/-!
# Verdicts on unreachable code

An analysis reaches no node beyond those that paths lead to from where it starts. The two analyses of
a whole procedure start at its entries, so that they leave open what no path from there leads to
(`Analyses.notClassified_of_not_reachable`). The analysis of a loop for persistence starts at the
header of the loop, which need not be reachable itself. Main statement: the verdict on an access in a
node that no path leads to is open, unless the access persists in a loop, and then no path leads to
the header of that loop (`Study.unreachable_notClassified_iff`).
-/

namespace CacheVerdict

/-- A state is reached only where a path leads to. -/
lemma Solution.reaches_of_isReached_stateAt {σ : Type} [Abstraction σ] [DecidableEq σ] {s : Summary}
    {r : Region} {fuel : Nat} {solution : Solution (State σ)}
    (solved : Solution.solve? fuel s r = some solution) {n i : Nat}
    (h : (solution.stateAt s n i).IsReached) : s.Reaches r n :=
  ((s.keeps_reaches r).of_solve? solved n).1 (State.isReached_transferAll.1 h)

/-- What is not reached is not classified. -/
lemma Access.classify_unreached (a : Access) : a.classify .unreached .unreached = .notClassified := by
  unfold classify
  cases a.target <;> rfl

namespace Study

variable {s : Study} {f g : Findings} {fuel p n : Nat} {cache : Level × Geometry} {key : AccessKey}
  {v : Verdict}

/-- The predecessors in a summary are those of the procedure. -/
lemma mem_predecessors_of_summary {coldStart : Bool} {m : Nat}
    (h : m ∈ (s.summary f p cache.1 cache.2 coldStart).predecessorsOf n) :
    n ∈ (s.procedure p).successors m := by
  rcases Nat.lt_or_ge n (s.procedure p).nodes.length with hn | hn
  · rw [predecessorsOf_summary hn] at h
    exact Procedure.mem_successors_iff.2 h
  · simp [Summary.predecessorsOf, summary, Procedure.nodeIds, hn] at h

/-- From nodes that paths lead to, an analysis reaches only such nodes. -/
lemma reachable_of_reaches {coldStart : Bool} {r : Region}
    (entries : ∀ m ∈ r.entries, (s.procedure p).Reachable m)
    (h : (s.summary f p cache.1 cache.2 coldStart).Reaches r n) : (s.procedure p).Reachable n := by
  induction h with
  | entry hentry _ => exact entries _ hentry
  | edge _ hpred _ ih => exact ih.edge (mem_predecessors_of_summary hpred)

/-- The analyses of the whole procedure do not classify accesses in other nodes. -/
lemma Analyses.notClassified_of_not_reachable (A : s.Analyses p f)
    (hcache : cache ∈ s.hierarchy.caches.entries) {site : Site}
    (unreachable : ¬(s.procedure p).Reachable site.node)
    (hverdict : f.verdicts.get? ⟨p, site, cache.1⟩ = some v) : v.classification = .notClassified := by
  obtain ⟨_, i, a, _, _, _, _, _, _, rfl⟩ := A.exists_event hcache hverdict
  obtain ⟨fuel, solved⟩ := (A.analysed cache hcache).solvedMust
  obtain ⟨fuel', solved'⟩ := (A.analysed cache hcache).solvedMay
  have unreached {σ : Type} [Abstraction σ] [DecidableEq σ] {fuel : Nat}
      {solution : Solution (State σ)} (solved : Solution.solve? fuel (A.summary cache)
        (.whole (A.summary cache)) = some solution) :
      solution.stateAt (A.summary cache) site.node i = .unreached := by
    cases hstate : solution.stateAt (A.summary cache) site.node i with
    | unreached => rfl
    | reached _ =>
      have reaches := Solution.reaches_of_isReached_stateAt solved (State.isReached_iff.2 ⟨_, hstate⟩)
      exact absurd (reachable_of_reaches (fun m hm => .entry hm) reaches) unreachable
  show a.classify _ _ = .notClassified
  rw [unreached solved, unreached solved', Access.classify_unreached]

/-- An access persists only in loops that reach its node from their header. -/
lemma Prepared.header_not_reachable (prepared : s.Prepared) (h : s.classify fuel = some f)
    (hverdict : f.verdicts.get? key = some v)
    (unreachable : ¬(s.procedure key.procedure).Reachable key.site.node) {l : Nat}
    (persists : s.PersistsIn f key l) {loop : Loop}
    (hloop : (s.procedure key.procedure).loops[l]? = some loop) :
    ¬(s.procedure key.procedure).Reachable loop.header := by
  obtain ⟨loop', summary, fuel', solution, hloop', hsummary, hsolution, _, i, a, _, _, hpersists⟩ :=
    persists
  cases hloop.symm.trans hloop'
  obtain ⟨A, cache, _, _, hsummary'⟩ := prepared.exists_summary h hverdict
  cases hsummary.symm.trans hsummary'
  have hreached : (solution.stateAt (A.summary cache) key.site.node i).IsReached := by
    cases hstate : solution.stateAt (A.summary cache) key.site.node i with
    | unreached =>
      rw [hstate] at hpersists
      cases hpersists
    | reached _ => trivial
  have reaches := Solution.reaches_of_isReached_stateAt hsolution hreached
  intro header
  refine unreachable (reachable_of_reaches (fun m hm => ?_) reaches)
  rw [List.mem_singleton.1 hm]
  exact header

/-- The verdict on an access in a node that no path leads to. It is open unless loops are searched for
persistence and the access persists in one, whose header no path leads to either. -/
structure UnreachedVerdict (s : Study) (f : Findings) (key : AccessKey) (v : Verdict) : Prop where
  notClassified_iff : v.classification = .notClassified ↔
    ¬(s.settings.persistence = true ∧ ∃ l, s.PersistsIn f key l)
  firstMiss : v.classification ≠ .notClassified → v.classification = .firstMiss
  header : ∀ l loop, (s.procedure key.procedure).loops[l]? = some loop → s.PersistsIn f key l →
    ¬(s.procedure key.procedure).Reachable loop.header

/-- An unreachable access stays open, except in a loop that itself cannot be reached. -/
lemma Prepared.unreachedVerdict (prepared : s.Prepared) (h : s.classify fuel = some f) {fuel' : Nat}
    (hsettle : s.settle fuel' f = some g) (hverdict : g.verdicts.get? key = some v)
    (unreachable : ¬(s.procedure key.procedure).Reachable key.site.node) :
    s.UnreachedVerdict f key v := by
  have isOpen {w : Verdict} (hw : f.verdicts.get? key = some w) :
      w.classification = .notClassified := by
    obtain ⟨A, cache, hcache, hlevel⟩ := exists_analyses_of_verdict prepared.callOrder h hw
    obtain ⟨_, _, level⟩ := key
    obtain rfl : cache.1 = level := hlevel
    exact A.notClassified_of_not_reachable hcache unreachable hw
  unfold settle at hsettle
  split at hsettle
  · rename_i persistence
    have refines := prepared.refines h hsettle
    obtain ⟨w, hw⟩ : ∃ w, f.verdicts.get? key = some w := by
      rw [← Option.isSome_iff_exists, ← refines.keys key, hverdict]
      rfl
    have hchanged := refines.changed key w v hw hverdict
    rw [isOpen hw, eq_self, true_and] at hchanged
    have hfirst (hne : v ≠ w) : v.classification = .firstMiss := by
      obtain ⟨l, rfl, _⟩ := refines.outermost key w v hw hverdict hne
      rfl
    refine ⟨?_, ?_, fun l loop hloop persists =>
      prepared.header_not_reachable h hw unreachable persists hloop⟩
    · rw [persistence, eq_self, true_and, ← hchanged, not_not]
      constructor
      · intro hclass
        by_contra hne
        rw [hfirst hne] at hclass
        cases hclass
      · rintro rfl
        exact isOpen hw
    · intro hclass
      refine hfirst ?_
      rintro rfl
      exact hclass (isOpen hw)
  · rename_i persistence
    cases hsettle
    refine ⟨iff_of_true (isOpen hverdict) fun hp => persistence hp.1,
      fun hclass => absurd (isOpen hverdict) hclass, fun l loop hloop persists =>
        prepared.header_not_reachable h hverdict unreachable persists hloop⟩

/-- The verdict on an access that no path leads to is open, unless loops are searched for
persistence and the access persists in one, whose header no path leads to either. So all such
verdicts are open if paths lead to all headers. -/
theorem unreachable_notClassified_iff (program : Program) (hierarchy : Hierarchy)
    (settings : Settings) :
    (∀ (fuel fuel' : Nat) (f g : Findings),
      (ofProgram program hierarchy settings).classify fuel = some f →
      (ofProgram program hierarchy settings).settle fuel' f = some g →
      (∀ row, row ∈ ((ofProgram program hierarchy settings).table g).rows ↔ ∃ key v,
        g.verdicts.get? key = some v ∧ (ofProgram program hierarchy settings).row key v = row) ∧
      ∀ key v, g.verdicts.get? key = some v →
        ¬((ofProgram program hierarchy settings).procedure key.procedure).Reachable key.site.node →
        (ofProgram program hierarchy settings).UnreachedVerdict f key v) ∧
    ∀ table, program.analyse hierarchy settings = .ok table → ∃ f g,
      (ofProgram program hierarchy settings).classify visitLimit = some f ∧
      (ofProgram program hierarchy settings).settle visitLimit f = some g ∧
      table = (ofProgram program hierarchy settings).table g := by
  have prepared := prepared_ofProgram program hierarchy settings
  refine ⟨fun fuel fuel' f g h hsettle => ⟨fun _ => mem_rows_table, ?_⟩,
    fun _ => exists_settle_of_analyse⟩
  intro key v hverdict unreachable
  exact prepared.unreachedVerdict h hsettle hverdict unreachable

end Study

/-! ### A loop that nothing leads to -/

/-- A node, and a loop that cannot be entered. -/
def Procedure.deadLoop : Procedure where
  name := "main"
  nodes := [
    ⟨"start", .straight [⟨0x1000, .other, "nop"⟩]⟩,
    ⟨"dead", .loopHead [⟨0x1040, .other, "nop"⟩]⟩]
  edges := [⟨none, 0⟩, ⟨some 1, 1⟩]
  loops := [⟨1, .ofList [1]⟩]

/-- The program of the loop. -/
def Program.deadLoop : Program where
  procedures := [.deadLoop]

/-- If no edge leaves the entry, only the entry is reachable. -/
lemma Procedure.Reachable.eq_entry {q : Procedure} {entry n : Nat} (hentries : q.entries = [entry])
    (hends : q.successors entry = []) (h : q.Reachable n) : n = entry := by
  induction h with
  | entry hn =>
    rw [hentries] at hn
    exact List.mem_singleton.1 hn
  | edge _ hedge ih =>
    rw [ih, hends] at hedge
    cases hedge

/-- No edge leads to the second node. -/
lemma Procedure.not_reachable_deadLoop : ¬deadLoop.Reachable 1 := by
  intro h
  have hentry : 1 = 0 := h.eq_entry (by decide) (by decide)
  cases hentry

/-- The loop again, with a node behind it. -/
def Procedure.deadTail : Procedure where
  name := "main"
  nodes := deadLoop.nodes ++ [⟨"tail", .straight [⟨0x1080, .other, "nop"⟩]⟩]
  edges := deadLoop.edges ++ [⟨some 1, 2⟩]
  loops := deadLoop.loops

/-- The program of the loop and the node behind it. -/
def Program.deadTail : Program where
  procedures := [.deadTail]

/-- No edge leads to another node than the first one. -/
lemma Procedure.not_reachable_deadTail {n : Nat} (hn : n ≠ 0) : ¬deadTail.Reachable n := fun h =>
  hn (h.eq_entry (by decide) (by decide))

/-- Loops are searched, and the fetch behind the loop, which lies in none, stays open. The one in the
loop does not, so it persists there. -/
theorem Study.unreachable_notClassified_iff_deadTail :
    ∃ f g v w, (ofProgram .deadTail (.split .oneWay) {}).classify 40 = some f ∧
      (ofProgram .deadTail (.split .oneWay) {}).settle 40 f = some g ∧
      g.verdicts.get? ⟨0, ⟨2, 0x1080, .fetch⟩, .l1i⟩ = some v ∧
      v.classification = .notClassified ∧
      g.verdicts.get? ⟨0, ⟨1, 0x1040, .fetch⟩, .l1i⟩ = some w ∧ w.classification = .firstMiss ∧
      ∃ l, (ofProgram .deadTail (.split .oneWay) {}).PersistsIn f
        ⟨0, ⟨1, 0x1040, .fetch⟩, .l1i⟩ l := by
  have hends : (((ofProgram .deadTail (.split .oneWay) {}).classify 40).bind
      fun f => ((ofProgram .deadTail (.split .oneWay) {}).settle 40 f).map
        fun g => ((g.verdicts.get? ⟨0, ⟨2, 0x1080, .fetch⟩, .l1i⟩).isSome,
          g.verdicts.get? ⟨0, ⟨1, 0x1040, .fetch⟩, .l1i⟩)) =
      some (true, some ⟨.always, .firstMiss, some 0⟩) := by
    decide +kernel
  obtain ⟨f, hclassify, hends⟩ := Option.bind_eq_some_iff.1 hends
  obtain ⟨g, hsettle, hends⟩ := Option.map_eq_some_iff.1 hends
  obtain ⟨hsome, hloop⟩ := Prod.mk.inj hends
  obtain ⟨v, hverdict⟩ := Option.isSome_iff_exists.1 hsome
  obtain ⟨unreached, -⟩ := unreachable_notClassified_iff .deadTail (.split .oneWay) {}
  obtain ⟨_, unreached⟩ := unreached 40 40 f g hclassify hsettle
  have tail := unreached _ v hverdict (Procedure.not_reachable_deadTail (by decide))
  have inLoop := unreached _ _ hloop (Procedure.not_reachable_deadTail (by decide))
  refine ⟨f, g, v, _, hclassify, hsettle, hverdict, tail.notClassified_iff.2 ?_, hloop, rfl,
    (not_not.1 (inLoop.notClassified_iff.not.1 nofun)).2⟩
  rintro ⟨-, l, loop, _, _, _, hloop, _, _, hmem, _⟩
  obtain rfl : l = 0 := by
    have hl : l < 1 := (List.getElem?_eq_some_iff.1 hloop).1
    exact Nat.lt_one_iff.1 hl
  obtain rfl : ⟨1, .ofList [1]⟩ = loop := Option.some_inj.1 hloop
  exact absurd (List.mem_singleton.1 (OrderedSet.mem_ofList.1 hmem)) (by decide)

/-- The fetch in the loop is found to persist, though nothing leads there. -/
theorem Study.unreachable_firstMiss_deadLoop :
    ¬Procedure.deadLoop.Reachable 1 ∧
    ∃ f g, (ofProgram .deadLoop (.split .oneWay) {}).classify 40 = some f ∧
      (ofProgram .deadLoop (.split .oneWay) {}).settle 40 f = some g ∧
      g.verdicts.get? ⟨0, ⟨1, 0x1040, .fetch⟩, .l1i⟩ = some ⟨.always, .firstMiss, some 0⟩ ∧
      ⟨"main", "dead", 0x1040, .fetch, .l1i, .always, some "loop@dead", .firstMiss⟩ ∈
        ((ofProgram .deadLoop (.split .oneWay) {}).table g).rows := by
  have hends : (((ofProgram .deadLoop (.split .oneWay) {}).classify 40).bind
      fun f => ((ofProgram .deadLoop (.split .oneWay) {}).settle 40 f).map
        fun g => g.verdicts.get? ⟨0, ⟨1, 0x1040, .fetch⟩, .l1i⟩) =
      some (some ⟨.always, .firstMiss, some 0⟩) := by
    decide +kernel
  obtain ⟨f, hclassify, hends⟩ := Option.bind_eq_some_iff.1 hends
  obtain ⟨g, hsettle, hverdict⟩ := Option.map_eq_some_iff.1 hends
  exact ⟨Procedure.not_reachable_deadLoop, f, g, hclassify, hsettle, hverdict,
    mem_rows_table.2 ⟨_, _, hverdict, by decide⟩⟩

end CacheVerdict
