import CacheVerdict.Proofs.Analysis.Completeness
import CacheVerdict.Proofs.Analysis.Refinement

/-!
# Accesses that persist in loops

What it is for an access to persist in a loop, said of the analysis of that loop alone
(`Study.PersistsIn`). The search for persistence offers just the open accesses with the loops in which
they persist (`Prepared.outermost`), it ends if the analyses of the loops do (`exists_refine`), and
what it leaves behind offers nothing more (`refine_refine`). Main statement: exactly the open verdicts
on accesses that persist in some loop change, each to a first miss in an outermost such loop, and
searching again changes nothing (`Study.refine_outermost`).
-/

namespace CacheVerdict

/-- A step that leaves things as they are does so when it is repeated. -/
lemma foldlM_fixed {α β : Type} {step : β → α → Option β} {l : List α} {b : β}
    (h : ∀ a ∈ l, step b a = some b) : l.foldlM step b = some b := by
  induction l with
  | nil => rfl
  | cons a l ih =>
    rw [List.forall_mem_cons] at h
    rw [List.foldlM_cons, h.1]
    exact ih h.2

/-- Steps that succeed together succeed one by one. -/
lemma exists_step_of_foldlM {α β : Type} {step : β → α → Option β} {l : List α} {b b' : β} {a : α}
    (h : l.foldlM step b = some b') (ha : a ∈ l) : ∃ b₁ b₂, step b₁ a = some b₂ := by
  induction l generalizing b with
  | nil => cases ha
  | cons first l ih =>
    rw [List.foldlM_cons] at h
    obtain ⟨b₁, hfirst, hrest⟩ := Option.bind_eq_some_iff.1 h
    rcases List.mem_cons.1 ha with rfl | ha
    · exact ⟨b, b₁, hfirst⟩
    · exact ih hrest ha

namespace Study

variable {s : Study} {fuel : Nat} {f g : Findings} {key : AccessKey} {v : Verdict}
  {found : OrderedMap AccessKey PersistentLoop}

/-! ### Persisting in a loop -/

/-- An access persists in loop `l` at its level: the loop has the node of the access, and the analysis
of the loop, which starts at its header, has the lines of the access persist before the access. -/
def PersistsIn (s : Study) (f : Findings) (key : AccessKey) (l : Nat) : Prop :=
  ∃ (loop : Loop) (summary : Summary) (fuel : Nat) (solution : Solution (State PersistenceCache)),
    (s.procedure key.procedure).loops[l]? = some loop ∧
    f.summaries.get? ⟨key.procedure, key.level⟩ = some summary ∧
    Solution.solve? fuel summary ⟨loop.body, [loop.header]⟩ = some solution ∧
    key.site.node ∈ loop.body ∧ PersistsAt summary solution key.site.node key.site

/-- The loops that are offered for an access are those in which it persists. -/
lemma Prepared.offers_iff (prepared : s.Prepared) (h : s.classify fuel = some f) {l : Nat} :
    (∃ entry ∈ f.summaries.entries, s.Offers f entry l key) ↔
      LeavesOpen f key ∧ s.PersistsIn f key l := by
  constructor
  · rintro ⟨entry, hentry, loop, fuel', solution, n, hloop, hsolution, hn, hkey⟩
    obtain ⟨heq, hopen, hpersists⟩ := mem_persistentAccesses.1 hkey
    have hsummary : f.summaries.get? ⟨key.procedure, key.level⟩ = some entry.2 := by
      rw [← heq]
      exact OrderedMap.mem_entries.1 hentry
    obtain ⟨v, hverdict, hclass⟩ := hopen
    obtain ⟨A, cache, _, _, hsummary'⟩ := prepared.exists_summary h hverdict
    obtain ⟨a, hevent, hsite, _⟩ := hpersists.exists_event
    rw [Option.some_inj.1 (hsummary.symm.trans hsummary')] at hevent
    obtain rfl : key.site.node = n := hsite ▸ node_of_event hevent
    rw [heq] at hloop
    exact ⟨⟨v, hverdict, hclass⟩, loop, entry.2, fuel', solution, hloop, hsummary, hsolution, hn,
      hpersists⟩
  · rintro ⟨hopen, loop, summary, fuel', solution, hloop, hsummary, hsolution, hn, hpersists⟩
    exact ⟨(⟨key.procedure, key.level⟩, summary), OrderedMap.mem_entries.2 hsummary, loop, fuel',
      solution, key.site.node, hloop, hsolution, hn,
      mem_persistentAccesses.2 ⟨rfl, hopen, hpersists⟩⟩

/-- So an outermost of these is found. -/
lemma Prepared.outermost (prepared : s.Prepared) (h : s.classify fuel = some f) {fuel' : Nat}
    (hfound : s.persistent fuel' f = some found) :
    Outermost (fun key loop => (LeavesOpen f key ∧ s.PersistsIn f key loop.loop) ∧
      loop.depth = (s.nest key.procedure).depth loop.loop) found := by
  refine (outermost_persistent hfound).congr fun key loop => ?_
  rw [prepared.offers_iff h]

/-! ### Refining -/

/-- The verdicts once an outermost loop has been found for some of them. -/
lemma exists_found_of_refine (h : s.refine fuel f = some g) :
    ∃ found, s.persistent fuel f = some found ∧ g.summaries = f.summaries ∧
      g.footprints = f.footprints ∧ ∀ key, g.verdicts.get? key = (f.verdicts.get? key).map fun v =>
        (found.get? key).elim v fun loop =>
          { v with classification := .firstMiss, loop := some loop.loop } := by
  obtain ⟨found, hfound, rfl⟩ := Option.map_eq_some_iff.1 h
  refine ⟨found, hfound, rfl, rfl, fun key => ?_⟩
  rw [OrderedMap.get?_filterMap]
  cases f.verdicts.get? key with
  | none => rfl
  | some v => cases found.get? key <;> rfl

/-- Findings whose open verdicts have been refined by persistence. Those on accesses that persist in
some loop, and no others, become first misses in an outermost such loop; whether the access reaches the
level stays as it was. -/
structure Refines (s : Study) (f g : Findings) : Prop where
  summaries : g.summaries = f.summaries
  footprints : g.footprints = f.footprints
  keys : ∀ key, (g.verdicts.get? key).isSome = (f.verdicts.get? key).isSome
  changed : ∀ key v v', f.verdicts.get? key = some v → g.verdicts.get? key = some v' →
    (v' ≠ v ↔ v.classification = .notClassified ∧ ∃ l, s.PersistsIn f key l)
  outermost : ∀ key v v', f.verdicts.get? key = some v → g.verdicts.get? key = some v' → v' ≠ v →
    ∃ l, v' = { v with classification := .firstMiss, loop := some l } ∧ s.PersistsIn f key l ∧
      ∀ l', s.PersistsIn f key l' →
        (s.nest key.procedure).depth l ≤ (s.nest key.procedure).depth l'

/-- Refining changes the findings of a prepared study in no other way than this. -/
lemma Prepared.refines (prepared : s.Prepared) (h : s.classify fuel = some f) {fuel' : Nat}
    (hrefine : s.refine fuel' f = some g) : s.Refines f g := by
  obtain ⟨found, hfound, hsummaries, hfootprints, hverdicts⟩ := exists_found_of_refine hrefine
  have outermost := prepared.outermost h hfound
  refine ⟨hsummaries, hfootprints, fun key => ?_, ?_, ?_⟩
  · rw [hverdicts, Option.isSome_map]
  · intro key v v' hv hv'
    rw [hverdicts, hv] at hv'
    cases hget : found.get? key with
    | none =>
      obtain rfl : v = v' := by simpa [hget] using hv'
      refine iff_of_false (fun hne => hne rfl) ?_
      rintro ⟨hclass, l, persists⟩
      have hheld := outermost.held key ⟨l, (s.nest key.procedure).depth l⟩
        ⟨⟨⟨v, hv, hclass⟩, persists⟩, rfl⟩
      rw [hget] at hheld
      cases hheld
    | some loop =>
      obtain ⟨⟨⟨⟨w, hw, hclass⟩, persists⟩, _⟩, _⟩ := outermost.least key loop hget
      cases hv.symm.trans hw
      obtain rfl : _ = v' := by simpa [hget] using hv'
      refine iff_of_true (fun heq => ?_) ⟨hclass, loop.loop, persists⟩
      rw [← heq] at hclass
      cases hclass
  · intro key v v' hv hv' hne
    rw [hverdicts, hv] at hv'
    cases hget : found.get? key with
    | none => exact absurd (by simpa [hget] using hv'.symm) hne
    | some loop =>
      obtain ⟨⟨⟨leavesOpen, persists⟩, hdepth⟩, least⟩ := outermost.least key loop hget
      refine ⟨loop.loop, by simpa [hget] using hv'.symm, persists, fun l' persists' => ?_⟩
      rw [← hdepth]
      exact least ⟨l', _⟩ ⟨⟨leavesOpen, persists'⟩, rfl⟩

/-! ### Searching again -/

/-- The step for a loop whose analysis ends. -/
lemma refineLoop_eq_some {level : LevelKey} {summary : Summary} {l : Nat} {loop : Loop}
    {solution : Solution (State PersistenceCache)}
    (hloop : (s.procedure level.procedure).loops[l]? = some loop)
    (hsolution : Solution.solve? fuel summary ⟨loop.body, [loop.header]⟩ = some solution) :
    s.refineLoop fuel f level summary found l =
      some ((loop.body.toList.flatMap (persistentAccesses f level summary solution)).foldl
        (fun found access =>
          found.insertWith outer access ⟨l, (s.nest level.procedure).depth l⟩) found) := by
  unfold refineLoop
  rw [hloop]
  simp only [hsolution]
  rfl

/-- If the search ends, the analyses of all loops do. -/
lemma exists_solution_of_persistent (h : s.persistent fuel f = some found)
    {entry : LevelKey × Summary} (hentry : entry ∈ f.summaries.entries) {l : Nat} {loop : Loop}
    (hloop : (s.procedure entry.1.procedure).loops[l]? = some loop) :
    ∃ solution : Solution (State PersistenceCache),
      Solution.solve? fuel entry.2 ⟨loop.body, [loop.header]⟩ = some solution := by
  obtain ⟨found₁, found₂, hlevel⟩ := exists_step_of_foldlM h hentry
  have hl : l ∈ List.range (s.procedure entry.1.procedure).loops.length :=
    List.mem_range.2 (List.getElem?_eq_some_iff.1 hloop).1
  obtain ⟨found₃, found₄, hstep⟩ := exists_step_of_foldlM hlevel hl
  unfold refineLoop at hstep
  rw [hloop] at hstep
  obtain ⟨solution, hsolution, _⟩ := Option.bind_eq_some_iff.1 hstep
  exact ⟨solution, hsolution⟩

/-- What is still open has not been offered. -/
lemma not_offers_of_refine (h : s.refine fuel f = some g) {entry : LevelKey × Summary}
    (hentry : entry ∈ g.summaries.entries) {l : Nat} : ¬s.Offers g entry l key := by
  obtain ⟨found, hfound, hsummaries, _, hverdicts⟩ := exists_found_of_refine h
  rintro ⟨loop, fuel', solution, n, hloop, hsolution, hn, hkey⟩
  obtain ⟨heq, ⟨v', hv', hclass'⟩, hpersists⟩ := mem_persistentAccesses.1 hkey
  rw [hverdicts] at hv'
  obtain ⟨v, hv, rfl⟩ := Option.map_eq_some_iff.1 hv'
  cases hget : found.get? key with
  | some loop =>
    rw [hget] at hclass'
    cases hclass'
  | none =>
    rw [hget] at hclass'
    rw [hsummaries] at hentry
    have hoffers : s.Offers f entry l key := ⟨loop, fuel', solution, n, hloop, hsolution, hn,
      mem_persistentAccesses.2 ⟨heq, ⟨v, hv, hclass'⟩, hpersists⟩⟩
    have hheld := (outermost_persistent hfound).held key ⟨l, (s.nest key.procedure).depth l⟩
      ⟨⟨entry, hentry, hoffers⟩, rfl⟩
    rw [hget] at hheld
    cases hheld

/-- So the search finds nothing the second time. -/
lemma persistent_of_refine (h : s.refine fuel f = some g) : s.persistent fuel g = some {} := by
  obtain ⟨found, hfound, hsummaries, _, _⟩ := exists_found_of_refine h
  refine foldlM_fixed fun entry hentry => foldlM_fixed fun l _ => ?_
  cases hloop : (s.procedure entry.1.procedure).loops[l]? with
  | none => simp only [refineLoop, hloop]
  | some loop =>
    obtain ⟨solution, hsolution⟩ := exists_solution_of_persistent hfound (hsummaries ▸ hentry) hloop
    have hnone : loop.body.toList.flatMap (persistentAccesses g entry.1 entry.2 solution) = [] := by
      rw [List.eq_nil_iff_forall_not_mem]
      intro key hkey
      obtain ⟨n, hn, hkey⟩ := List.mem_flatMap.1 hkey
      exact not_offers_of_refine h hentry ⟨loop, fuel, solution, n, hloop, hsolution, hn, hkey⟩
    rw [refineLoop_eq_some hloop hsolution, hnone, List.foldl_nil]

/-- And changes nothing. -/
lemma refine_refine (h : s.refine fuel f = some g) : s.refine fuel g = some g := by
  unfold refine
  rw [persistent_of_refine h, Option.map_some]
  congr 1
  obtain ⟨summaries, footprints, verdicts⟩ := g
  congr 1
  refine OrderedMap.ext_get? fun key => ?_
  rw [OrderedMap.get?_filterMap]
  cases verdicts.get? key <;> rfl

/-! ### The search ends -/

/-- The analyses of all loops for persistence end. -/
def LoopsEnd (s : Study) (f : Findings) : Prop :=
  ∀ level summary, f.summaries.get? level = some summary →
    ∀ loop ∈ (s.procedure level.procedure).loops, ∃ (fuel : Nat)
      (solution : Solution (State PersistenceCache)),
        Solution.solve? fuel summary ⟨loop.body, [loop.header]⟩ = some solution

/-- If refining ends, every search for persistence has ended. -/
lemma loopsEnd_of_refine (h : s.refine fuel f = some g) : s.LoopsEnd f := by
  obtain ⟨found, hfound, _⟩ := exists_found_of_refine h
  intro level summary hsummary loop hloop
  obtain ⟨l, hl⟩ := List.mem_iff_getElem?.1 hloop
  have hentry : (level, summary) ∈ f.summaries.entries := OrderedMap.mem_entries.2 hsummary
  exact ⟨fuel, exists_solution_of_persistent hfound hentry hl⟩

/-- If they do, so does the search. -/
lemma LoopsEnd.exists_refine (ends : s.LoopsEnd f) :
    ∃ bound g, ∀ fuel ≥ bound, s.refine fuel f = some g := by
  suffices ∃ bound found, ∀ fuel ≥ bound, s.persistent fuel f = some found by
    obtain ⟨bound, found, hfound⟩ := this
    exact ⟨bound, _, fun fuel hfuel => congrArg (Option.map _) (hfound fuel hfuel)⟩
  refine exists_foldlM (fun found entry hentry => exists_foldlM (fun found l hl => ?_) found) _
  obtain ⟨loop, hloop⟩ : ∃ loop, (s.procedure entry.1.procedure).loops[l]? = some loop :=
    ⟨_, List.getElem?_eq_getElem (List.mem_range.1 hl)⟩
  obtain ⟨bound, solution, hsolution⟩ :=
    ends entry.1 entry.2 (OrderedMap.mem_entries.1 hentry) loop (List.mem_of_getElem? hloop)
  exact ⟨bound, _, fun fuel hfuel =>
    refineLoop_eq_some hloop (Iteration.run_of_le hsolution hfuel)⟩

/-! ### The main statement -/

/-- The search for persistence ends if the analyses of all loops do. It changes exactly the open
verdicts on accesses that persist in some loop, each to a first miss in an outermost such loop, and
searching again changes nothing. -/
theorem refine_outermost (program : Program) (hierarchy : Hierarchy) (settings : Settings)
    {fuel : Nat} {f : Findings} (h : (ofProgram program hierarchy settings).classify fuel = some f)
    (ends : (ofProgram program hierarchy settings).LoopsEnd f) :
    (∃ (bound : Nat) (g : Findings), ∀ fuel' ≥ bound,
      (ofProgram program hierarchy settings).refine fuel' f = some g) ∧
    ∀ (fuel' : Nat) (g : Findings), (ofProgram program hierarchy settings).refine fuel' f = some g →
      (ofProgram program hierarchy settings).Refines f g ∧
        (ofProgram program hierarchy settings).refine fuel' g = some g := by
  refine ⟨ends.exists_refine, fun fuel' g hrefine => ⟨?_, refine_refine hrefine⟩⟩
  exact (prepared_ofProgram program hierarchy settings).refines h hrefine

end Study

/-! ### Two loops -/

/-- A loop within another. Line 65 is fetched in the inner loop only and stays in the first level. Line
66, which the inner loop fetches too, loses its place each time the outer loop goes round. -/
def Program.nestedLoops : Program where
  procedures := [
    { name := "main"
      nodes := [
        ⟨"outer", .loopHead [⟨0x1000, .other, "nop"⟩, ⟨0x1100, .other, "nop"⟩]⟩,
        ⟨"inner", .loopHead [⟨0x1040, .other, "nop"⟩, ⟨0x1080, .other, "nop"⟩]⟩]
      edges := [⟨none, 0⟩, ⟨some 0, 1⟩, ⟨some 1, 1⟩, ⟨some 1, 0⟩]
      loops := [⟨0, .ofList [0, 1]⟩, ⟨1, .ofList [1]⟩] }]

/-- Both fetches of the inner loop are open at first. The one of line 65 is found to persist in the
outer loop, the one of line 66 in the inner loop only. -/
theorem Study.refine_outermost_nestedLoops :
    ∃ f g, (ofProgram .nestedLoops .fetchesFirst {}).classify 40 = some f ∧
      (ofProgram .nestedLoops .fetchesFirst {}).refine 40 f = some g ∧
      f.verdicts.get? ⟨0, ⟨1, 0x1040, .fetch⟩, .l1i⟩ = some ⟨.always, .notClassified, some 1⟩ ∧
      g.verdicts.get? ⟨0, ⟨1, 0x1040, .fetch⟩, .l1i⟩ = some ⟨.always, .firstMiss, some 0⟩ ∧
      g.verdicts.get? ⟨0, ⟨1, 0x1080, .fetch⟩, .l1i⟩ = some ⟨.always, .firstMiss, some 1⟩ ∧
      ¬(ofProgram .nestedLoops .fetchesFirst {}).PersistsIn f ⟨0, ⟨1, 0x1080, .fetch⟩, .l1i⟩ 0 ∧
      (ofProgram .nestedLoops .fetchesFirst {}).refine 40 g = some g := by
  have hends : (((ofProgram .nestedLoops .fetchesFirst {}).classify 40).bind fun f =>
      ((ofProgram .nestedLoops .fetchesFirst {}).refine 40 f).map fun g =>
        (f.verdicts.get? ⟨0, ⟨1, 0x1040, .fetch⟩, .l1i⟩,
          f.verdicts.get? ⟨0, ⟨1, 0x1080, .fetch⟩, .l1i⟩,
          g.verdicts.get? ⟨0, ⟨1, 0x1040, .fetch⟩, .l1i⟩,
          g.verdicts.get? ⟨0, ⟨1, 0x1080, .fetch⟩, .l1i⟩)) =
      some (some ⟨.always, .notClassified, some 1⟩, some ⟨.always, .notClassified, some 1⟩,
        some ⟨.always, .firstMiss, some 0⟩, some ⟨.always, .firstMiss, some 1⟩) := by
    decide +kernel
  obtain ⟨f, hclassify, hends⟩ := Option.bind_eq_some_iff.1 hends
  obtain ⟨g, hrefine, hverdicts⟩ := Option.map_eq_some_iff.1 hends
  obtain ⟨hopen, hopen', houter, hinner⟩ : _ ∧ _ ∧ _ ∧ _ := by simpa using hverdicts
  obtain ⟨-, refined⟩ := refine_outermost .nestedLoops .fetchesFirst {} hclassify
    (loopsEnd_of_refine hrefine)
  obtain ⟨refines, again⟩ := refined 40 g hrefine
  refine ⟨f, g, hclassify, hrefine, hopen, houter, hinner, fun persists => ?_, again⟩
  -- in the outer loop it would have been found, which is less deep
  obtain ⟨l, heq, _, least⟩ := refines.outermost _ _ _ hopen' hinner (by decide)
  obtain rfl : 1 = l := Option.some_inj.1 (congrArg Verdict.loop heq)
  exact absurd (least 0 persists) (by decide +kernel)

end CacheVerdict
