import CacheVerdict.Analysis.Run
import CacheVerdict.Proofs.Analysis.Footprints

/-!
# Looking for persistence

Loop by loop, accesses are offered that are not classified and whose lines are found to persist, and
of the loops offered for an access an outermost one is kept (`outermost_persistent`). What is offered
is an event of the summaries that the classification keeps, its lines are known, and it is not
classified (`MayPersist`). So definite verdicts stay, and no others come up (`definite_settle_iff`).
-/

namespace CacheVerdict

/-- The fuel does not tell solutions apart. -/
lemma Solution.solve?_unique {S : Type} [Domain S] [DecidableEq S] {s : Summary} {r : Region}
    {fuel fuel' : Nat} {solution solution' : Solution S} (h : solve? fuel s r = some solution)
    (h' : solve? fuel' s r = some solution') : solution = solution' := by
  have hmax := Iteration.run_of_le h (le_max_left fuel fuel')
  have hmax' := Iteration.run_of_le h' (le_max_right fuel fuel')
  exact Option.some_inj.1 (hmax.symm.trans hmax')

/-- The findings do not classify an access. -/
def Study.LeavesOpen (f : Findings) (key : AccessKey) : Prop :=
  ∃ v, f.verdicts.get? key = some v ∧ v.classification = .notClassified

/-- Some summary has the access as an event whose lines are known, and it is not classified. -/
structure Study.MayPersist (f : Findings) (key : AccessKey) : Prop where
  leavesOpen : LeavesOpen f key
  event : ∃ (summary : Summary) (n : Nat) (a : Access),
    f.summaries.get? ⟨key.procedure, key.level⟩ = some summary ∧
    .access a ∈ summary.eventsOf n ∧ a.site = key.site ∧ a.target.toList ≠ []

namespace Study

variable {s : Study} {fuel : Nat} {f f' : Findings} {key : AccessKey} {v : Verdict}
  {found found' : OrderedMap AccessKey PersistentLoop}

/-! ### Loops that are offered -/

/-- An event of a node is the access, and in the state before it the lines of the access persist. -/
def PersistsAt (summary : Summary) (solution : Solution (State PersistenceCache)) (n : Nat)
    (site : Site) : Prop :=
  ∃ (i : Nat) (a : Access), (summary.eventsOf n)[i]? = some (.access a) ∧ a.site = site ∧
    PersistenceCache.persists (solution.stateAt summary n i) a.target.toList = true

/-- The accesses that persist at a node are those of the level that are still open and persist
there. -/
lemma mem_persistentAccesses {level : LevelKey} {summary : Summary}
    {solution : Solution (State PersistenceCache)} {n : Nat} :
    key ∈ persistentAccesses f level summary solution n ↔
      level = ⟨key.procedure, key.level⟩ ∧ LeavesOpen f key ∧
        PersistsAt summary solution n key.site := by
  unfold persistentAccesses
  rw [List.mem_filterMap]
  constructor
  · rintro ⟨⟨event, before⟩, hmem, h⟩
    obtain ⟨i, hi⟩ := List.mem_iff_getElem?.1 hmem
    obtain ⟨hevent, hbefore⟩ := List.getElem?_zip_eq_some.1 hi
    cases event with
    | call => cases h
    | access a =>
      rw [Solution.getElem?_beforeEvents hevent] at hbefore
      cases hbefore
      simp only at h
      split at h
      · rename_i hpersists
        cases h
        obtain ⟨hopen, hpersists⟩ := Bool.and_eq_true_iff.1 hpersists
        obtain ⟨v, hv, hclass⟩ := (Option.any_eq_true _ _).1 hopen
        exact ⟨rfl, ⟨v, hv, of_decide_eq_true hclass⟩, i, a, hevent, rfl, hpersists⟩
      · cases h
  · rintro ⟨rfl, ⟨v, hv, hclass⟩, i, a, hevent, hsite, hpersists⟩
    refine ⟨(.access a, solution.stateAt summary n i), ?_, ?_⟩
    · refine List.mem_iff_getElem?.2 ⟨i, List.getElem?_zip_eq_some.2 ⟨hevent, ?_⟩⟩
      exact Solution.getElem?_beforeEvents hevent
    · simp [hsite, hv, hclass, hpersists]

/-- Nothing persists without a line. -/
lemma PersistsAt.exists_event {summary : Summary} {solution : Solution (State PersistenceCache)}
    {n : Nat} {site : Site} (h : PersistsAt summary solution n site) :
    ∃ a, .access a ∈ summary.eventsOf n ∧ a.site = site ∧ a.target.toList ≠ [] := by
  obtain ⟨i, a, hevent, hsite, hpersists⟩ := h
  refine ⟨a, List.mem_of_getElem? hevent, hsite, fun hnil => ?_⟩
  rw [hnil] at hpersists
  cases hstate : solution.stateAt summary n i <;> rw [hstate] at hpersists <;> cases hpersists

/-- Loop `l` of a procedure offers an access at a level. -/
def Offers (s : Study) (f : Findings) (entry : LevelKey × Summary) (l : Nat) (key : AccessKey) :
    Prop :=
  ∃ (loop : Loop) (fuel : Nat) (solution : Solution (State PersistenceCache)) (n : Nat),
    (s.procedure entry.1.procedure).loops[l]? = some loop ∧
    Solution.solve? fuel entry.2 ⟨loop.body, [loop.header]⟩ = some solution ∧
    n ∈ loop.body ∧ key ∈ persistentAccesses f entry.1 entry.2 solution n

/-- Verdicts are offered for loops of the procedure. -/
lemma Offers.lt {entry : LevelKey × Summary} {l : Nat} (h : s.Offers f entry l key) :
    l < (s.procedure entry.1.procedure).loops.length := by
  obtain ⟨_, _, _, _, hloop, _⟩ := h
  exact (List.getElem?_eq_some_iff.1 hloop).1

/-- Verdicts are offered for accesses of the procedure. -/
lemma Offers.procedure {entry : LevelKey × Summary} {l : Nat} (h : s.Offers f entry l key) :
    entry.1.procedure = key.procedure := by
  obtain ⟨_, _, _, _, _, _, _, h⟩ := h
  rw [(mem_persistentAccesses.1 h).1]

/-- What is offered may persist in the study. -/
lemma Offers.mayPersist {entry : LevelKey × Summary} (hentry : entry ∈ f.summaries.entries) {l : Nat}
    (h : s.Offers f entry l key) : MayPersist f key := by
  obtain ⟨_, _, _, n, _, _, _, h⟩ := h
  obtain ⟨heq, hopen, hpersists⟩ := mem_persistentAccesses.1 h
  obtain ⟨a, hevent, hsite, hlines⟩ := hpersists.exists_event
  have hsummary : f.summaries.get? ⟨key.procedure, key.level⟩ = some entry.2 := by
    rw [← heq]
    exact OrderedMap.mem_entries.1 hentry
  exact ⟨hopen, entry.2, n, a, hsummary, hevent, hsite, hlines⟩

/-! ### The outermost of them -/

/-- The outer one of two loops is one of them. -/
lemma outer_eq (old new : PersistentLoop) : outer old new = old ∨ outer old new = new := by
  unfold outer
  split
  · exact .inr rfl
  · exact .inl rfl

/-- The outer loop is not deeper than the one before. -/
lemma outer_depth_le_left (old new : PersistentLoop) : (outer old new).depth ≤ old.depth := by
  unfold outer
  split
  · rename_i hlt
    exact hlt.le
  · exact le_rfl

/-- The outer loop is not deeper than the one after. -/
lemma outer_depth_le_right (old new : PersistentLoop) : (outer old new).depth ≤ new.depth := by
  unfold outer
  split
  · exact le_rfl
  · rename_i hle
    exact not_lt.1 hle

/-- Of the loops that are offered for an access, the map holds an outermost one. -/
structure Outermost (offered : AccessKey → PersistentLoop → Prop)
    (found : OrderedMap AccessKey PersistentLoop) : Prop where
  held : ∀ key loop, offered key loop → (found.get? key).isSome = true
  least : ∀ key loop, found.get? key = some loop →
    offered key loop ∧ ∀ other, offered key other → loop.depth ≤ other.depth

namespace Outermost

variable {offered : AccessKey → PersistentLoop → Prop} {loop : PersistentLoop}

/-- Only which loops are offered matters. -/
lemma congr {offered' : AccessKey → PersistentLoop → Prop} (h : Outermost offered found)
    (heq : ∀ key loop, offered key loop ↔ offered' key loop) : Outermost offered' found := by
  obtain rfl : offered = offered' := funext₂ fun key loop => propext (heq key loop)
  exact h

/-- One more loop for one access. -/
lemma insert (h : Outermost offered found) (access : AccessKey) (loop : PersistentLoop) :
    Outermost (fun key other => offered key other ∨ key = access ∧ other = loop)
      (found.insertWith outer access loop) := by
  constructor
  · rintro key other hother
    rw [OrderedMap.get?_insertWith]
    split
    · rfl
    · rename_i hne
      exact h.held key other (hother.resolve_right fun heq => hne heq.1)
  · intro key kept hkept
    rw [OrderedMap.get?_insertWith] at hkept
    split at hkept
    · rename_i heq
      subst heq
      cases hold : found.get? key with
      | none =>
        rw [hold] at hkept
        cases hkept
        refine ⟨.inr ⟨rfl, rfl⟩, ?_⟩
        rintro other (hother | ⟨_, rfl⟩)
        · have := h.held key other hother
          rw [hold] at this
          cases this
        · exact le_rfl
      | some old =>
        rw [hold] at hkept
        obtain ⟨hoffered, hleast⟩ := h.least key old hold
        obtain rfl : outer old loop = kept := Option.some_inj.1 hkept
        constructor
        · rcases outer_eq old loop with heq | heq
          · rw [heq]
            exact .inl hoffered
          · exact .inr ⟨rfl, heq⟩
        · rintro other (hother | ⟨_, rfl⟩)
          · exact (outer_depth_le_left old loop).trans (hleast other hother)
          · exact outer_depth_le_right old other
    · rename_i hne
      obtain ⟨hoffered, hleast⟩ := h.least key kept hkept
      refine ⟨.inl hoffered, ?_⟩
      rintro other (hother | ⟨heq, _⟩)
      · exact hleast other hother
      · exact absurd heq hne

/-- One more loop for several accesses. -/
lemma insertAll (h : Outermost offered found) (accesses : List AccessKey) (loop : PersistentLoop) :
    Outermost (fun key other => offered key other ∨ key ∈ accesses ∧ other = loop)
      (accesses.foldl (fun found access => found.insertWith outer access loop) found) := by
  induction accesses generalizing found offered with
  | nil => exact h.congr (by simp)
  | cons access accesses ih =>
    refine (ih (h.insert access loop)).congr fun key other => ?_
    rw [List.mem_cons, or_assoc, ← or_and_right]

/-- Steps that each offer some loops offer all of them. -/
lemma foldlM {α : Type} {offers : α → AccessKey → PersistentLoop → Prop} {l : List α}
    {step : OrderedMap AccessKey PersistentLoop → α → Option (OrderedMap AccessKey PersistentLoop)}
    (hstep : ∀ (offered : AccessKey → PersistentLoop → Prop)
      (found found' : OrderedMap AccessKey PersistentLoop) (a : α), Outermost offered found →
        step found a = some found' →
          Outermost (fun key loop => offered key loop ∨ offers a key loop) found')
    (h : Outermost offered found) (hfold : l.foldlM step found = some found') :
    Outermost (fun key loop => offered key loop ∨ ∃ a ∈ l, offers a key loop) found' := by
  induction l generalizing found offered with
  | nil =>
    cases hfold
    exact h.congr (by simp)
  | cons a l ih =>
    rw [List.foldlM_cons] at hfold
    obtain ⟨found₁, hfirst, hrest⟩ := Option.bind_eq_some_iff.1 hfold
    refine (ih (hstep offered found found₁ a h hfirst) hrest).congr fun key loop => ?_
    rw [List.exists_mem_cons_iff, or_assoc]

/-- Refining by one more loop finds the outermost of the loops offered so far and this one. -/
lemma refineLoop (h : Outermost offered found) {entry : LevelKey × Summary} {l : Nat}
    (hstep : s.refineLoop fuel f entry.1 entry.2 found l = some found') :
    Outermost (fun key loop => offered key loop ∨ s.Offers f entry l key ∧
      loop = ⟨l, (s.nest entry.1.procedure).depth l⟩) found' := by
  unfold Study.refineLoop at hstep
  split at hstep
  · rename_i hnone
    cases hstep
    refine h.congr fun key loop => (or_iff_left ?_).symm
    rintro ⟨⟨_, _, _, _, hloop, _⟩, _⟩
    cases hnone.symm.trans hloop
  · rename_i loop hloop
    obtain ⟨solution, hsolution, hstep⟩ := Option.bind_eq_some_iff.1 hstep
    cases hstep
    refine (h.insertAll _ _).congr fun key other => or_congr_right (and_congr_left fun _ => ?_)
    rw [List.mem_flatMap]
    constructor
    · rintro ⟨n, hn, hkey⟩
      exact ⟨loop, fuel, solution, n, hloop, hsolution, hn, hkey⟩
    · rintro ⟨loop', fuel', solution', n, hloop', hsolution', hn, hkey⟩
      cases hloop.symm.trans hloop'
      cases Solution.solve?_unique hsolution hsolution'
      exact ⟨n, hn, hkey⟩

end Outermost

/-- What the search for persistence comes to. -/
lemma outermost_persistent (h : s.persistent fuel f = some found) :
    Outermost (fun key loop => (∃ entry ∈ f.summaries.entries, s.Offers f entry loop.loop key) ∧
      loop.depth = (s.nest key.procedure).depth loop.loop) found := by
  have hstart : Outermost (fun _ _ => False) {} := ⟨nofun, nofun⟩
  refine (hstart.foldlM (fun offered found found' entry h hlevel =>
    h.foldlM (fun _ _ _ l h hloop => h.refineLoop hloop) hlevel) h).congr fun key loop => ?_
  rw [false_or]
  constructor
  · rintro ⟨entry, hentry, l, _, hoffers, rfl⟩
    rw [hoffers.procedure]
    exact ⟨⟨entry, hentry, hoffers⟩, rfl⟩
  · rintro ⟨⟨entry, hentry, hoffers⟩, hdepth⟩
    rw [← hoffers.procedure] at hdepth
    refine ⟨entry, hentry, loop.loop, List.mem_range.2 hoffers.lt, hoffers, ?_⟩
    rw [← hdepth]

/-- Whatever is found to persist may do so. -/
lemma mayPersist_of_persistent (h : s.persistent fuel f = some found) {loop : PersistentLoop}
    (hget : found.get? key = some loop) : MayPersist f key := by
  obtain ⟨⟨⟨entry, hentry, hoffers⟩, _⟩, _⟩ := (outermost_persistent h).least key loop hget
  exact hoffers.mayPersist hentry

/-! ### Verdicts that stay -/

/-- Looking for persistence leaves accesses alone that may not persist. -/
lemma refine_of_not_mayPersist (h : s.refine fuel f = some f')
    (hverdict : f.verdicts.get? key = some v) (hpersist : ¬MayPersist f key) :
    f'.verdicts.get? key = some v := by
  obtain ⟨found, hfound, rfl⟩ := Option.map_eq_some_iff.1 h
  rw [OrderedMap.get?_filterMap, hverdict, Option.bind_some]
  split
  · rename_i persistent hget
    exact absurd (mayPersist_of_persistent hfound hget) hpersist
  · rfl

/-- So classified ones are left alone. -/
lemma settle_of_verdict (h : s.settle fuel f = some f') (hverdict : f.verdicts.get? key = some v)
    (hclass : v.classification ≠ .notClassified) : f'.verdicts.get? key = some v := by
  unfold settle at h
  split at h
  · refine refine_of_not_mayPersist h hverdict fun persists => ?_
    obtain ⟨v', hv', hopen⟩ := persists.leavesOpen
    cases hverdict.symm.trans hv'
    exact hclass hopen
  · cases h
    exact hverdict

/-- Looking for persistence leaves verdicts alone, or turns them into first misses. -/
lemma verdict_of_settle (h : s.settle fuel f = some f') (hverdict : f'.verdicts.get? key = some v)
    (hclass : v.classification ≠ .firstMiss) : f.verdicts.get? key = some v := by
  unfold settle at h
  split at h
  · obtain ⟨found, _, rfl⟩ := Option.map_eq_some_iff.1 h
    rw [OrderedMap.get?_filterMap] at hverdict
    obtain ⟨v', hget, hverdict⟩ := Option.bind_eq_some_iff.1 hverdict
    split at hverdict
    · cases hverdict
      exact absurd rfl hclass
    · cases hverdict
      exact hget
  · cases h
    exact hverdict

/-- In the end, an access is said to hit, or to miss, exactly if the classification says so. -/
theorem definite_settle_iff (h : s.settle fuel f = some f') {c : Classification}
    (hclass : c = .alwaysHit ∨ c = .alwaysMiss) :
    (∃ v, f'.verdicts.get? key = some v ∧ v.classification = c) ↔
      ∃ v, f.verdicts.get? key = some v ∧ v.classification = c := by
  have hnot : c ≠ .notClassified ∧ c ≠ .firstMiss := by
    rcases hclass with rfl | rfl
    · exact ⟨nofun, nofun⟩
    · exact ⟨nofun, nofun⟩
  constructor
  · rintro ⟨v, hverdict, rfl⟩
    exact ⟨v, verdict_of_settle h hverdict hnot.2, rfl⟩
  · rintro ⟨v, hverdict, rfl⟩
    exact ⟨v, settle_of_verdict h hverdict hnot.1, rfl⟩

/-! ### The table -/

/-- The rows of the table are the verdicts. -/
lemma mem_rows_table {row : Row} :
    row ∈ (s.table f).rows ↔ ∃ key v, f.verdicts.get? key = some v ∧ s.row key v = row := by
  refine (sortBy_perm _ _).mem_iff.trans (List.mem_map.trans ⟨?_, ?_⟩)
  · rintro ⟨⟨key, v⟩, hmem, rfl⟩
    exact ⟨key, v, OrderedMap.mem_entries.1 hmem, rfl⟩
  · rintro ⟨key, v, hverdict, rfl⟩
    exact ⟨(key, v), OrderedMap.mem_entries.2 hverdict, rfl⟩

/-- The table of a program is made of the findings of its study. -/
lemma exists_settle_of_analyse {program : Program} {hierarchy : Hierarchy} {settings : Settings}
    {table : Table} (h : program.analyse hierarchy settings = .ok table) :
    ∃ f g, (ofProgram program hierarchy settings).classify visitLimit = some f ∧
      (ofProgram program hierarchy settings).settle visitLimit f = some g ∧
      table = (ofProgram program hierarchy settings).table g := by
  unfold Program.analyse prepare at h
  split at h
  · cases h
  · simp only [bind, Except.bind] at h
    split at h
    · rename_i g hfindings
      cases h
      obtain ⟨f, hclassify, hsettle⟩ := Option.bind_eq_some_iff.1 hfindings
      exact ⟨f, g, hclassify, hsettle, rfl⟩
    · cases h

end Study

end CacheVerdict
