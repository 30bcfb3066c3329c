import CacheVerdict.Proofs.Cache.Agreement

/-!
# Exactness on a single path

Along a chain of nodes that no other edge joins (`Summary.Chain`) there is one run, if every access
arrives for certain and goes to one line. The ages of both analyses are then no bounds but the
places of the lines in the cache (`AgedLines.Mirrors`). Only lines of one set are aged by a touch,
and no two of them share a place, so it does not matter whether lines of the same age count as
younger or as older (`AgedLines.Mirrors.touch`).
-/

namespace CacheVerdict

namespace AgedLines

variable {g : Geometry} {ties : Bool} {a : AgedLines} {c : LruCache g} {line other : Line}

/-- The lines held are those cached, each at the place that it has in its set. -/
def Mirrors (a : AgedLines) (c : LruCache g) : Prop :=
  ∀ line, a.get? line = if line ∈ c then some (c.age line) else none

/-- Nothing is held of an empty cache. -/
lemma mirrors_empty : ({} : AgedLines).Mirrors (LruCache.empty g) := by
  intro line
  rw [if_neg LruCache.not_mem_empty]
  rfl

namespace Mirrors

/-- A cached line is held at its age. -/
lemma get?_of_mem (h : a.Mirrors c) (hline : line ∈ c) : a.get? line = some (c.age line) := by
  rw [h line, if_pos hline]

/-- A line that is not cached is not held. -/
lemma get?_of_not_mem (h : a.Mirrors c) (hline : line ∉ c) : a.get? line = none := by
  rw [h line, if_neg hline]

/-- A line is held if it is cached. -/
lemma contains_eq (h : a.Mirrors c) : a.contains line = decide (line ∈ c) := by
  rw [OrderedMap.contains]
  by_cases hline : line ∈ c
  · simp [h.get?_of_mem hline, hline]
  · simp [h.get?_of_not_mem hline, hline]

/-- A touch ages the cached lines of the set that do not stand behind the touched one. -/
lemma ages_iff (h : a.Mirrors c) (hne : other ≠ line) (hother : other ∈ c) :
    (a.standing g line).ages ties (g.setOf other) (c.age other) = true ↔
      g.setOf other = g.setOf line ∧ line ∉ c.younger other := by
  rw [← not_iff_not, not_ages, not_and_or, not_not, ne_comm]
  refine or_congr_right' fun hset => ?_
  have hset : g.setOf other = g.setOf line := not_not.1 hset
  constructor
  · rintro ⟨own, hown, hle⟩
    have hline : line ∈ c := by
      by_contra hline
      rw [h.get?_of_not_mem hline] at hown
      cases hown
    rw [h.get?_of_mem hline, Option.some.injEq] at hown
    -- no two lines of a set are at the same place
    rcases LruCache.mem_younger_or hne hset hline hother with hy | hy
    · exact hy
    · have hlt := (LruCache.mem_younger_iff (Ne.symm hne) hset.symm hother hline).1 hy
      split at hle <;> omega
  · intro hy
    have hline : line ∈ c := by
      rw [LruCache.mem_def, ← hset]
      exact (List.takeWhile_sublist _).subset hy
    have hlt := (LruCache.mem_younger_iff hne hset hline hother).1 hy
    refine ⟨c.age line, h.get?_of_mem hline, ?_⟩
    split
    · exact hlt
    · exact hlt.le

/-- Touching a line keeps the ages exact, whether or not lines of the same age count as younger. -/
lemma touch (h : a.Mirrors c) (line : Line) : (a.touch g ties line).Mirrors (c.touch line) := by
  intro other
  rw [get?_touch]
  by_cases hne : other = line
  · subst hne
    rw [if_pos rfl, if_pos LruCache.mem_touch_self, LruCache.age_touch_self]
  rw [if_neg hne]
  by_cases hother : other ∈ c
  · rw [h.get?_of_mem hother, Option.bind_some]
    by_cases hages : (a.standing g line).ages ties (g.setOf other) (c.age other) = true
    · obtain ⟨hset, hy⟩ := (h.ages_iff hne hother).1 hages
      have hmem : other ∈ c.touch line ↔ c.age other + 1 < g.ways.toNat := by
        rw [LruCache.mem_touch_iff hne hset hother, LruCache.length_erase_younger_of_not_mem hy]
      rw [if_pos hages, keep]
      by_cases hlt : c.age other + 1 < g.ways.toNat
      · rw [if_pos hlt, if_pos (hmem.2 hlt),
          LruCache.age_touch_of_not_mem_younger hne hset (hmem.2 hlt) hy]
      · rw [if_neg hlt, if_neg fun hin => hlt (hmem.1 hin)]
    · have hstays : other ∈ c.touch line ∧ (c.touch line).age other = c.age other := by
        by_cases hset : g.setOf other = g.setOf line
        · have hy : line ∈ c.younger other := by
            by_contra hy
            exact hages ((h.ages_iff hne hother).2 ⟨hset, hy⟩)
          exact LruCache.age_touch_of_mem_younger hne hset hother hy
        · exact ⟨(LruCache.mem_touch_of_ne hset).2 hother, LruCache.age_touch_of_ne hset⟩
      rw [if_neg hages, keep, if_pos (LruCache.age_lt hother), if_pos hstays.1, hstays.2]
  · rw [h.get?_of_not_mem hother, Option.bind_none,
      if_neg fun hin => hother (LruCache.mem_of_mem_touch hne hin)]

end Mirrors

end AgedLines

/-! ### Chains -/

/-- An access that arrives for certain, and to one line. -/
def Event.TouchesOnly (e : Event) (line : Line) : Prop :=
  ∃ a, e = .access a ∧ a.reach = .always ∧ ∀ x, a.target.Admits x ↔ x = line

/-- Only known lines can all be one line. -/
lemma Target.exists_lines {target : Target} {line : Line} (h : ∀ x, target.Admits x ↔ x = line) :
    ∃ lines, target = .lines lines ∧ ∀ x, x ∈ lines ↔ x = line := by
  cases target with
  | lines lines => exact ⟨lines, rfl, h⟩
  | unknown =>
    have h₀ : (0 : Line) = line := (h 0).1 trivial
    have h₁ : (1 : Line) = line := (h 1).1 trivial
    exact absurd (h₀.trans h₁.symm) (by decide)

/-- A chain of nodes from an entry without predecessors, each later one with the one before it as
its only predecessor, up to node `n`. The accesses in front of `n` go to the lines `past`, one after
the other. -/
inductive Summary.Chain (s : Summary) : (n : Nat) → (past : List Line) → Prop where
  | entry {n : Nat} : n ∈ s.entries → n < s.events.length → s.predecessorsOf n = [] → Chain s n []
  | edge {p n : Nat} {past lines : List Line} :
    Chain s p past → List.Forall₂ Event.TouchesOnly (s.eventsOf p) lines → n ∉ s.entries →
    n < s.events.length → s.predecessorsOf n = [p] → Chain s n (past ++ lines)

/-- The nodes of a chain are nodes of the summary. -/
lemma Summary.Chain.mem_nodes {s : Summary} {n : Nat} {past : List Line} (h : s.Chain n past) :
    n ∈ (Region.whole s).nodes := by
  cases h with
  | entry _ hn => exact OrderedSet.mem_below.2 hn
  | edge _ _ _ hn => exact OrderedSet.mem_below.2 hn

section

variable {σ : Type} [Abstraction σ] {g : Geometry} {D : σ → LruCache g → Prop}

/-- A description that starts with the empty cache and is kept by accesses to one line. -/
structure Tracks (D : σ → LruCache g → Prop) : Prop where
  start : D (Abstraction.start true) (LruCache.empty g)
  touch : ∀ {a : σ} {c : LruCache g} (line : Line), D a c →
    D (Abstraction.touch g line a) (c.touch line)

/-- An access to one line touches it, however often the line is named. -/
lemma State.transfer_of_touchesOnly [LawfulAbstraction σ] {e : Event} {line : Line}
    (h : e.TouchesOnly line) (a : σ) :
    Domain.transfer g (State.reached a) e = .reached (Abstraction.touch g line a) := by
  obtain ⟨access, rfl, hreach, hadmits⟩ := h
  obtain ⟨lines, htarget, hlines⟩ := Target.exists_lines hadmits
  have hset : OrderedSet.ofList lines = OrderedSet.ofList [line] :=
    OrderedSet.ext_mem fun x => by
      rw [OrderedSet.mem_ofList, OrderedSet.mem_ofList, List.mem_singleton]
      exact hlines x
  have htoList : (OrderedSet.ofList lines).toList = line :: [] := by
    rw [hset]
    rfl
  simp only [Domain.transfer, hreach, htarget]
  exact access_reached htoList a

namespace Tracks

variable [LawfulAbstraction σ]

/-- The accesses of a node are replayed one by one. -/
lemma transferAll (tracks : Tracks D) {events : List Event} {lines : List Line}
    (h : List.Forall₂ Event.TouchesOnly events lines) {a : σ} {c : LruCache g} (ha : D a c) :
    ∃ a', Domain.transferAll g (State.reached a) events = .reached a' ∧ D a' (c.touchAll lines) := by
  induction h generalizing a c with
  | nil => exact ⟨a, rfl, ha⟩
  | @cons e line events lines he _ ih =>
    obtain ⟨a', ha', hD⟩ := ih (tracks.touch line ha)
    refine ⟨a', ?_, hD⟩
    rw [← ha', ← State.transfer_of_touchesOnly he]
    rfl

end Tracks

end

section

variable {σ : Type} [Abstraction σ] [LawfulAbstraction σ] {s : Summary}
  {D : σ → LruCache s.geometry → Prop} {solution : Solution (State σ)} {n : Nat} {past : List Line}

/-- At a node of a chain stands what the accesses in front of it leave of the empty cache. -/
lemma Tracks.inOf (tracks : Tracks D) (cold : s.coldStart = true)
    (settled : solution.Settled s (.whole s)) (h : s.Chain n past) :
    ∃ a, solution.inOf n = .reached a ∧ D a ((LruCache.empty s.geometry).touchAll past) := by
  induction h with
  | @entry n hentry hn hpred =>
    refine ⟨Abstraction.start true, ?_, tracks.start⟩
    rw [settled.inOf_eq (OrderedSet.mem_below.2 hn), Iteration.meet, hpred, cold]
    exact if_pos hentry
  | @edge p n past lines hchain hlines hentry hn hpred ih =>
    obtain ⟨a, ha, hD⟩ := ih
    obtain ⟨a', ha', hD'⟩ := tracks.transferAll hlines hD
    refine ⟨a', ?_, ?_⟩
    · -- nothing but the state behind the only predecessor arrives
      have hout : solution.outs.get? p = some (.reached a') := by
        rw [settled.get?_outs hchain.mem_nodes, settled.outOf_eq hchain.mem_nodes, ha, ha']
      have hinitial : ¬ n ∈ (Region.whole s).entries := hentry
      rw [settled.inOf_eq (OrderedSet.mem_below.2 hn), Iteration.meet, hpred, if_neg hinitial,
        List.foldl_cons, hout]
      rfl
    · rw [LruCache.touchAll, List.foldl_append]
      exact hD'

/-- So it is before each of its accesses. -/
lemma Tracks.stateAt (tracks : Tracks D) (cold : s.coldStart = true)
    (settled : solution.Settled s (.whole s)) (h : s.Chain n past) {lines : List Line}
    (hlines : List.Forall₂ Event.TouchesOnly (s.eventsOf n) lines) (i : Nat) :
    ∃ a, solution.stateAt s n i = .reached a ∧
      D a ((LruCache.empty s.geometry).touchAll (past ++ lines.take i)) := by
  obtain ⟨a, ha, hD⟩ := tracks.inOf cold settled h
  obtain ⟨a', ha', hD'⟩ := tracks.transferAll (List.forall₂_take i hlines) hD
  refine ⟨a', ?_, ?_⟩
  · rw [← ha', ← ha]
    rfl
  · rw [LruCache.touchAll, List.foldl_append]
    exact hD'

end

/-! ### Both analyses -/

/-- Lines that must be cached mirror the cache along a chain. -/
lemma MustCache.tracks_mirrors (g : Geometry) :
    Tracks fun (a : MustCache) (c : LruCache g) => a.lines.Mirrors c where
  start := AgedLines.mirrors_empty
  touch line h := h.touch line

/-- Lines that may be cached mirror the cache along a chain, and are not saturated. -/
lemma MayCache.tracks_mirrors (g : Geometry) :
    Tracks fun (a : MayCache) (c : LruCache g) => a.saturated = false ∧ a.lines.Mirrors c where
  start := ⟨rfl, AgedLines.mirrors_empty⟩
  touch line h := ⟨h.1, h.2.touch line⟩

/-- With exact ages, whether an access to one line hits is known. -/
lemma Access.classify_of_mirrors {g : Geometry} {access : Access} {line : Line} {must : MustCache}
    {may : MayCache} {c : LruCache g} (hadmits : ∀ x, access.target.Admits x ↔ x = line)
    (hmust : must.lines.Mirrors c) (hsat : may.saturated = false) (hmay : may.lines.Mirrors c) :
    access.classify (.reached must) (.reached may) =
      if line ∈ c then .alwaysHit else .alwaysMiss := by
  obtain ⟨lines, htarget, hlines⟩ := Target.exists_lines hadmits
  have hne : lines.isEmpty = false :=
    List.isEmpty_eq_false_iff_exists_mem.2 ⟨line, (hlines line).2 rfl⟩
  have hall (p : Line → Bool) : lines.all p = p line := by
    rw [Bool.eq_iff_iff, List.all_eq_true]
    simp only [hlines, forall_eq]
  have hits : MustCache.hits (.reached must) lines = decide (line ∈ c) := by
    rw [MustCache.hits, hne, hall, hmust.contains_eq]
    rfl
  have misses : MayCache.misses (.reached may) lines = !decide (line ∈ c) := by
    rw [MayCache.misses, hsat, hne, hall, hmay.contains_eq]
    rfl
  rw [classify, htarget]
  simp only [hits, misses]
  by_cases hline : line ∈ c <;> simp [hline]

/-- Both analyses end, and along a chain of nodes that is entered with an empty cache they hold
exactly the lines of the replayed cache at their places there. So an access is said to hit if it
hits and to miss if it misses. -/
theorem Solution.exact_on_chain (s : Summary) (cold : s.coldStart = true)
    (linked : s.Linked (.whole s)) :
    (∃ must may, s.Ends must may) ∧
    ∀ must may, s.Ends must may → ∀ (n : Nat) (past lines : List Line), s.Chain n past →
      List.Forall₂ Event.TouchesOnly (s.eventsOf n) lines →
      ∀ (i : Nat) (line : Line), lines[i]? = some line →
      let cache := (LruCache.empty s.geometry).touchAll (past ++ lines.take i)
      (∃ a : MustCache, (must.beforeEvents s n)[i]? = some (.reached a) ∧
        ∀ x, a.lines.get? x = if x ∈ cache then some (cache.age x) else none) ∧
      (∃ b : MayCache, (may.beforeEvents s n)[i]? = some (.reached b) ∧ b.saturated = false ∧
        ∀ x, b.lines.get? x = if x ∈ cache then some (cache.age x) else none) ∧
      s.classAt? must may n i = some (if line ∈ cache then .alwaysHit else .alwaysMiss) := by
  refine ⟨s.exists_ends, ?_⟩
  intro must may ends n past lines chain hlines i line hline cache
  obtain ⟨a, ha, hmust⟩ := (MustCache.tracks_mirrors s.geometry).stateAt cold
    (ends.settledMust linked) chain hlines i
  obtain ⟨b, hb, hsat, hmay⟩ := (MayCache.tracks_mirrors s.geometry).stateAt cold
    (ends.settledMay linked) chain hlines i
  obtain ⟨e, hevent, access, rfl, _, hadmits⟩ : ∃ e, (s.eventsOf n)[i]? = some e ∧
      e.TouchesOnly line :=
    exists_getElem?_of_forall₂ hlines.flip hline
  refine ⟨⟨a, ?_, hmust⟩, ⟨b, ?_, hsat, hmay⟩, ?_⟩
  · rw [getElem?_beforeEvents hevent, ha]
  · rw [getElem?_beforeEvents hevent, hb]
  · rw [Summary.classAt?_eq hevent, ha, hb, Access.classify_of_mirrors hadmits hmust hsat hmay]

/-- A chain of the nodes 2, 0 and 1, in one set of two ways: line 0 is used again, so that line 4
takes the place of line 2. -/
def Summary.reusingChain : Summary where
  geometry := .twoWays
  predecessors := [[2], [0], []]
  successors := [[1], [], [0]]
  entries := [2]
  events := [[.access ⟨⟨0, 8, .data⟩, .lines [0], .always, none⟩,
      .access ⟨⟨0, 12, .data⟩, .lines [4, 4], .always, none⟩],
    [.access ⟨⟨1, 16, .data⟩, .lines [2], .always, none⟩,
      .access ⟨⟨1, 20, .data⟩, .lines [4], .always, none⟩],
    [.access ⟨⟨2, 0, .data⟩, .lines [0], .always, none⟩,
      .access ⟨⟨2, 4, .data⟩, .lines [2], .always, none⟩]]
  coldStart := true

/-- At the end of the chain line 2 is known to miss and line 4 to hit. -/
theorem Solution.exact_on_chain_reusingChain :
    Summary.reusingChain.Linked (.whole .reusingChain) ∧
      Summary.reusingChain.Chain 1 [0, 2, 0, 4] ∧
      ∃ must may, Summary.reusingChain.Ends must may ∧
        Summary.reusingChain.classAt? must may 1 0 = some .alwaysMiss ∧
        Summary.reusingChain.classAt? must may 1 1 = some .alwaysHit := by
  have linked : Summary.reusingChain.Linked (.whole .reusingChain) := by
    unfold Summary.Linked
    decide
  have only {site : Site} {line : Line} {lines : List Line} (h : ∀ x, x ∈ lines ↔ x = line) :
      (Event.access ⟨site, .lines lines, .always, none⟩).TouchesOnly line := ⟨_, rfl, rfl, h⟩
  have start : Summary.reusingChain.Chain 2 [] := .entry (by decide) (by decide) rfl
  have middle : Summary.reusingChain.Chain 0 [0, 2] :=
    .edge start (.cons (only (by simp)) (.cons (only (by simp)) .nil)) (by decide) (by decide) rfl
  have last : Summary.reusingChain.Chain 1 [0, 2, 0, 4] :=
    .edge middle (.cons (only (by simp)) (.cons (only (by simp)) .nil)) (by decide) (by decide) rfl
  have hlines : List.Forall₂ Event.TouchesOnly (Summary.reusingChain.eventsOf 1) [2, 4] :=
    .cons (only (by simp)) (.cons (only (by simp)) .nil)
  obtain ⟨⟨must, may, ends⟩, replayed⟩ := exact_on_chain .reusingChain rfl linked
  obtain ⟨_, _, hmiss⟩ := replayed must may ends 1 _ _ last hlines 0 2 rfl
  obtain ⟨_, _, hhit⟩ := replayed must may ends 1 _ _ last hlines 1 4 rfl
  refine ⟨linked, last, must, may, ends, hmiss.trans ?_, hhit.trans ?_⟩
  · decide
  · decide

end CacheVerdict
