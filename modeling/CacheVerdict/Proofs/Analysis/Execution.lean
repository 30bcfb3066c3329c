import CacheVerdict.Proofs.Analysis.Findings
import CacheVerdict.Proofs.StackHeight.Sound

/-!
# Executions through all levels

A procedure runs on one cache for each configured level. An access picks an address and goes down
the caches that serve its kind, nearest first, to the first that holds the line; every cache on the
way is touched. A call does to the cache of each level what the level's summary allows. The
actions of a node do not hang on the level; a level sees those that may reach it as its events
(`nodeEvents_eq`).
-/

namespace CacheVerdict

/-! ### Actions of nodes -/

/-- An access of an instruction. It goes to one of the references. -/
structure Request where
  site : Site
  references : List Reference
deriving DecidableEq

namespace Request

variable {shift : Nat} {g : Geometry} {r : Request}

/-- The addresses that the access may go to: any at all, where data is not known. -/
def Picks (shift : Nat) (r : Request) (a : Address) : Prop :=
  ∃ reference ∈ r.references,
    a = reference.byte shift ∨ r.site.kind = .data ∧ reference.isUnknown = true

/-- The lines of a cache that the access may go to. -/
def targetAt (shift : Nat) (g : Geometry) (r : Request) : Target :=
  if r.site.kind = .data ∧ r.references.any Reference.isUnknown = true then .unknown
  else .lines (OrderedSet.ofList (r.references.map (·.lineAt shift g))).toList

/-- The target of a request admits the line of every address that it picks. -/
lemma admits_targetAt {a : Address} (h : r.Picks shift a) :
    (r.targetAt shift g).Admits (g.lineOf a) := by
  obtain ⟨reference, hmem, h⟩ := h
  unfold targetAt
  split
  · trivial
  · rename_i hknown
    rcases h with rfl | ⟨hkind, hunknown⟩
    · exact OrderedSet.mem_ofList.2 (List.mem_map.2 ⟨reference, hmem, rfl⟩)
    · exact absurd ⟨hkind, List.any_eq_true.2 ⟨reference, hmem, hunknown⟩⟩ hknown

end Request

/-- Something that a node does. -/
inductive NodeAction where
  | access (request : Request)
  | call (callee : String)
deriving DecidableEq

/-- The accesses of an instruction: its fetch, then its data. -/
def NodeReferences.requests (n : Nat) (found : NodeReferences) (i : Instruction) : List Request :=
  ((found.fetches.get? i.address).map fun r => ⟨⟨n, i.address, .fetch⟩, [r]⟩).toList ++
    ((found.data.get? i.address).map fun rs => ⟨⟨n, i.address, .data⟩, rs.toList⟩).toList

/-- The requests of an instruction are its fetch and, if it has one, its data access. -/
lemma NodeReferences.mem_requests {n : Nat} {found : NodeReferences} {i : Instruction} {r : Request} :
    r ∈ found.requests n i ↔
      (∃ reference, found.fetches.get? i.address = some reference ∧
        r = ⟨⟨n, i.address, .fetch⟩, [reference]⟩) ∨
      ∃ references, found.data.get? i.address = some references ∧
        r = ⟨⟨n, i.address, .data⟩, references.toList⟩ := by
  simp only [requests, List.mem_append, Option.mem_toList, Option.map_eq_some_iff, @eq_comm _ _ r]

namespace Study

variable {s : Study} {f : Findings} {p n : Nat} {cache : Level × Geometry}

/-- What a node does, in order. -/
def actions (s : Study) (p n : Nat) : List NodeAction :=
  match (s.procedure p).nodes[n]? with
  | none => []
  | some node =>
    match node.callee? with
    | some callee => [.call callee]
    | none =>
      match (s.referencesOf p).node? n with
      | none => []
      | some found => (node.code.flatMap (found.requests n)).map .access

/-- The event that a level sees of an action, if any. -/
def eventAt? (s : Study) (f : Findings) (p : Nat) (cache : Level × Geometry) (n : Nat) :
    NodeAction → Option Event
  | .access r =>
    if cache.1.serves r.site.kind then
      s.accessEvent? f p cache.1 r.site (r.targetAt s.hierarchy.finestShift cache.2)
    else none
  | .call callee => some (.call (.ofEffect cache.2 s.settings.stackBase
      ((s.calleeEffect f p callee cache.1).calledAt ((s.referencesOf p).heights.atEntry n))))

/-- A request becomes an event of a level that serves its kind. -/
lemma eventAt?_request {r : Request} :
    s.eventAt? f p cache n (.access r) = if cache.1.serves r.site.kind then
      s.accessEvent? f p cache.1 r.site (r.targetAt s.hierarchy.finestShift cache.2) else none :=
  rfl

/-- The accesses of an instruction that a level serves are those of its requests. -/
lemma accessesOf_eq (shift : Nat) (level : Level) (g : Geometry) (n : Nat) (found : NodeReferences)
    (i : Instruction) :
    accessesOf shift level g n found i =
      (found.requests n i).filterMap fun r =>
        if level.serves r.site.kind then some (r.site, r.targetAt shift g) else none := by
  unfold accessesOf NodeReferences.requests
  rw [List.filterMap_append]
  refine congrArg₂ _ ?_ ?_
  · cases found.fetches.get? i.address with
    | none => simp
    | some r =>
      have hone : (OrderedSet.ofList [r.lineAt shift g]).toList = [r.lineAt shift g] := rfl
      cases hserves : level.serves .fetch <;> simp [Request.targetAt, hserves, hone]
  · cases found.data.get? i.address with
    | none => simp
    | some rs => cases hserves : level.serves .data <;> simp [Request.targetAt, targetOf, hserves]

/-- The events of a node at a level are its actions as the level sees them. -/
lemma nodeEvents_eq (s : Study) (f : Findings) (p : Nat) (cache : Level × Geometry) (n : Nat) :
    s.nodeEvents f p cache.1 cache.2 n = (s.actions p n).filterMap (s.eventAt? f p cache n) := by
  unfold nodeEvents actions
  simp only
  cases (s.procedure p).nodes[n]? with
  | none => rfl
  | some node =>
    cases hcallee : node.callee? with
    | some callee => simp only [hcallee]; rfl
    | none =>
      simp only [hcallee]
      cases (s.referencesOf p).node? n with
      | none => rfl
      | some found =>
        simp only [List.filterMap_flatMap, List.filterMap_map, accessesOf_eq]
        congr 1
        funext i
        rw [List.filterMap_filterMap]
        congr 1
        funext r
        simp only [Function.comp, eventAt?]
        split <;> rfl

/-! ### Sites -/

/-- An action that is an access of the node, from one of its instructions. -/
lemma mem_actions {r : Request} (h : .access r ∈ s.actions p n) :
    ∃ node found, (s.procedure p).nodes[n]? = some node ∧
      (s.referencesOf p).node? n = some found ∧
      s.actions p n = (node.code.flatMap (NodeReferences.requests n found)).map .access := by
  unfold actions at h ⊢
  cases hnode : (s.procedure p).nodes[n]? with
  | none =>
    rw [hnode] at h
    cases h
  | some node =>
    rw [hnode] at h
    simp only at h ⊢
    cases hcallee : node.callee? with
    | some callee =>
      rw [hcallee] at h
      cases List.mem_singleton.1 h
    | none =>
      rw [hcallee] at h
      simp only at h ⊢
      cases hfound : (s.referencesOf p).node? n with
      | none =>
        rw [hfound] at h
        cases h
      | some found => exact ⟨node, found, rfl, rfl, rfl⟩

/-- No instruction of a node shares its address with another one. -/
def DistinctAddresses (s : Study) (p : Nat) : Prop :=
  ∀ node ∈ (s.procedure p).nodes, (node.code.map Instruction.address).Nodup

/-- Where the accesses of an instruction come from. -/
lemma site_of_mem_requests {found : NodeReferences} {i : Instruction} {r : Request}
    (h : r ∈ found.requests n i) : r.site.node = n ∧ r.site.instruction = i.address := by
  rcases NodeReferences.mem_requests.1 h with ⟨_, _, rfl⟩ | ⟨_, _, rfl⟩ <;> exact ⟨rfl, rfl⟩

/-- The requests of a node are made there. -/
lemma site_of_mem_actions {r : Request} (h : .access r ∈ s.actions p n) : r.site.node = n := by
  obtain ⟨node, found, _, _, hactions⟩ := mem_actions h
  rw [hactions] at h
  obtain ⟨_, hr, heq⟩ := List.mem_map.1 h
  cases heq
  obtain ⟨i, _, hr⟩ := List.mem_flatMap.1 hr
  exact (site_of_mem_requests hr).1

/-- Where addresses are distinct, no two accesses of a node come from the same site. -/
lemma nodup_sites {found : NodeReferences} {code : List Instruction}
    (distinct : (code.map Instruction.address).Nodup) :
    ((code.flatMap (found.requests n)).map Request.site).Nodup := by
  rw [List.map_flatMap]
  refine List.nodup_flatMap.2 ⟨?_, ?_⟩
  · intro i _
    unfold NodeReferences.requests
    cases found.fetches.get? i.address <;> cases found.data.get? i.address <;> simp
  · refine (List.pairwise_map.1 distinct).imp ?_
    intro i j hne site hi hj
    obtain ⟨r, hr, rfl⟩ := List.mem_map.1 hi
    obtain ⟨r', hr', heq⟩ := List.mem_map.1 hj
    apply hne
    rw [← (site_of_mem_requests hr).2, ← heq, (site_of_mem_requests hr').2]

/-- The same for the actions of a node. -/
lemma pairwise_actions (distinct : s.DistinctAddresses p) (n : Nat) :
    (s.actions p n).Pairwise fun x y => ∀ r r', x = .access r → y = .access r' →
      r.site ≠ r'.site := by
  -- a node that makes no access has nothing to compare
  rcases Classical.em (∃ r, .access r ∈ s.actions p n) with ⟨r, hr⟩ | h
  · obtain ⟨node, found, hnode, _, hactions⟩ := mem_actions hr
    rw [hactions]
    refine List.pairwise_map.2 ?_
    refine (List.pairwise_map.1 (nodup_sites (distinct node (List.mem_of_getElem? hnode)))).imp ?_
    intro a b hne r r' hr hr'
    cases hr
    cases hr'
    exact hne
  · rw [List.pairwise_iff_forall_sublist]
    intro x y hsub r r' hr
    exact absurd ⟨r, hsub.subset (hr ▸ List.mem_cons_self)⟩ h

/-! ### Summaries -/

/-- The events of a node in the summary are its actions as the level sees them. -/
lemma eventsOf_summary (s : Study) (f : Findings) (p : Nat) (cache : Level × Geometry)
    (coldStart : Bool) (n : Nat) :
    (s.summary f p cache.1 cache.2 coldStart).eventsOf n =
      (s.actions p n).filterMap (s.eventAt? f p cache n) := by
  rw [← nodeEvents_eq]
  unfold Summary.eventsOf summary Procedure.nodeIds
  rcases Nat.lt_or_ge n (s.procedure p).nodes.length with hn | hn
  · simp [hn]
  · simp [hn, nodeEvents]

/-- A summary has the events of every node. -/
lemma length_events_summary {coldStart : Bool} :
    (s.summary f p cache.1 cache.2 coldStart).events.length = (s.procedure p).nodes.length := by
  simp [summary, Procedure.nodeIds]

/-- A summary has the successors of the procedure. -/
lemma successorsOf_summary {coldStart : Bool} (hn : n < (s.procedure p).nodes.length) :
    (s.summary f p cache.1 cache.2 coldStart).successorsOf n = (s.procedure p).successors n := by
  simp [Summary.successorsOf, summary, Procedure.nodeIds, hn]

/-- A summary has the predecessors of the procedure. -/
lemma predecessorsOf_summary {coldStart : Bool} (hn : n < (s.procedure p).nodes.length) :
    (s.summary f p cache.1 cache.2 coldStart).predecessorsOf n =
      (s.procedure p).predecessors n := by
  simp [Summary.predecessorsOf, summary, Procedure.nodeIds, hn]

end Study

/-- A summary lists its edges alike from both ends. -/
lemma Study.transposed_summary (s : Study) (f : Findings) (p : Nat) (cache : Level × Geometry)
    (coldStart : Bool) : (s.summary f p cache.1 cache.2 coldStart).Transposed := by
  intro m hm n hn
  rw [length_events_summary] at hm hn
  rw [successorsOf_summary hm, predecessorsOf_summary hn]
  exact Procedure.mem_successors_iff

/-! ### Caches -/

/-- A cache for each level and geometry. -/
def Caches : Type := ∀ cache : Level × Geometry, LruCache cache.2

namespace Caches

variable {caches : Caches} {a : Address} {chain : List (Level × Geometry)}

/-- The caches of a chain that an access gets to: those down to the first that holds the line. -/
def reached (caches : Caches) (a : Address) : List (Level × Geometry) → List (Level × Geometry)
  | [] => []
  | cache :: rest =>
    cache :: if cache.2.lineOf a ∈ caches cache then [] else reached caches a rest

/-- The caches after an access that goes down a chain. -/
def access (caches : Caches) (a : Address) (chain : List (Level × Geometry)) : Caches :=
  fun cache =>
    if cache ∈ caches.reached a chain then (caches cache).touch (cache.2.lineOf a)
    else caches cache

/-- The lines that an access down a chain touches at each cache. -/
def along (caches : Caches) (a : Address) (chain : List (Level × Geometry))
    (cache : Level × Geometry) : List Line :=
  if cache ∈ caches.reached a chain then [cache.2.lineOf a] else []

/-- The caches after accesses made by a callee. -/
def touchAll (caches : Caches) (lines : Level × Geometry → List Line) : Caches :=
  fun cache => (caches cache).touchAll (lines cache)

/-- An access reaches only caches of the chain. -/
lemma mem_of_mem_reached {cache : Level × Geometry} (h : cache ∈ caches.reached a chain) :
    cache ∈ chain := by
  induction chain with
  | nil => exact h
  | cons first rest ih =>
    rcases List.mem_cons.1 h with rfl | h
    · exact List.mem_cons_self
    · split at h
      · cases h
      · exact List.mem_cons_of_mem _ (ih h)

/-- An access gets to a cache if it misses all those in front. -/
lemma mem_reached_iff {front behind : List (Level × Geometry)} {cache : Level × Geometry}
    (hcache : cache ∉ front) :
    cache ∈ caches.reached a (front ++ cache :: behind) ↔
      ∀ c ∈ front, c.2.lineOf a ∉ caches c := by
  induction front with
  | nil => simp [reached]
  | cons first front ih =>
    rw [List.mem_cons, not_or] at hcache
    rw [List.cons_append, reached, List.mem_cons, List.forall_mem_cons]
    split
    · rename_i hhit
      simp [hcache.1, hhit]
    · rename_i hmiss
      rw [ih hcache.2]
      simp [hcache.1, hmiss]

/-- A cache outside the chain is left alone. -/
lemma touchAll_along_of_not_mem {cache : Level × Geometry} (h : cache ∉ chain) :
    caches.touchAll (caches.along a chain) cache = caches cache := by
  unfold touchAll along
  rw [if_neg fun hreached => h (mem_of_mem_reached hreached), LruCache.touchAll_nil]

/-- An access gets to the nearest cache. -/
lemma touchAll_along_head {cache : Level × Geometry} :
    caches.touchAll (caches.along a (cache :: chain)) cache =
      (caches cache).touch (cache.2.lineOf a) := by
  have hreached : cache ∈ caches.reached a (cache :: chain) := List.mem_cons_self
  unfold touchAll along
  rw [if_pos hreached]
  rfl

end Caches

/-- Where an execution stands: the node, how many of its actions lie behind, and the caches. -/
structure Stage where
  node : Nat
  index : Nat
  caches : Caches

/-- What comes next is an access to an address. -/
structure Stage.Accesses (s : Study) (p : Nat) (st : Stage) (r : Request) (a : Address) : Prop where
  action : (s.actions p st.node)[st.index]? = some (.access r)
  picks : r.Picks s.hierarchy.finestShift a

/-- The stages of the executions of a procedure. What a call does at a level is given by the
summary that was found for the level. -/
inductive Execution (s : Study) (f : Findings) (p : Nat) : Stage → Prop where
  | enter {n : Nat} {caches : Caches} :
    n ∈ (s.procedure p).entries → n < (s.procedure p).nodes.length →
    (s.startsCold p = true → ∀ cache, caches cache = LruCache.empty cache.2) →
    Execution s f p ⟨n, 0, caches⟩
  | access {st : Stage} {r : Request} {a : Address} :
    Execution s f p st → st.Accesses s p r a →
    Execution s f p
      ⟨st.node, st.index + 1, st.caches.access a (s.hierarchy.chain r.site.kind)⟩
  | call {st : Stage} {callee : String} {lines : Level × Geometry → List Line} :
    Execution s f p st → (s.actions p st.node)[st.index]? = some (.call callee) →
    (∀ cache ∈ s.hierarchy.caches.entries, ∃ summary c,
      f.summaries.get? ⟨p, cache.1⟩ = some summary ∧ summary.eventsOf st.node = [.call c] ∧
      ∀ line ∈ lines cache, c.effect.unknown = true ∨ line ∈ c.lines) →
    Execution s f p ⟨st.node, st.index + 1, st.caches.touchAll lines⟩
  | edge {st : Stage} {n : Nat} :
    Execution s f p st → st.index = (s.actions p st.node).length →
    n ∈ (s.procedure p).successors st.node → n < (s.procedure p).nodes.length →
    Execution s f p ⟨n, 0, st.caches⟩

end CacheVerdict
