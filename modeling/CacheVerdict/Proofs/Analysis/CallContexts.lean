import CacheVerdict.Proofs.Analysis.Placement
import CacheVerdict.Proofs.Analysis.Refinement

/-!
# Verdicts in every calling context

A procedure is analysed once, as if it were entered with the stack pointer at the base, and runs
wherever it is called. Along a run of a program, every activation follows the analysis of its
procedure under names of its own for the lines: the running one in the caches as they stand, one
that waits for a callee in the caches as they stood at the call, and what has been touched since is
covered by the callee. When the callee returns, the call has done what its event allows. Main
statements: verdicts hold in every context that places the frames as they are analysed
(`verdicts_sound_across_calls`), and need not hold in others (`alwaysHit_unsound_shiftedFrame`).
-/

namespace CacheVerdict

/-- What is called is no root. -/
lemma Program.Calls.not_mem_roots {p : Program} {i c : Nat} (h : p.Calls i c) : c ∉ p.roots := by
  intro hroot
  have huncalled := (List.mem_filter.1 hroot).2
  unfold Calls calleesOf at h
  split at h
  · rename_i q hq
    have hcalled : c ∈ p.called :=
      OrderedSet.mem_ofList.2 (List.mem_flatMap.2 ⟨q, List.mem_of_getElem? hq,
        OrderedSet.mem_ofList.1 h⟩)
    rw [show p.called.contains c = true from decide_eq_true hcalled] at huncalled
    cases huncalled
  · exact absurd h (OrderedSet.not_mem_empty c)

/-- The nodes on paths through a procedure are nodes of it. -/
lemma Procedure.Arrives.lt {q : Procedure} {base sp : Address} {n : Nat}
    (edges : ∀ e ∈ q.edges, q.hasEnds e = true) (h : q.Arrives base n sp) : n < q.nodes.length := by
  cases h with
  | enter hn => exact q.entry_lt edges hn
  | edge _ hn => exact q.target_lt edges hn

namespace Caches

variable {names : Names} {caches : Caches} {lines new : Level × Geometry → List Line}

/-- Renaming after touching lines is touching the renamed lines. -/
lemma relabel_touchAll :
    (caches.touchAll lines).relabel names =
      (caches.relabel names).touchAll fun cache => (lines cache).map (names cache) :=
  funext fun _ => LruCache.relabel_touchAll

/-- An access, under the other names. -/
lemma relabel_along {a : Address} {chain : List (Level × Geometry)} {cache : Level × Geometry} :
    (caches.touchAll (caches.along a chain)).relabel names cache =
      if cache ∈ caches.reached a chain then
        (caches.relabel names cache).touch (names cache (cache.2.lineOf a))
      else caches.relabel names cache := by
  unfold relabel touchAll along
  split
  · exact LruCache.relabel_touch
  · rfl

/-- Touching lines and then others is touching all of them in order. -/
lemma touchAll_touchAll :
    (caches.touchAll lines).touchAll new = caches.touchAll fun cache => lines cache ++ new cache :=
  funext fun _ => (List.foldl_append ..).symm

end Caches

/-! ### Analysed programs -/

/-- The analysis of a program without recursion and without calls to procedures outside it, none of
whose calls overflows its counter, has come to an end. -/
structure Study.Whole (s : Study) (f : Findings) : Prop extends s.Completed f where
  acyclic : ∀ e, e ∉ s.callOrder.recursive
  closed : ∀ {p n i : Nat} {callee : String}, (s.actions p n)[i]? = some (.call callee) →
    s.program.procedureNamed? callee ≠ none
  fits : ∀ key summary, f.summaries.get? key = some summary → summary.CallsFit

namespace Study

variable {s : Study} {f : Findings} {p n : Nat} {cache : Level × Geometry}

/-- The analyses of a whole study apply to each of its procedures. -/
lemma Whole.exists_applicable (whole : s.Whole f) (hp : p < s.program.procedures.length) :
    ∃ A : s.Analyses p f, A.Applicable := by
  obtain ⟨fuel, hclassify⟩ := whole.classified
  have hnodup : s.callOrder.order.Nodup :=
    whole.prepared.callOrder ▸ s.program.nodup_callOrder
  have hmem : p ∈ s.callOrder.order := whole.prepared.callOrder ▸ Program.mem_callOrder hp
  obtain ⟨A⟩ := nonempty_analyses fun _ => analysed_of_classify hnodup hclassify hmem
  exact ⟨A, fun _ => (whole.distinct p hp).node,
    fun cache hcache => whole.fits _ _ (A.analysed cache hcache).summary⟩

/-- The event of a call has the effect that the footprint of the callee gives it. -/
lemma Analyses.calledAt_eq (A : s.Analyses p f) (completed : s.Completed f)
    (hp : p < s.program.procedures.length) (hcache : cache ∈ s.hierarchy.caches.entries) {i : Nat}
    {callee : String} (haction : (s.actions p n)[i]? = some (.call callee)) :
    (s.calleeEffect (A.before cache) p callee cache.1).calledAt
        ((s.referencesOf p).heights.atEntry n) =
      (s.calleeEffect f p callee cache.1).calledAt ((s.referencesOf p).heights.atEntry n) := by
  -- the findings that the kept summary was made from give the same event
  obtain ⟨before, kept, hsummary⟩ := A.exists_kept completed hp hcache
  have hevents := congrArg (·.eventsOf n) hsummary
  simp only [Study.eventsOf_summary, Analyses.eventsOf_summary, (actions_of_call haction).1,
    List.filterMap_cons, List.filterMap_nil, eventAt?] at hevents
  have hcall := congrArg Call.effect (Event.call.inj (List.cons.inj hevents).1)
  rw [← kept.effect haction]
  exact hcall.symm

end Study

/-! ### Activations -/

/-- Under some names for the lines, every level follows the activation in the caches. -/
structure Frame.Follows (s : Study) (f : Findings) (caches : Caches) (fr : Frame) : Prop where
  lt : fr.procedure < s.program.procedures.length
  arrives : (s.procedure fr.procedure).Arrives fr.base fr.node fr.sp
  follows : ∃ names, fr.Named s f names ∧ ∃ A : s.Analyses fr.procedure f, A.Applicable ∧
    ∀ cache ∈ s.hierarchy.caches.entries,
      A.Follows ⟨fr.node, fr.index, caches.relabel names⟩ cache

namespace Frame.Follows

variable {s : Study} {f : Findings} {fr : Frame} {caches : Caches} {r : Request} {a : Address}

/-- A procedure that has just been entered, at a place like the one that is analysed. -/
lemma enter (whole : s.Whole f) {p n : Nat} {base : Address}
    (hp : p < s.program.procedures.length) (hn : n ∈ (s.procedure p).entries)
    (placed : Frame.Placed s f ⟨p, n, 0, base, base⟩)
    (hcold : s.startsCold p = true → ∀ cache, caches cache = LruCache.empty cache.2) :
    Frame.Follows s f caches ⟨p, n, 0, base, base⟩ := by
  obtain ⟨names, named⟩ := placed.exists_named
  obtain ⟨A, applicable⟩ := whole.exists_applicable hp
  refine ⟨hp, .enter hn, names, named, A, applicable, ?_⟩
  intro cache _
  refine Study.Analyses.follows_enter hn (Procedure.entry_lt (whole.edges p hp) hn) fun h => ?_
  show (caches cache).relabel (names cache) = LruCache.empty cache.2
  rw [hcold h cache, LruCache.relabel_empty]

/-- Along an edge of the procedure. -/
lemma edge (whole : s.Whole f) (follows : fr.Follows s f caches) {n : Nat} {sp : Address}
    (hend : fr.index = (s.actions fr.procedure fr.node).length)
    (hn : n ∈ (s.procedure fr.procedure).successors fr.node)
    (moves : MovesAll ((s.procedure fr.procedure).codeOf fr.node) fr.sp sp) :
    Frame.Follows s f caches { fr with node := n, index := 0, sp } := by
  obtain ⟨names, named, A, applicable, hfollows⟩ := follows.follows
  have edges := whole.edges _ follows.lt
  refine ⟨follows.lt, follows.arrives.edge hn moves, names, ⟨named.lines, named.frame⟩, A,
    applicable, ?_⟩
  intro cache hcache
  exact (hfollows cache hcache).edge (follows.arrives.lt edges) hend hn
    (Procedure.target_lt edges hn)

/-- What an access does: the levels go on following, what it touches is covered, and its verdicts
hold. -/
lemma access (whole : s.Whole f) (follows : fr.Follows s f caches)
    (haction : (s.actions fr.procedure fr.node)[fr.index]? = some (.access r))
    (touches : s.Touches fr.procedure fr.base r a) :
    Frame.Follows s f (caches.touchAll (caches.along a (s.hierarchy.chain r.site.kind)))
      { fr with index := fr.index + 1 } ∧
    (∀ cache ∈ s.hierarchy.caches.entries,
      ∀ line ∈ caches.along a (s.hierarchy.chain r.site.kind) cache,
        f.Covered cache fr.procedure fr.base line) ∧
    ∀ cache ∈ s.hierarchy.chain r.site.kind, ∀ v,
      f.verdicts.get? ⟨fr.procedure, r.site, cache.1⟩ = some v →
      (v.classification = .alwaysHit → cache.2.lineOf a ∈ caches cache) ∧
      (v.classification = .alwaysMiss → cache.2.lineOf a ∉ caches cache) := by
  obtain ⟨names, named, A, applicable, hfollows⟩ := follows.follows
  have requests : Stage.Requests s f fr.procedure ⟨fr.node, fr.index, caches.relabel names⟩ r _ :=
    named.requests whole.toCompleted A follows.lt haction touches
  have hsame (c : Level × Geometry) :
      c.2.lineOf a ∈ caches c ↔ names c (c.2.lineOf a) ∈ caches.relabel names c :=
    LruCache.mem_relabel.symm
  have reached {cache : Level × Geometry} (hcache : cache ∈ s.hierarchy.chain r.site.kind) :=
    applicable.reached_requests hfollows requests (fun c _ => hsame c) hcache
  refine ⟨⟨follows.lt, follows.arrives, names, ⟨named.lines, named.frame⟩, A, applicable, ?_⟩,
    ?_, ?_⟩
  · intro cache hcache
    exact (hfollows cache hcache).access hcache requests Caches.mem_of_mem_reached reached
      Caches.relabel_along
  · intro cache hcache line hline
    unfold Caches.along at hline
    split at hline
    · rename_i hreached
      cases List.mem_singleton.1 hline
      have hchain := Caches.mem_of_mem_reached hreached
      refine ⟨_, A.footprint_eq whole.toCompleted follows.lt hcache, ?_⟩
      refine Study.covers_access whole.prepared follows.lt (whole.distinct _ follows.lt) haction
        touches (List.mem_filter.1 hchain).2 ?_
      rw [(A.analysed cache hcache).reach]
      exact fun hnever => (reached hchain).1 hnever hreached
    · cases hline
  · intro cache hchain v hverdict
    have hcache := hfollows cache (List.mem_filter.1 hchain).1
    refine ⟨fun hhit => ?_, fun hmiss => ?_⟩
    · exact (hsame cache).2
        (hcache.mem_of_alwaysHit applicable hchain requests hverdict hhit)
    · exact fun hmem => hcache.not_mem_of_alwaysMiss applicable hchain requests hverdict hmiss
        ((hsame cache).1 hmem)

/-- When a callee has come back, the levels have taken the call. -/
lemma called (whole : s.Whole f) (follows : fr.Follows s f caches) {callee : String} {c : Nat}
    (haction : (s.actions fr.procedure fr.node)[fr.index]? = some (.call callee))
    (hc : s.program.procedureNamed? callee = some c) {lines : Level × Geometry → List Line}
    (covered : ∀ cache ∈ s.hierarchy.caches.entries, ∀ line ∈ lines cache,
      f.Covered cache c fr.sp line) :
    Frame.Follows s f (caches.touchAll lines) { fr with index := fr.index + 1 } := by
  obtain ⟨names, named, A, applicable, hfollows⟩ := follows.follows
  refine ⟨follows.lt, follows.arrives, names, ⟨named.lines, named.frame⟩, A, applicable, ?_⟩
  intro cache hcache
  have hfootprint := A.footprint_eq whole.toCompleted follows.lt hcache
  have hevent : s.eventAt? (A.before cache) fr.procedure cache fr.node (.call callee) =
    some (.call _) := rfl
  obtain ⟨_, within⟩ :=
    Summary.exists_within_footprint (Study.mem_eventsOf_summary haction hevent)
  refine (hfollows cache hcache).event haction hevent (.call ?_)
    (congrFun Caches.relabel_touchAll cache)
  intro renamed hrenamed
  obtain ⟨line, hline, rfl⟩ := List.mem_map.1 hrenamed
  obtain ⟨e, he, covers⟩ := covered cache hcache line hline
  refine named.mem_lines hcache hfootprint ((Effect.within_union_right _ _).trans within) ?_
  rw [A.calledAt_eq whole.toCompleted follows.lt hcache haction, Study.calleeEffect_eq hc he,
    if_neg (whole.acyclic _)]
  apply covers.calledAt
  rw [whole.prepared.heights follows.lt]
  exact follows.arrives.describes (whole.edges _ follows.lt)

end Frame.Follows

/-! ### Runs -/

/-- The activations below one of the procedure `c` that was entered with the stack pointer `sp`, the
nearest first. Each of them waits for the one above: what has been touched since the call is covered
by the callee. -/
inductive Waiting (s : Study) (f : Findings) (caches : Caches) :
    Nat → Address → List Frame → Prop where
  | nil {c : Nat} {sp : Address} : Waiting s f caches c sp []
  | cons {c : Nat} {sp : Address} {fr : Frame} {rest : List Frame} {callee : String}
      {before : Caches} {lines : Level × Geometry → List Line} :
    fr.Follows s f before → caches = before.touchAll lines → fr.sp = sp →
    (s.actions fr.procedure fr.node)[fr.index]? = some (.call callee) →
    s.program.procedureNamed? callee = some c →
    (∀ cache ∈ s.hierarchy.caches.entries, ∀ line ∈ lines cache, f.Covered cache c sp line) →
    Waiting s f caches fr.procedure fr.base rest → Waiting s f caches c sp (fr :: rest)

/-- What the callee touches is covered all the way down. -/
lemma Waiting.touchAll {s : Study} {f : Findings} {caches : Caches} {c : Nat} {sp : Address}
    {rest : List Frame} (whole : s.Whole f) {new : Level × Geometry → List Line}
    (waiting : Waiting s f caches c sp rest)
    (covered : ∀ cache ∈ s.hierarchy.caches.entries, ∀ line ∈ new cache,
      f.Covered cache c sp line) : Waiting s f (caches.touchAll new) c sp rest := by
  induction waiting with
  | nil => exact .nil
  | cons follows hcaches hsp haction hc hcovered _ ih =>
    have hcaches := (congrArg (·.touchAll new) hcaches).trans Caches.touchAll_touchAll
    refine .cons follows hcaches hsp haction hc ?_ (ih ?_)
    · intro cache hcache line hline
      rcases List.mem_append.1 hline with hline | hline
      · exact hcovered cache hcache line hline
      · exact covered cache hcache line hline
    · intro cache hcache line hline
      exact whole.covered_call follows.lt hcache (hsp ▸ follows.arrives) haction hc
        (fun hrecursive => absurd hrecursive (whole.acyclic _)) (covered cache hcache line hline)

/-- The running activation is followed in the caches, and the others wait for it. -/
def Machine.Follows (s : Study) (f : Findings) (m : Machine) : Prop :=
  ∀ fr rest, m.stack = fr :: rest →
    fr.Follows s f m.caches ∧ Waiting s f m.caches fr.procedure fr.base rest

/-- Steps after which every activation is placed like the one that is analysed. -/
def Machine.PlacedSteps (s : Study) (f : Findings) (m m' : Machine) : Prop :=
  m.Steps s m' ∧ ∀ fr ∈ m'.stack, fr.Placed s f

section

variable {s : Study} {f : Findings} {m m' : Machine} {lines : Level × Geometry → List Line}

/-- A machine follows the analyses if its top frame does and the callers below wait for it. -/
lemma Machine.follows_cons {fr : Frame} {rest : List Frame} {caches : Caches}
    (follows : fr.Follows s f caches) (waiting : Waiting s f caches fr.procedure fr.base rest) :
    Machine.Follows s f ⟨fr :: rest, caches⟩ := by
  intro fr' rest' hstack
  cases hstack
  exact ⟨follows, waiting⟩

/-- Every step keeps the activations followed. -/
lemma Step.follows (whole : s.Whole f) (step : Step s m lines m')
    (placed : ∀ fr ∈ m'.stack, fr.Placed s f) (follows : m.Follows s f) : m'.Follows s f := by
  cases step with
  | access haction touches =>
    obtain ⟨running, waiting⟩ := follows _ _ rfl
    obtain ⟨hnext, covered, _⟩ := running.access whole haction touches
    exact Machine.follows_cons hnext (waiting.touchAll whole covered)
  | @call fr rest caches callee c n haction hc hn =>
    obtain ⟨running, waiting⟩ := follows _ _ rfl
    have hcold : s.startsCold c = true → ∀ cache, caches cache = LruCache.empty cache.2 := by
      intro hcold
      have hroot := List.contains_iff_mem.1 (Bool.and_eq_true_iff.1 hcold).2
      rw [whole.prepared.roots] at hroot
      exact absurd hroot (Study.calls_of_action haction hc).not_mem_roots
    have huntouched : caches = caches.touchAll fun _ => [] := rfl
    exact Machine.follows_cons
      (.enter whole (Program.procedureNamed?_lt hc) hn (placed _ List.mem_cons_self) hcold)
      (.cons running huntouched rfl haction hc (fun _ _ _ h => absurd h List.not_mem_nil) waiting)
  | @skip fr rest caches callee c haction hc =>
    obtain ⟨running, waiting⟩ := follows _ _ rfl
    have huntouched : caches = caches.touchAll fun _ => [] := rfl
    refine Machine.follows_cons ?_ waiting
    rw [huntouched]
    exact running.called whole haction hc fun _ _ _ h => absurd h List.not_mem_nil
  | ret =>
    obtain ⟨_, waiting⟩ := follows _ _ rfl
    cases waiting with
    | cons hcaller hcaches hsp haction hc covered waiting =>
      have hnext := hcaller.called whole haction hc (hsp ▸ covered)
      rw [← hcaches] at hnext
      exact Machine.follows_cons hnext waiting
  | outside haction hc => exact absurd hc (whole.closed haction)
  | edge hend hn moves =>
    obtain ⟨running, waiting⟩ := follows _ _ rfl
    exact Machine.follows_cons (running.edge whole hend hn moves) waiting

/-- Along a run from a root, every activation is followed. -/
lemma Machine.Enters.follows_run (whole : s.Whole f) {root : Nat}
    (hroot : root < s.program.procedures.length) (enters : m.Enters s root s.settings.stackBase)
    (hcold : s.settings.coldRoots = true → ∀ cache, m.caches cache = LruCache.empty cache.2)
    (run : Relation.ReflTransGen (Machine.PlacedSteps s f) m m') : m'.Follows s f := by
  induction run with
  | refl =>
    obtain ⟨n, hn, hstack⟩ := enters
    intro fr rest heq
    cases hstack.symm.trans heq
    refine ⟨.enter whole hroot hn (Frame.placed_of_base rfl) ?_, .nil⟩
    exact fun h => hcold (Bool.and_eq_true_iff.1 h).1
  | tail _ step ih =>
    obtain ⟨⟨lines, step⟩, placed⟩ := step
    exact step.follows whole placed ih

end

/-- The classification of a program ends. If the program neither recurs nor calls out of itself, then in
every run from a root that places each activation like the one that is analysed, an access that is
said to hit finds its line there, and one that is said to miss does not. -/
theorem Study.verdicts_sound_across_calls (program : Program) (hierarchy : Hierarchy)
    (settings : Settings) (acyclic : ∀ p, ¬Relation.TransGen program.Calls p p)
    (closed : ∀ q ∈ program.procedures, ∀ callee ∈ q.callees,
      program.procedureNamed? callee ≠ none)
    (distinct : ∀ q ∈ program.procedures, q.DistinctAddresses)
    (edges : ∀ q ∈ program.procedures, ∀ e ∈ q.edges, q.hasEnds e = true) :
    (∃ (bound : Nat) (f : Findings), ∀ fuel ≥ bound,
      (Study.ofProgram program hierarchy settings).classify fuel = some f) ∧
    ∀ (fuel : Nat) (f : Findings),
      (Study.ofProgram program hierarchy settings).classify fuel = some f →
      (∀ key summary, f.summaries.get? key = some summary → summary.CallsFit) →
      ∀ root ∈ program.roots, ∀ start m : Machine,
      start.Enters (.ofProgram program hierarchy settings) root settings.stackBase →
      (settings.coldRoots = true → ∀ cache, start.caches cache = LruCache.empty cache.2) →
      Relation.ReflTransGen
        (Machine.PlacedSteps (.ofProgram program hierarchy settings) f) start m →
      ∀ fr rest, m.stack = fr :: rest → ∀ r a,
      ((Study.ofProgram program hierarchy settings).actions fr.procedure fr.node)[fr.index]? =
        some (.access r) →
      (Study.ofProgram program hierarchy settings).Touches fr.procedure fr.base r a →
      ∀ cache ∈ hierarchy.chain r.site.kind, ∀ v,
        f.verdicts.get? ⟨fr.procedure, r.site, cache.1⟩ = some v →
        (v.classification = .alwaysHit → cache.2.lineOf a ∈ m.caches cache) ∧
        (v.classification = .alwaysMiss → cache.2.lineOf a ∉ m.caches cache) := by
  refine ⟨exists_classify _, ?_⟩
  intro fuel f hclassify fits root hroot start m enters hcold run fr rest hstack r a haction touches
    cache hcache v hverdict
  have completed := completed_ofProgram hclassify distinct edges
  have whole : (Study.ofProgram program hierarchy settings).Whole f := by
    refine ⟨completed, ?_, ?_, fits⟩
    · intro e he
      obtain ⟨hcalls, hback⟩ := Program.cyclic_of_mem_recursive he
      exact acyclic e.caller (Relation.TransGen.head' hcalls hback)
    · intro p n i callee hcall
      obtain ⟨_, q, hq, hcallee⟩ := actions_of_call hcall
      exact closed q (List.mem_of_getElem? hq) callee hcallee
  have hlt : root < program.procedures.length := List.mem_range.1 (List.mem_filter.1 hroot).1
  obtain ⟨running, _⟩ := enters.follows_run whole hlt hcold run fr rest hstack
  obtain ⟨_, _, sound⟩ := running.access whole haction touches
  exact sound cache hcache v hverdict

/-- The callee is about to make its second store. In the cache for data, the line of its first one
has been touched. -/
lemma Machine.shiftedFrame_secondStore {data : Geometry}
    (hdata : data = .oneWay ∨ data = .wideLines) (base : Address) (caches : Caches)
    {P : Frame → Prop} (hmain : ∀ n i sp, P ⟨0, n, i, base, sp⟩)
    (hleaf : ∀ i, P ⟨1, 0, i, base - 48, base - 48⟩) :
    ∃ caches' : Caches, caches' (.l1d, data) =
        (caches (.l1d, data)).touch (data.lineOf (base - 48 + Int64.toUInt64 (-8))) ∧
      Relation.ReflTransGen
        (fun m m' : Machine => m.Steps (.shiftedFrame data) m' ∧ ∀ fr ∈ m'.stack, P fr)
        ⟨[⟨0, 0, 0, base, base⟩], caches⟩
        ⟨[⟨1, 0, 3, base - 48, base - 48⟩, ⟨0, 1, 0, base, base - 48⟩], caches'⟩ := by
  obtain ⟨_, _, hstore⟩ := Study.shiftedFrame_actions hdata
  obtain ⟨called, hcalled, run⟩ := Machine.shiftedFrame_call hdata base caches hmain hleaf
  have hchains : (.l1d, data) ∉ (Hierarchy.split data).chain .fetch ∧
      (Hierarchy.split data).chain .data = [(.l1d, data)] := by
    rcases hdata with rfl | rfl
    · decide
    · decide
  have hleafs (i : Nat) :
      ∀ fr ∈ [⟨1, 0, i, base - 48, base - 48⟩, ⟨0, 1, 0, base, base - 48⟩], P fr :=
    List.forall_mem_cons.2 ⟨hleaf i, List.forall_mem_singleton.2 (hmain 1 0 (base - 48))⟩
  have step := Step.shiftedFrame_store hdata (base - 48) [⟨0, 1, 0, base, base - 48⟩] called
  have hfetch (caches : Caches) : Step (.shiftedFrame data)
      ⟨[⟨1, 0, 2, base - 48, base - 48⟩, ⟨0, 1, 0, base, base - 48⟩], caches⟩ _ _ :=
    .access (congrArg (·[2]?) hstore)
      (.fetch (List.mem_cons_of_mem _ List.mem_cons_self) rfl)
  refine ⟨_, ?_, .tail (.tail run ⟨⟨_, step⟩, hleafs 2⟩) ⟨⟨_, hfetch _⟩, hleafs 3⟩⟩
  refine (Caches.touchAll_along_of_not_mem hchains.1).trans ?_
  rw [hchains.2, Caches.touchAll_along_head, hcalled]

/-- The first procedure calls the second, and that is all. -/
lemma Program.shiftedFrame_acyclic (p : Nat) : ¬Relation.TransGen shiftedFrame.Calls p p := by
  have hcalls {i c : Nat} (h : shiftedFrame.Calls i c) : i = 0 ∧ c = 1 := by
    unfold Calls at h
    match i with
    | 0 =>
      have hcallees : shiftedFrame.calleesOf 0 = .ofList [1] := by decide
      rw [hcallees] at h
      exact ⟨rfl, List.mem_singleton.1 (OrderedSet.mem_ofList.1 h)⟩
    | 1 =>
      have hcallees : shiftedFrame.calleesOf 1 = {} := by decide
      rw [hcallees] at h
      exact absurd h (OrderedSet.not_mem_empty c)
    | i + 2 => exact absurd h (OrderedSet.not_mem_empty c)
  intro h
  obtain ⟨_, _, hlast⟩ := Relation.TransGen.tail'_iff.1 h
  obtain ⟨_, hfirst, _⟩ := Relation.TransGen.head'_iff.1 h
  have hzero := (hcalls hfirst).1
  rw [(hcalls hlast).2] at hzero
  cases hzero

/-- In lines of 256 bytes, the callee's frame lies as it is analysed, and its second store hits. -/
theorem Study.verdicts_sound_across_calls_shiftedFrame :
    ∃ f, (shiftedFrame .wideLines).classify 40 = some f ∧
      f.verdicts.get? ⟨1, ⟨0, 0x1044, .data⟩, .l1d⟩ = some ⟨.always, .alwaysHit, none⟩ ∧
      ∃ start m fr rest, start.Enters (shiftedFrame .wideLines) 0 0x7ffff000 ∧
        (∀ cache, start.caches cache = LruCache.empty cache.2) ∧
        Relation.ReflTransGen (Machine.PlacedSteps (shiftedFrame .wideLines) f) start m ∧
        m.stack = fr :: rest ∧ fr = ⟨1, 0, 3, 0x7ffff000 - 48, 0x7ffff000 - 48⟩ ∧
        Geometry.wideLines.lineOf (0x7ffff000 - 48 - 24) ∈ m.caches (.l1d, .wideLines) := by
  have hfound : (((shiftedFrame .wideLines).classify 40).map fun f =>
      (f.verdicts.get? ⟨1, ⟨0, 0x1044, .data⟩, .l1d⟩,
        decide (∀ e ∈ f.summaries.entries, e.2.CallsFit),
        f.footprints.get? ⟨1, .l1i⟩, f.footprints.get? ⟨1, .l1d⟩)) =
      some (some ⟨.always, .alwaysHit, none⟩, true, some ⟨.ofList [65], {}, false⟩,
        some ⟨{}, .ofList [-24, -8], false⟩) := by
    decide +kernel
  obtain ⟨f, hclassify, hfound⟩ := Option.map_eq_some_iff.1 hfound
  obtain ⟨hverdict, hfound⟩ := Prod.mk.inj hfound
  obtain ⟨hfits, hfound⟩ := Prod.mk.inj hfound
  obtain ⟨hfetches, hdata⟩ := Prod.mk.inj hfound
  have fits (key : LevelKey) (summary : Summary) (hget : f.summaries.get? key = some summary) :
      summary.CallsFit :=
    of_decide_eq_true hfits (key, summary) (OrderedMap.mem_entries.2 hget)
  have alike : Alike .oneWay (Effect.places ⟨.ofList [65], {}, false⟩ .oneWay (0x7ffff000 - 48)
        0x7ffff000) ∧
      Alike .wideLines (Effect.places ⟨{}, .ofList [-24, -8], false⟩ .wideLines (0x7ffff000 - 48)
        0x7ffff000) := by
    decide
  have placed (i : Nat) : Frame.Placed (shiftedFrame .wideLines) f
      ⟨1, 0, i, 0x7ffff000 - 48, 0x7ffff000 - 48⟩ := by
    intro cache hcache e hfootprint
    rcases List.mem_cons.1 hcache with rfl | hcache
    · cases hfetches.symm.trans hfootprint
      exact alike.1
    · cases List.mem_singleton.1 hcache
      cases hdata.symm.trans hfootprint
      exact alike.2
  obtain ⟨caches, _, run⟩ := Machine.shiftedFrame_secondStore (.inr rfl) 0x7ffff000
    (fun cache => .empty cache.2) (fun _ _ _ => Frame.placed_of_base (f := f) rfl) placed
  have enters : Machine.Enters (shiftedFrame .wideLines) 0 0x7ffff000
      ⟨[⟨0, 0, 0, 0x7ffff000, 0x7ffff000⟩], fun cache => .empty cache.2⟩ :=
    ⟨0, by decide, rfl⟩
  have haction : ((shiftedFrame .wideLines).actions 1 0)[3]? =
      some (.access ⟨⟨0, 0x1044, .data⟩, [.line .data 0x1ffffbf]⟩) :=
    congrArg (·[3]?) (shiftedFrame_actions (.inr rfl)).2.2
  have touches : (shiftedFrame .wideLines).Touches 1 _ _ _ :=
    (shiftedFrame_touches (.inr rfl) (0x7ffff000 - 48)).2
  obtain ⟨_, sound⟩ := verdicts_sound_across_calls .shiftedFrame (.split .wideLines) {}
    Program.shiftedFrame_acyclic (by decide) (by decide) (by decide)
  refine ⟨f, hclassify, hverdict, _, _, _, _, enters, fun _ => rfl, run, rfl, rfl, ?_⟩
  exact (sound 40 f hclassify fits 0 (by decide) _ _ enters (fun _ _ => rfl) run _ _ rfl
    _ _ haction touches (.l1d, .wideLines) (by decide) _ hverdict).1 rfl

/-- In lines of 64 bytes, the frame is analysed in one line, but it lies across two when the callee is
called. The second store is said to hit and misses. -/
theorem Study.alwaysHit_unsound_shiftedFrame :
    (∀ p, ¬Relation.TransGen Program.shiftedFrame.Calls p p) ∧
    (∀ q ∈ Program.shiftedFrame.procedures, ∀ callee ∈ q.callees,
      Program.shiftedFrame.procedureNamed? callee ≠ none) ∧
    (∀ q ∈ Program.shiftedFrame.procedures, q.DistinctAddresses) ∧
    0 ∈ Program.shiftedFrame.roots ∧
    ∃ f f', (shiftedFrame .oneWay).classify 40 = some f ∧
      (shiftedFrame .oneWay).settle 40 f = some f' ∧
      ∃ start m fr rest, start.Enters (shiftedFrame .oneWay) 0 0x7ffff000 ∧
        (∀ cache, start.caches cache = LruCache.empty cache.2) ∧
        Relation.ReflTransGen (Machine.Steps (shiftedFrame .oneWay)) start m ∧
        m.stack = fr :: rest ∧ ∃ r a v,
        ((shiftedFrame .oneWay).actions fr.procedure fr.node)[fr.index]? = some (.access r) ∧
        (shiftedFrame .oneWay).Touches fr.procedure fr.base r a ∧
        (Hierarchy.split .oneWay).chain r.site.kind = [(.l1d, .oneWay)] ∧
        f.verdicts.get? ⟨fr.procedure, r.site, .l1d⟩ = some v ∧
        f'.verdicts.get? ⟨fr.procedure, r.site, .l1d⟩ = some v ∧
        v.classification = .alwaysHit ∧
        Geometry.oneWay.lineOf a ∉ m.caches (.l1d, .oneWay) := by
  have hfound : (((shiftedFrame .oneWay).classify 40).bind fun f =>
      ((shiftedFrame .oneWay).settle 40 f).map fun _ =>
        f.verdicts.get? ⟨1, ⟨0, 0x1044, .data⟩, .l1d⟩) =
      some (some ⟨.always, .alwaysHit, none⟩) := by
    decide +kernel
  obtain ⟨f, hclassify, hfound⟩ := Option.bind_eq_some_iff.1 hfound
  obtain ⟨f', hsettle, hverdict⟩ := Option.map_eq_some_iff.1 hfound
  have hdata : Geometry.oneWay = .oneWay ∨ Geometry.oneWay = .wideLines := .inl rfl
  obtain ⟨caches, hcaches, run⟩ := Machine.shiftedFrame_secondStore (P := fun _ => True) hdata
    0x7ffff000 (fun cache => .empty cache.2) (fun _ _ _ => trivial) fun _ => trivial
  have run := run.lift id fun _ _ step => step.1
  have haction : ((shiftedFrame .oneWay).actions 1 0)[3]? =
      some (.access ⟨⟨0, 0x1044, .data⟩, [.line .data 0x1ffffbf]⟩) :=
    congrArg (·[3]?) (shiftedFrame_actions (.inl rfl)).2.2
  have touches : (shiftedFrame .oneWay).Touches 1 _ _ _ :=
    (shiftedFrame_touches (.inl rfl) (0x7ffff000 - 48)).2
  refine ⟨Program.shiftedFrame_acyclic, by decide, by decide, by decide, f, f', hclassify, hsettle,
    _, _, _, _, ⟨0, by decide, rfl⟩, fun _ => rfl, run, rfl, _, _, _, haction, touches, by decide,
    hverdict, settle_of_verdict hsettle hverdict nofun, rfl, ?_⟩
  show _ ∉ caches (.l1d, .oneWay)
  rw [hcaches]
  decide

end CacheVerdict
