import CacheVerdict.Proofs.Analysis.Approximation

/-!
# Studies that approximate one another

Two studies of one program in one hierarchy, of which the second takes some accesses to go to other
lines than the first. At each level this gives lines two names, those of the second study first. What
a procedure sees of them are the names that it and the procedures it uses give to lines
(`Study.Renames`). As long as the second study finds none of their accesses to stay away from a level
that the first one lets arrive, except for those that are aside, footprints match under these names
(`Study.Compared.footprints`), and what the level is offered by the second study says less than what
it is offered by the first (`Study.Compared.coarsens`).
-/

namespace CacheVerdict

/-- The lines of a cache that matching actions go to, paired, if the level serves them and their site
counts. -/
def NodeAction.names (counts : Site → Bool) (shift : Nat) (cache : Level × Geometry) :
    NodeAction × NodeAction → List (Line × Line)
  | (.access r, .access r') =>
    if cache.1.serves r.site.kind && counts r.site then r.names shift cache.2 r' else []
  | _ => []

namespace Study

variable {s t : Study} {f f' : Findings} {p q n : Nat} {cache : Level × Geometry} {A B : Line → Prop}

/-- Two studies of one program in one hierarchy that differ in the lines that accesses go to. -/
structure Approximates (s t : Study) : Prop where
  program : t.program = s.program
  hierarchy : t.hierarchy = s.hierarchy
  order : s.callOrder = s.program.callOrder
  callOrder : t.callOrder = s.callOrder
  roots : t.roots = s.roots
  nests : t.nests = s.nests
  stackBase : t.settings.stackBase = s.settings.stackBase
  clobber : t.settings.unknownCalleesClobber = s.settings.unknownCalleesClobber
  coldRoots : t.settings.coldRoots = s.settings.coldRoots
  heights : ∀ p < s.program.procedures.length,
    (t.referencesOf p).heights = (s.referencesOf p).heights
  frameOffsets : ∀ p < s.program.procedures.length,
    (t.referencesOf p).frameOffsets = (s.referencesOf p).frameOffsets
  actions : ∀ p < s.program.procedures.length, ∀ n,
    List.Forall₂ NodeAction.Approximates (s.actions p n) (t.actions p n)

/-- Both studies are of the same procedures. -/
lemma Approximates.procedure (h : s.Approximates t) (p : Nat) : t.procedure p = s.procedure p := by
  rw [Study.procedure, Study.procedure, h.program]

/-- Both studies start the same procedures with an empty cache. -/
lemma Approximates.startsCold (h : s.Approximates t) (p : Nat) : t.startsCold p = s.startsCold p := by
  rw [Study.startsCold, Study.startsCold, h.coldRoots, h.roots]

/-- One procedure uses another: itself, its callees, theirs and so on. Calls that close a cycle are not
followed, since they are taken to do what a call of an unknown procedure does. -/
def Uses (s : Study) : Nat → Nat → Prop :=
  Relation.ReflTransGen fun p c => s.program.Calls p c ∧ ⟨p, c⟩ ∉ s.callOrder.recursive

/-- The procedures that a procedure uses are procedures of the program. -/
lemma Uses.lt (uses : s.Uses p q) (hp : p < s.program.procedures.length) :
    q < s.program.procedures.length := by
  induction uses with
  | refl => exact hp
  | tail _ step => exact step.1.lt

/-- The access of a site goes to the frame of its procedure. -/
def onFrame (s : Study) (q : Nat) (site : Site) : Bool :=
  site.kind = .data && ((s.referencesOf q).frameOffsets.get? site.instruction).isSome

/-- Whether `p` goes to the lines of an access in `q` as they are named there. Frames of others lie
elsewhere when they are called. -/
def counts (s : Study) (p q : Nat) (site : Site) : Bool :=
  q = p || !s.onFrame q site

/-- The lines of a cache that the accesses of `q` go to, paired, as far as they count in `p`. -/
def accessNames (s t : Study) (cache : Level × Geometry) (p q : Nat) : List (Line × Line) :=
  (s.procedure q).nodeIds.flatMap fun n =>
    ((s.actions q n).zip (t.actions q n)).flatMap
      (NodeAction.names (s.counts p q) s.hierarchy.finestShift cache)

/-- The lines of the frame of a procedure and of the frames behind it, which both studies name alike. -/
def frameNames (s : Study) (f' : Findings) (cache : Level × Geometry) (p : Nat) :
    List (Line × Line) :=
  (f'.footprints.get? ⟨p, cache.1⟩).elim [] fun e => e.frame.toList.map fun offset =>
    (cache.2.lineOf (s.settings.stackBase + offset.toUInt64),
      cache.2.lineOf (s.settings.stackBase + offset.toUInt64))

/-- A line by its names in both studies, as far as a procedure is concerned with it. -/
def Renames (s t : Study) (f' : Findings) (cache : Level × Geometry) (p : Nat) (x y : Line) : Prop :=
  (x, y) ∈ s.frameNames f' cache p ∨ ∃ q, s.Uses p q ∧ (x, y) ∈ s.accessNames t cache p q

/-- Both studies find the same accesses to the frame. -/
lemma Approximates.onFrame (h : s.Approximates t) (hq : q < s.program.procedures.length)
    {site : Site} : t.onFrame q site = s.onFrame q site := by
  rw [Study.onFrame, Study.onFrame, h.frameOffsets q hq]

/-- What does not go to the frame counts in every procedure. -/
lemma counts_of_not_onFrame {site : Site} (h : s.onFrame q site = false) :
    s.counts p q site = true := by
  rw [counts, h]
  exact Bool.or_true _

/-- Off the frame, no byte of it is touched. -/
lemma frameOffset_of_not_onFrame {site : Site} (h : s.onFrame q site = false) :
    (if site.kind = .data then (s.referencesOf q).frameOffsets.get? site.instruction else none) =
      none := by
  split
  · rename_i hkind
    simpa [onFrame, hkind] using h
  · rfl

/-- An access to the frame has an offset. -/
lemma exists_frameOffset {site : Site} (h : s.onFrame q site = true) :
    ∃ offset, (if site.kind = .data then
      (s.referencesOf q).frameOffsets.get? site.instruction else none) = some offset := by
  obtain ⟨hkind, hsome⟩ := Bool.and_eq_true_iff.1 h
  rw [if_pos (of_decide_eq_true hkind)]
  exact Option.isSome_iff_exists.1 hsome

/-- Lines that a procedure goes to are among its names. -/
lemma renames_access (uses : s.Uses p q) {r r' : Request}
    (haction : (.access r, .access r') ∈ (s.actions q n).zip (t.actions q n))
    (hserves : cache.1.serves r.site.kind = true) (hcounts : s.counts p q r.site = true) {x y : Line}
    (h : (x, y) ∈ r.names s.hierarchy.finestShift cache.2 r') : s.Renames t f' cache p x y := by
  have hn : n < (s.procedure q).nodes.length := by
    by_contra hn
    have hnil : s.actions q n = [] := by
      rw [actions, List.getElem?_eq_none (Nat.le_of_not_lt hn)]
    rw [hnil] at haction
    cases haction
  refine .inr ⟨q, uses, List.mem_flatMap.2 ⟨n, List.mem_range.2 hn, ?_⟩⟩
  refine List.mem_flatMap.2 ⟨_, haction, ?_⟩
  rw [NodeAction.names, if_pos (Bool.and_eq_true_iff.2 ⟨hserves, hcounts⟩)]
  exact h

/-- A byte of the frame goes by the same line on both sides. -/
lemma renames_frame {e : Effect} (he : f'.footprints.get? ⟨p, cache.1⟩ = some e) {offset : Int64}
    (hoffset : offset ∈ e.frame) :
    s.Renames t f' cache p (cache.2.lineOf (s.settings.stackBase + offset.toUInt64))
      (cache.2.lineOf (s.settings.stackBase + offset.toUInt64)) := by
  refine .inl ?_
  rw [frameNames, he]
  exact List.mem_map.2 ⟨offset, hoffset, rfl⟩

/-- Both studies have been classified, and no node of the program has two instructions at one address. -/
structure Compared (s t : Study) (f f' : Findings) : Prop where
  approximates : s.Approximates t
  classified : ∃ fuel, s.classify fuel = some f
  classified' : ∃ fuel, t.classify fuel = some f'
  distinct : ∀ p < s.program.procedures.length, s.DistinctAddresses p

/-- An access of a procedure that is used reaches the level by the second study as it does by the
first, or it is open whether it does, or the access goes to lines that are aside. -/
def ReachKept (s t : Study) (f f' : Findings) (cache : Level × Geometry) (A B : Line → Prop)
    (p : Nat) : Prop :=
  ∀ q, s.Uses p q → ∀ n r r', (.access r, .access r') ∈ (s.actions q n).zip (t.actions q n) →
    cache.1.serves r.site.kind = true →
    (t.reachOf f' q r.site cache.1 = s.reachOf f q r.site cache.1 ∨
      t.reachOf f' q r.site cache.1 = .uncertain) ∨
      s.onFrame q r.site = false ∧ (r.targetAt s.hierarchy.finestShift cache.2).Aside A B
        (r'.targetAt s.hierarchy.finestShift cache.2)

namespace Compared

/-- What the level is offered of matching actions, if calls match. -/
lemma offered (compared : s.Compared t f f') (hq : q < s.program.procedures.length)
    (reach : s.ReachKept t f f' cache A B p) (uses : s.Uses p q) {action action' : NodeAction}
    (happroximates : action.Approximates action')
    (haction : (action, action') ∈ (s.actions q n).zip (t.actions q n))
    (hcalls : ∀ callee, .call callee ∈ t.actions q n →
      (s.calleeEffect f q callee cache.1).Coarsens (s.Renames t f' cache p) A
        (t.calleeEffect f' q callee cache.1)) :
    Option.Rel (Event.Approximates (s.Renames t f' cache p) A B (q = p) cache.2 s.settings.stackBase)
      (s.offered? f q cache n action) (t.offered? f' q cache n action') := by
  have approximates := compared.approximates
  cases happroximates with
  | call callee =>
    refine .some ?_
    rw [approximates.stackBase, approximates.heights q hq]
    exact .call ((hcalls callee (List.of_mem_zip haction).2).calledAt _)
  | @access r r' hr =>
    have hreach := reach q uses n r r' haction
    rw [offered?, offered?, approximates.hierarchy, approximates.frameOffsets q hq, hr.site]
    split
    · rename_i hserves
      refine .some ?_
      by_cases hcounts : s.counts p q r.site = true
      · refine .access (hr.target fun x y => renames_access uses haction hserves hcounts) rfl ?_
        exact or_assoc.1 ((hreach hserves).imp_right fun haside =>
          ⟨frameOffset_of_not_onFrame haside.1, haside.2⟩)
      · -- the frame of another procedure, which is not looked at line by line
        obtain ⟨hne, hframe⟩ := not_or.1 (Bool.or_eq_true_iff.not.1 hcounts)
        have hframe : s.onFrame q r.site = true := by simpa using hframe
        obtain ⟨offset, hoffset⟩ := exists_frameOffset hframe
        refine .frame (fun heq => hne (decide_eq_true heq)) hr.unknown hoffset hoffset ?_
        refine (hreach hserves).resolve_right fun haside => ?_
        have hoff := haside.1
        rw [hframe] at hoff
        cases hoff
    · exact .none

/-- What the level is offered of a node, if calls match. -/
lemma events (compared : s.Compared t f f') (hq : q < s.program.procedures.length)
    (reach : s.ReachKept t f f' cache A B p) (uses : s.Uses p q)
    (hcalls : ∀ n callee, .call callee ∈ t.actions q n →
      (s.calleeEffect f q callee cache.1).Coarsens (s.Renames t f' cache p) A
        (t.calleeEffect f' q callee cache.1)) (n : Nat) :
    List.Forall₂
      (Event.Approximates (s.Renames t f' cache p) A B (q = p) cache.2 s.settings.stackBase)
      ((s.offers f q cache).eventsOf n) ((t.offers f' q cache).eventsOf n) := by
  rw [eventsOf_offers, eventsOf_offers]
  have hactions := compared.approximates.actions q hq n
  have hzip : List.Forall₂ (fun action action' => action.Approximates action' ∧
      (action, action') ∈ (s.actions q n).zip (t.actions q n)) (s.actions q n) (t.actions q n) :=
    List.forall₂_iff_zip.2 ⟨hactions.length_eq, fun h => ⟨List.forall₂_zip hactions h, h⟩⟩
  refine List.rel_filterMap (fun action action' h => ?_) hzip
  exact compared.offered hq reach uses h.1 h.2 (hcalls n)

/-- The footprints of a procedure match, if calls do. -/
lemma footprint (compared : s.Compared t f f') (hq : q < s.program.procedures.length)
    (reach : s.ReachKept t f f' cache A B p) (uses : s.Uses p q)
    (hcalls : ∀ n callee, .call callee ∈ t.actions q n →
      (s.calleeEffect f q callee cache.1).Coarsens (s.Renames t f' cache p) A
        (t.calleeEffect f' q callee cache.1)) :
    (s.offers f q cache).arriving.footprint.Coarsens (s.Renames t f' cache p) A
      (t.offers f' q cache).arriving.footprint := by
  refine Summary.coarsens_footprint fun n event hevent => ?_
  rw [Summary.eventsOf_arriving, List.mem_filter] at hevent
  obtain ⟨i, hi⟩ := List.mem_iff_getElem?.1 hevent.1
  obtain ⟨event', hevent', happroximates⟩ :=
    exists_getElem?_of_forall₂ (compared.events hq reach uses hcalls n) hi
  rcases happroximates.arrives_or hevent.2 with harrives | haside
  · have hmem : event' ∈ (t.offers f' q cache).arriving.eventsOf n := by
      rw [Summary.eventsOf_arriving]
      exact List.mem_filter.2 ⟨List.mem_of_getElem? hevent', harrives⟩
    obtain ⟨e, within⟩ := Summary.exists_within_footprint hmem
    exact (happroximates.touchedBy e).within within
  · exact haside _

/-- Both studies analyse every procedure at every level. -/
lemma exists_analyses (compared : s.Compared t f f') (hp : p < s.program.procedures.length) :
    (∃ _ : s.Analyses p f, ∀ cache ∈ s.hierarchy.caches.entries, ∃ before,
      s.Kept p cache f before) ∧
    ∃ _ : t.Analyses p f', ∀ cache ∈ s.hierarchy.caches.entries, ∃ before,
      t.Kept p cache f' before := by
  have approximates := compared.approximates
  obtain ⟨fuel, hclassify⟩ := compared.classified
  obtain ⟨fuel', hclassify'⟩ := compared.classified'
  refine ⟨Study.exists_analyses approximates.order hclassify hp, ?_⟩
  rw [← approximates.hierarchy]
  rw [← approximates.program] at hp
  refine Study.exists_analyses ?_ hclassify' hp
  rw [approximates.callOrder, approximates.program, approximates.order]

/-- The footprints of both studies, as they are kept. -/
lemma get?_footprints (compared : s.Compared t f f') (hp : p < s.program.procedures.length)
    (hcache : cache ∈ s.hierarchy.caches.entries) :
    f.footprints.get? ⟨p, cache.1⟩ = some (s.offers f p cache).arriving.footprint ∧
      f'.footprints.get? ⟨p, cache.1⟩ = some (t.offers f' p cache).arriving.footprint := by
  obtain ⟨⟨A, kept⟩, A', kept'⟩ := compared.exists_analyses hp
  obtain ⟨before, kept⟩ := kept cache hcache
  obtain ⟨before', kept'⟩ := kept' cache hcache
  exact ⟨A.get?_footprints kept hcache,
    A'.get?_footprints kept' (compared.approximates.hierarchy ▸ hcache)⟩

/-- The effects of a call match, if the footprints of the callee do. -/
lemma calleeEffect (compared : s.Compared t f f') (hcache : cache ∈ s.hierarchy.caches.entries)
    {U : Line → Line → Prop} {callee : String}
    (hcallee : ∀ c, s.program.procedureNamed? callee = some c →
      ⟨q, c⟩ ∉ s.callOrder.recursive →
      (s.offers f c cache).arriving.footprint.Coarsens U A
        (t.offers f' c cache).arriving.footprint) :
    (s.calleeEffect f q callee cache.1).Coarsens U A (t.calleeEffect f' q callee cache.1) := by
  have approximates := compared.approximates
  have hunknown : s.unknownCallee.Coarsens U A t.unknownCallee := by
    rw [unknownCallee, unknownCallee, approximates.clobber]
    exact Effect.coarsens_unknownCallee _
  unfold Study.calleeEffect
  rw [approximates.program, approximates.callOrder]
  cases hc : s.program.procedureNamed? callee with
  | none => exact hunknown
  | some c =>
    simp only
    split
    · exact hunknown
    · rename_i hrecursive
      obtain ⟨hfootprint, hfootprint'⟩ :=
        compared.get?_footprints (Program.procedureNamed?_lt hc) hcache
      rw [hfootprint, hfootprint']
      exact hcallee c hc hrecursive

/-- A call of a matching action is one of the first study, too. -/
lemma calls (compared : s.Compared t f f') (hq : q < s.program.procedures.length) {callee : String}
    (hcall : .call callee ∈ t.actions q n) {c : Nat}
    (hc : s.program.procedureNamed? callee = some c) : s.program.Calls q c := by
  obtain ⟨i, hi⟩ := List.mem_iff_getElem?.1 hcall
  obtain ⟨action, haction, happroximates⟩ :=
    exists_getElem?_of_forall₂ (compared.approximates.actions q hq n).flip hi
  cases happroximates with
  | call => exact calls_of_action haction hc

/-- The footprints of the procedures that are used match. -/
theorem footprints (compared : s.Compared t f f') (hcache : cache ∈ s.hierarchy.caches.entries)
    (reach : s.ReachKept t f f' cache A B p) (hq : q < s.program.procedures.length)
    (uses : s.Uses p q) :
    (s.offers f q cache).arriving.footprint.Coarsens (s.Renames t f' cache p) A
      (t.offers f' q cache).arriving.footprint := by
  -- along the calls, while `p` stays: its names cover whatever it uses
  refine Program.calls_induction (motive := fun q => s.Uses p q →
    (s.offers f q cache).arriving.footprint.Coarsens (s.Renames t f' cache p) A
      (t.offers f' q cache).arriving.footprint) (fun q hq hcallees uses => ?_) hq uses
  refine compared.footprint hq reach uses fun n callee hcall => ?_
  refine compared.calleeEffect hcache fun c hc hrecursive => ?_
  have hcalls := compared.calls hq hcall hc
  exact hcallees c hcalls (compared.approximates.order ▸ hrecursive)
    (uses.tail ⟨hcalls, hrecursive⟩)

/-- Calls that match, the second of which is made by the procedure. -/
def CallsMatch (s t : Study) (f' : Findings) (cache : Level × Geometry) (A : Line → Prop) (p : Nat)
    (c c' : Call) : Prop :=
  c.Names (s.Renames t f' cache p) A c' ∧
    ∃ n, .call c' ∈ (t.offers f' p cache).arriving.eventsOf n

/-- Events as `Coarsens` has them: calls name the lines. -/
lemma event_coarsens (compared : s.Compared t f f') (hp : p < s.program.procedures.length)
    (hcache : cache ∈ s.hierarchy.caches.entries) {event event' : Event}
    (h : event.Approximates (s.Renames t f' cache p) A B (p = p) cache.2 s.settings.stackBase event')
    (hevent : event' ∈ (t.offers f' p cache).eventsOf n) :
    event.Coarsens (s.Renames t f' cache p) A B (CallsMatch s t f' cache A p) event' := by
  cases h with
  | access htarget _ hreach => exact .access htarget (hreach.imp id (.imp id And.right))
  | frame hother => exact absurd rfl hother
  | @call e e' heffect =>
    have harrives : .call (.ofEffect cache.2 s.settings.stackBase e') ∈
        (t.offers f' p cache).arriving.eventsOf n := by
      rw [Summary.eventsOf_arriving]
      exact List.mem_filter.2 ⟨hevent, rfl⟩
    refine .call ⟨heffect.names fun offset hoffset => ?_, n, harrives⟩
    obtain ⟨e₀, within⟩ := Summary.exists_within_footprint harrives
    have hoffset' := within.frame offset (OrderedSet.mem_union.2 (.inr hoffset))
    exact renames_frame (compared.get?_footprints hp hcache).2 hoffset'

/-- What the level is offered by the second study says less. -/
theorem coarsens (compared : s.Compared t f f') (hcache : cache ∈ s.hierarchy.caches.entries)
    (reach : s.ReachKept t f f' cache A B p) (hp : p < s.program.procedures.length) :
    (s.offers f p cache).Coarsens (s.Renames t f' cache p) A B (CallsMatch s t f' cache A p)
      (t.offers f' p cache) := by
  have approximates := compared.approximates
  have hprocedure := approximates.procedure p
  have hcalls (n : Nat) (callee : String) (hcall : .call callee ∈ t.actions p n) :
      (s.calleeEffect f p callee cache.1).Coarsens (s.Renames t f' cache p) A
        (t.calleeEffect f' p callee cache.1) :=
    compared.calleeEffect hcache fun c hc hrecursive =>
      compared.footprints hcache reach (Program.procedureNamed?_lt hc)
        (.single ⟨compared.calls hp hcall hc, hrecursive⟩)
  refine ⟨rfl, ?_, ?_, ?_, ?_, fun h => ?_⟩
  · simp only [offers, summary, hprocedure]
  · simp only [offers, summary, hprocedure]
  · simp only [offers, summary, hprocedure]
  · show List.Forall₂ _ ((s.procedure p).nodeIds.map _) ((t.procedure p).nodeIds.map _)
    rw [hprocedure, List.forall₂_map_left_iff, List.forall₂_map_right_iff]
    refine List.forall₂_same.2 fun n _ => ?_
    have hevents := compared.events hp reach .refl hcalls n
    rw [← eventsOf_offers, ← eventsOf_offers]
    refine List.forall₂_iff_zip.2 ⟨hevents.length_eq, fun h => ?_⟩
    exact compared.event_coarsens hp hcache (List.forall₂_zip hevents h) (List.of_mem_zip h).2
  · exact (approximates.startsCold p).symm.trans h

end Compared

end Study

end CacheVerdict
