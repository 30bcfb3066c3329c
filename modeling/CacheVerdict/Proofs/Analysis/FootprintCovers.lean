import CacheVerdict.Analysis.Run
import CacheVerdict.Proofs.Analysis.Machine
import CacheVerdict.Proofs.Analysis.Verdicts

/-!
# Footprints cover executions

Whatever a procedure and those it calls touch at a nearest level, the footprint of the procedure
covers. An access is covered because its event is in the summary. What a callee touches is covered at
the stack pointer of the call, and so by the effect of the call at the caller's entry; a call that
closes a cycle or leaves the program has an effect that covers everything. Along a run, each
activation on the stack is covered by the one below it, and so by the first. Main statement:
`footprints_cover`.
-/

namespace CacheVerdict

namespace Study

variable {s : Study} {f before : Findings} {p n fuel : Nat} {cache : Level × Geometry}
  {coldStart : Bool} {base sp : Address} {line : Line}

/-! ### One procedure -/

/-- An event of an action is among those of the summary. -/
lemma mem_eventsOf_summary {i : Nat} {action : NodeAction} {event : Event}
    (haction : (s.actions p n)[i]? = some action)
    (hevent : s.eventAt? before p cache n action = some event) :
    event ∈ (s.summary before p cache.1 cache.2 coldStart).eventsOf n := by
  rw [eventsOf_summary]
  exact List.mem_filterMap.2 ⟨action, List.mem_of_getElem? haction, hevent⟩

/-- The event of an access carries the byte of the frame that its instruction is resolved to. -/
lemma eventAt?_instruction (prepared : s.Prepared) (hp : p < s.program.procedures.length)
    (distinct : (s.procedure p).DistinctAddresses) {r : Request} {i : Instruction}
    (hi : i ∈ (s.procedure p).codeOf r.site.node) (haddress : i.address = r.site.instruction)
    (hserves : cache.1.serves r.site.kind = true)
    (hreach : s.reachOf before p r.site cache.1 ≠ .never) :
    s.eventAt? before p cache n (.access r) = some (.access
      ⟨r.site, r.targetAt s.hierarchy.finestShift cache.2, s.reachOf before p r.site cache.1,
        if r.site.kind = .data then s.frameByte? p r.site.node i else none⟩) := by
  rw [eventAt?_request, if_pos hserves, accessEvent?, if_neg hreach, ← haddress,
    prepared.get?_frameOffsets hp distinct hi]

/-- The footprint covers what an access touches, unless the access never gets to the level. -/
lemma covers_access (prepared : s.Prepared) (hp : p < s.program.procedures.length)
    (distinct : (s.procedure p).DistinctAddresses) {i : Nat} {r : Request} {a : Address}
    (haction : (s.actions p n)[i]? = some (.access r)) (touches : s.Touches p base r a)
    (hserves : cache.1.serves r.site.kind = true)
    (hreach : s.reachOf before p r.site cache.1 ≠ .never) :
    (s.summary before p cache.1 cache.2 coldStart).footprint.Covers cache.2 base
      (cache.2.lineOf a) := by
  obtain ⟨j, hj, haddress, touches⟩ := touches
  have hevent := eventAt?_instruction (n := n) prepared hp distinct hj haddress hserves hreach
  refine Summary.covers_footprint (mem_eventsOf_summary haction hevent) fun e => ?_
  unfold Summary.touchedBy
  simp only
  generalize (if r.site.kind = .data then s.frameByte? p r.site.node j else none) = offset?
    at touches
  cases htarget : r.targetAt s.hierarchy.finestShift cache.2 with
  | unknown => exact .inl rfl
  | lines candidates =>
    cases offset? with
    | some offset =>
      have ha : a = base + offset.toUInt64 := touches
      exact .inr (.inr ⟨offset, OrderedSet.mem_insert.2 (.inl rfl), congrArg cache.2.lineOf ha⟩)
    | none =>
      have admits : (Target.lines candidates).Admits (cache.2.lineOf a) :=
        htarget ▸ Request.admits_targetAt touches
      exact .inr (.inl (OrderedSet.mem_insertAll.2 (.inr admits)))

/-- The footprint covers what the effect of a call does at the stack pointer of the call. -/
lemma covers_call (prepared : s.Prepared) (hp : p < s.program.procedures.length)
    (hd : ((s.procedure p).stackHeights.atEntry n).Describes base sp) {i : Nat} {callee : String}
    (haction : (s.actions p n)[i]? = some (.call callee))
    (hc : (s.calleeEffect before p callee cache.1).Covers cache.2 sp line) :
    (s.summary before p cache.1 cache.2 coldStart).footprint.Covers cache.2 base line := by
  rw [← prepared.heights hp] at hd
  refine Summary.covers_footprint (mem_eventsOf_summary haction rfl) fun e => ?_
  exact (hc.calledAt hd).mono (Effect.within_union_right _ _)

/-- A callee of which nothing is known may touch any line. -/
lemma covers_unknownCallee (clobber : s.settings.unknownCalleesClobber = true) :
    s.unknownCallee.Covers cache.2 sp line :=
  .inl clobber

end Study

/-! ### Runs -/

/-- The footprint of a procedure at a level covers a line, when the procedure is entered with the
stack pointer `base`. -/
def Findings.Covered (f : Findings) (cache : Level × Geometry) (p : Nat) (base : Address)
    (line : Line) : Prop :=
  ∃ e, f.footprints.get? ⟨p, cache.1⟩ = some e ∧ e.Covers cache.2 base line

/-- The analysis of a program without two instructions at one address has come to an end. -/
structure Study.Completed (s : Study) (f : Findings) : Prop where
  prepared : s.Prepared
  classified : ∃ fuel, s.classify fuel = some f
  distinct : ∀ p < s.program.procedures.length, (s.procedure p).DistinctAddresses
  edges : ∀ p < s.program.procedures.length, ∀ e ∈ (s.procedure p).edges,
    (s.procedure p).hasEnds e = true

namespace Study.Completed

variable {s : Study} {f : Findings} {p n : Nat} {cache : Level × Geometry} {base sp : Address}
  {line : Line}

/-- A footprint that covers a line, as that of the summary. -/
lemma covered (completed : s.Completed f) (hp : p < s.program.procedures.length)
    (hcache : cache ∈ s.hierarchy.caches.entries)
    (h : ∀ before, s.Kept p cache f before →
      (s.summary before p cache.1 cache.2 (s.startsCold p)).footprint.Covers cache.2 base line) :
    f.Covered cache p base line := by
  obtain ⟨fuel, hclassify⟩ := completed.classified
  obtain ⟨before, kept⟩ := exists_kept completed.prepared.callOrder hclassify hp hcache
  exact ⟨_, kept.footprint, h before kept⟩

/-- What a callee covers at the stack pointer of the call, the caller covers at its entry. -/
lemma covered_call (completed : s.Completed f) (hp : p < s.program.procedures.length)
    (hcache : cache ∈ s.hierarchy.caches.entries)
    (arrives : (s.procedure p).Arrives base n sp) {i c : Nat} {callee : String}
    (haction : (s.actions p n)[i]? = some (.call callee))
    (hc : s.program.procedureNamed? callee = some c)
    (clobber : ⟨p, c⟩ ∈ s.callOrder.recursive → s.settings.unknownCalleesClobber = true)
    (h : f.Covered cache c sp line) :
    f.Covered cache p base line := by
  refine completed.covered hp hcache fun before kept => ?_
  refine covers_call completed.prepared hp (arrives.describes (completed.edges p hp)) haction ?_
  obtain ⟨e, hfootprint, covers⟩ := h
  rw [kept.effect haction, calleeEffect_eq hc hfootprint]
  split
  · rename_i hrecursive
    exact covers_unknownCallee (clobber hrecursive)
  · exact covers

/-- A call out of the program covers every line. -/
lemma covered_outside (completed : s.Completed f) (hp : p < s.program.procedures.length)
    (hcache : cache ∈ s.hierarchy.caches.entries)
    (arrives : (s.procedure p).Arrives base n sp) {i : Nat} {callee : String}
    (haction : (s.actions p n)[i]? = some (.call callee))
    (hc : s.program.procedureNamed? callee = none)
    (clobber : s.settings.unknownCalleesClobber = true) : f.Covered cache p base line := by
  refine completed.covered hp hcache fun before _ => ?_
  refine covers_call completed.prepared hp (arrives.describes (completed.edges p hp)) haction ?_
  unfold calleeEffect
  rw [hc]
  exact covers_unknownCallee clobber

/-- At a nearest level, what an access touches is covered. -/
lemma covered_access (completed : s.Completed f) (hp : p < s.program.procedures.length)
    (hcache : cache ∈ s.hierarchy.caches.entries)
    (nearest : ∀ kind, cache.1.serves kind = true → s.hierarchy.previous? kind cache.1 = none)
    {i : Nat} {r : Request} {a : Address} (haction : (s.actions p n)[i]? = some (.access r))
    (touches : s.Touches p base r a) (hserves : cache.1.serves r.site.kind = true) :
    f.Covered cache p base (cache.2.lineOf a) := by
  refine completed.covered hp hcache fun before _ => ?_
  refine covers_access completed.prepared hp (completed.distinct p hp) haction touches hserves ?_
  unfold reachOf
  rw [nearest r.site.kind hserves]
  exact nofun

end Study.Completed

/-- The classification of a program without two instructions at one address completes its study. -/
lemma Study.completed_ofProgram {program : Program} {hierarchy : Hierarchy} {settings : Settings}
    {fuel : Nat} {f : Findings}
    (hclassify : (Study.ofProgram program hierarchy settings).classify fuel = some f)
    (distinct : ∀ q ∈ program.procedures, q.DistinctAddresses)
    (edges : ∀ q ∈ program.procedures, ∀ e ∈ q.edges, q.hasEnds e = true) :
    (Study.ofProgram program hierarchy settings).Completed f := by
  have hmem (p : Nat) (hp : p < program.procedures.length) :
      (Study.ofProgram program hierarchy settings).procedure p ∈ program.procedures := by
    have hget : (Study.ofProgram program hierarchy settings).procedure p = program.procedures[p] := by
      show program.procedures[p]?.getD _ = _
      rw [List.getElem?_eq_getElem hp, Option.getD_some]
    rw [hget]
    exact List.getElem_mem hp
  exact ⟨prepared_ofProgram program hierarchy settings, ⟨fuel, hclassify⟩,
    fun p hp => distinct _ (hmem p hp), fun p hp => edges _ (hmem p hp)⟩

/-- What holds of an activation above one of `p` that was entered with the stack pointer `base`. -/
structure Frame.Above (s : Study) (f : Findings) (cache : Level × Geometry) (p : Nat) (base : Address)
    (fr : Frame) : Prop where
  lt : fr.procedure < s.program.procedures.length
  arrives : (s.procedure fr.procedure).Arrives fr.base fr.node fr.sp
  covered : ∀ line, f.Covered cache fr.procedure fr.base line → f.Covered cache p base line

/-- The activations of a machine that runs `p`. -/
def Machine.Above (s : Study) (f : Findings) (cache : Level × Geometry) (p : Nat) (base : Address)
    (m : Machine) : Prop :=
  ∀ fr ∈ m.stack, fr.Above s f cache p base

section

variable {s : Study} {f : Findings} {p : Nat} {cache : Level × Geometry} {base : Address}
  {m m' : Machine} {lines : Level × Geometry → List Line}

/-- What enters a procedure is above its entry. -/
lemma Machine.Enters.above (hp : p < s.program.procedures.length) (enters : m.Enters s p base) :
    m.Above s f cache p base := by
  obtain ⟨n, hn, hstack⟩ := enters
  unfold Machine.Above
  rw [hstack]
  exact List.forall_mem_singleton.2 ⟨hp, .enter hn, fun _ h => h⟩

/-- A step keeps the activations covered, and touches only what is. -/
lemma Step.above (completed : s.Completed f)
    (clobber : s.settings.unknownCalleesClobber = true)
    (hcache : cache ∈ s.hierarchy.caches.entries)
    (nearest : ∀ kind, cache.1.serves kind = true → s.hierarchy.previous? kind cache.1 = none)
    (step : Step s m lines m') (above : m.Above s f cache p base) :
    m'.Above s f cache p base ∧ ∀ line ∈ lines cache, f.Covered cache p base line := by
  cases step with
  | access haction touches =>
    obtain ⟨running, suspended⟩ := List.forall_mem_cons.1 above
    refine ⟨List.forall_mem_cons.2 ⟨⟨running.lt, running.arrives, running.covered⟩, suspended⟩, ?_⟩
    intro line hline
    unfold Caches.along at hline
    split at hline
    · rename_i hreached
      cases List.mem_singleton.1 hline
      have hserves := (List.mem_filter.1 (Caches.mem_of_mem_reached hreached)).2
      exact running.covered _ (completed.covered_access running.lt hcache nearest haction touches
        hserves)
    · cases hline
  | call haction hc hn =>
    obtain ⟨running, suspended⟩ := List.forall_mem_cons.1 above
    refine ⟨List.forall_mem_cons.2 ⟨⟨Program.procedureNamed?_lt hc, .enter hn, ?_⟩, above⟩, nofun⟩
    intro line hline
    exact running.covered _ (completed.covered_call running.lt hcache running.arrives haction hc
      (fun _ => clobber) hline)
  | skip =>
    obtain ⟨running, suspended⟩ := List.forall_mem_cons.1 above
    exact ⟨List.forall_mem_cons.2 ⟨⟨running.lt, running.arrives, running.covered⟩, suspended⟩,
      nofun⟩
  | ret =>
    obtain ⟨_, suspended⟩ := List.forall_mem_cons.1 above
    obtain ⟨caller, suspended⟩ := List.forall_mem_cons.1 suspended
    exact ⟨List.forall_mem_cons.2 ⟨⟨caller.lt, caller.arrives, caller.covered⟩, suspended⟩, nofun⟩
  | outside haction hc =>
    obtain ⟨running, suspended⟩ := List.forall_mem_cons.1 above
    refine ⟨List.forall_mem_cons.2 ⟨⟨running.lt, running.arrives, running.covered⟩, suspended⟩, ?_⟩
    intro line _
    exact running.covered _ (completed.covered_outside running.lt hcache running.arrives haction hc
      clobber)
  | edge _ hn moves =>
    obtain ⟨running, suspended⟩ := List.forall_mem_cons.1 above
    refine ⟨List.forall_mem_cons.2 ⟨⟨running.lt, ?_, running.covered⟩, suspended⟩, nofun⟩
    exact running.arrives.edge hn moves

/-- Steps of the machine, whatever they touch. -/
def Machine.Steps (s : Study) (m m' : Machine) : Prop :=
  ∃ lines, Step s m lines m'

/-- All along a run the activations are covered. -/
lemma Machine.Enters.above_run (completed : s.Completed f)
    (clobber : s.settings.unknownCalleesClobber = true)
    (hcache : cache ∈ s.hierarchy.caches.entries)
    (nearest : ∀ kind, cache.1.serves kind = true → s.hierarchy.previous? kind cache.1 = none)
    (hp : p < s.program.procedures.length) (enters : m.Enters s p base)
    (run : Relation.ReflTransGen (Machine.Steps s) m m') : m'.Above s f cache p base := by
  induction run with
  | refl => exact enters.above hp
  | tail _ step ih =>
    obtain ⟨lines, step⟩ := step
    exact (step.above completed clobber hcache nearest ih).1

end

/-- The classification of a program ends. If unknown callees may touch any line, then whatever a run of
a procedure touches at a level that is the nearest for all it serves is among the lines of the
footprint, taken at the distance of the stack pointer on entry, or the footprint is unknown. -/
theorem Study.footprints_cover (program : Program) (hierarchy : Hierarchy) (settings : Settings)
    (clobber : settings.unknownCalleesClobber = true)
    (distinct : ∀ q ∈ program.procedures, q.DistinctAddresses)
    (edges : ∀ q ∈ program.procedures, ∀ e ∈ q.edges, q.hasEnds e = true) :
    (∃ (bound : Nat) (f : Findings), ∀ fuel ≥ bound,
      (Study.ofProgram program hierarchy settings).classify fuel = some f) ∧
    ∀ (fuel : Nat) (f : Findings),
      (Study.ofProgram program hierarchy settings).classify fuel = some f →
      ∀ cache ∈ hierarchy.caches.entries,
      (∀ kind, cache.1.serves kind = true → hierarchy.previous? kind cache.1 = none) →
      ∀ p < program.procedures.length, ∃ e, f.footprints.get? ⟨p, cache.1⟩ = some e ∧
        ∀ (h : Int64) (start m m' : Machine) (lines : Level × Geometry → List Line),
          start.Enters (.ofProgram program hierarchy settings) p
            (settings.stackBase + h.toUInt64) →
          Relation.ReflTransGen (Machine.Steps (.ofProgram program hierarchy settings)) start m →
          Step (.ofProgram program hierarchy settings) m lines m' →
          ∀ line ∈ lines cache, e.unknown = true ∨
            line ∈ (Call.ofEffect cache.2 settings.stackBase (e.calledAt (.known h))).lines := by
  refine ⟨exists_classify _, ?_⟩
  intro fuel f hclassify cache hcache nearest p hp
  have completed := completed_ofProgram hclassify distinct edges
  obtain ⟨before, kept⟩ := exists_kept rfl hclassify hp hcache
  refine ⟨_, kept.footprint, ?_⟩
  intro h start m m' lines enters run step line hline
  have above := enters.above_run completed clobber hcache nearest hp run
  obtain ⟨e, hfootprint, covers⟩ := (step.above completed clobber hcache nearest above).2 line hline
  cases kept.footprint.symm.trans hfootprint
  exact covers.mem_lines

/-- Two sets of one way, for lines of 256 bytes. -/
def Geometry.wideLines : Geometry :=
  ⟨⟨512, 1, 256⟩, by decide, by decide, by decide, by decide, by decide⟩

/-- A first level for fetches and one for data. -/
def Hierarchy.split (data : Geometry) : Hierarchy where
  caches := .ofList [(.l1i, .oneWay), (.l1d, data)]
  served kind := by
    cases kind with
    | fetch => exact ⟨.l1i, List.mem_cons_self, rfl⟩
    | data => exact ⟨.l1d, List.mem_cons_of_mem _ List.mem_cons_self, rfl⟩

/-- A procedure makes room for 48 bytes and calls another one, which stores 8 and 24 bytes below the
stack pointer. -/
def Program.shiftedFrame : Program where
  procedures := [
    { name := "main"
      nodes := [
        ⟨"start", .straight [⟨0x1000, .add ⟨"sp"⟩ ⟨"sp"⟩ (.immediate "#48") true,
          "sub sp, sp, #48"⟩]⟩,
        ⟨"call", .call "leaf"⟩]
      edges := [⟨none, 0⟩, ⟨some 0, 1⟩] },
    { name := "leaf"
      nodes := [⟨"store", .straight [
        ⟨0x1040, .access ⟨[⟨"sp"⟩], some "#-8", false, true, none⟩, "str x0, [sp, #-8]"⟩,
        ⟨0x1044, .access ⟨[⟨"sp"⟩], some "#-24", false, true, none⟩, "str x1, [sp, #-24]"⟩]⟩]
      edges := [⟨none, 0⟩] }]

/-- The study of the two procedures, with a cache for data of the given geometry. -/
def Study.shiftedFrame (data : Geometry) : Study :=
  .ofProgram .shiftedFrame (.split data) {}

/-- A fetch goes to the address of its instruction. -/
lemma Study.Touches.fetch {s : Study} {p n : Nat} {base address : Address} {i : Instruction}
    {reference : Reference} (hi : i ∈ (s.procedure p).codeOf n) (haddress : i.address = address) :
    s.Touches p base ⟨⟨n, address, .fetch⟩, [reference]⟩
      (reference.byte s.hierarchy.finestShift) :=
  ⟨i, hi, haddress, reference, List.mem_cons_self, .inl rfl⟩

/-- An access to the frame goes to its byte of the frame. -/
lemma Study.Touches.frame {s : Study} {p n : Nat} {base address : Address} {i : Instruction}
    {references : List Reference} {offset : Int64} (hi : i ∈ (s.procedure p).codeOf n)
    (haddress : i.address = address) (hoffset : s.frameByte? p n i = some offset) :
    s.Touches p base ⟨⟨n, address, .data⟩, references⟩ (base + offset.toUInt64) := by
  refine ⟨i, hi, haddress, ?_⟩
  simp only [if_true, hoffset]

section

variable {data : Geometry} (hdata : data = .oneWay ∨ data = .wideLines)

include hdata

/-- The actions of the two procedures: a fetch and a call, then two stores that are taken to share a
line. -/
lemma Study.shiftedFrame_actions :
    (shiftedFrame data).actions 0 0 = [.access ⟨⟨0, 0x1000, .fetch⟩, [.line .fetch 64]⟩] ∧
      (shiftedFrame data).actions 0 1 = [.call "leaf"] ∧
      (shiftedFrame data).actions 1 0 =
        [.access ⟨⟨0, 0x1040, .fetch⟩, [.line .fetch 65]⟩,
          .access ⟨⟨0, 0x1040, .data⟩, [.line .data 0x1ffffbf]⟩,
          .access ⟨⟨0, 0x1044, .fetch⟩, [.line .fetch 65]⟩,
          .access ⟨⟨0, 0x1044, .data⟩, [.line .data 0x1ffffbf]⟩] := by
  rcases hdata with rfl | rfl
  · decide +kernel
  · decide +kernel

/-- The stores of the callee go to bytes of its frame. -/
lemma Study.shiftedFrame_touches (base : Address) :
    (shiftedFrame data).Touches 1 base ⟨⟨0, 0x1040, .data⟩, [.line .data 0x1ffffbf]⟩
        (base + Int64.toUInt64 (-8)) ∧
      (shiftedFrame data).Touches 1 base ⟨⟨0, 0x1044, .data⟩, [.line .data 0x1ffffbf]⟩
        (base + Int64.toUInt64 (-24)) := by
  have hbytes : (∃ i ∈ ((shiftedFrame data).procedure 1).codeOf 0,
      i.address = 0x1040 ∧ (shiftedFrame data).frameByte? 1 0 i = some (-8)) ∧
      ∃ i ∈ ((shiftedFrame data).procedure 1).codeOf 0,
        i.address = 0x1044 ∧ (shiftedFrame data).frameByte? 1 0 i = some (-24) := by
    rcases hdata with rfl | rfl
    · decide +kernel
    · decide +kernel
  obtain ⟨⟨i, hi, haddress, hoffset⟩, j, hj, haddress', hoffset'⟩ := hbytes
  exact ⟨.frame hi haddress hoffset, .frame hj haddress' hoffset'⟩

/-- The callee is about to make its first store, at the stack pointer that the caller has moved. -/
lemma Machine.shiftedFrame_call (base : Address) (caches : Caches) {P : Frame → Prop}
    (hmain : ∀ n i sp, P ⟨0, n, i, base, sp⟩) (hleaf : ∀ i, P ⟨1, 0, i, base - 48, base - 48⟩) :
    ∃ caches' : Caches, caches' (.l1d, data) = caches (.l1d, data) ∧
      Relation.ReflTransGen
        (fun m m' : Machine => m.Steps (.shiftedFrame data) m' ∧ ∀ fr ∈ m'.stack, P fr)
        ⟨[⟨0, 0, 0, base, base⟩], caches⟩
        ⟨[⟨1, 0, 1, base - 48, base - 48⟩, ⟨0, 1, 0, base, base - 48⟩], caches'⟩ := by
  obtain ⟨hstart, hcall, hstore⟩ := Study.shiftedFrame_actions hdata
  have hnext : 1 ∈ (Program.shiftedFrame.procedures[0]).successors 0 := by decide
  have hentry : 0 ∈ (Program.shiftedFrame.procedures[1]).entries := by decide
  have hchain : (.l1d, data) ∉ (Hierarchy.split data).chain .fetch := by
    rcases hdata with rfl | rfl
    · decide
    · decide
  have moves : MovesAll ((Program.shiftedFrame.procedures[0]).codeOf 0) base (base - 48) := by
    refine ⟨base - 48, ?_, rfl⟩
    show base - 48 = base + (-48 : Int64).toUInt64
    rw [UInt64.sub_eq_add_neg]
    rfl
  have hmains (i : Nat) (sp : Address) (n : Nat) : ∀ fr ∈ [⟨0, n, i, base, sp⟩], P fr :=
    List.forall_mem_singleton.2 (hmain n i sp)
  have hleafs (i : Nat) :
      ∀ fr ∈ [⟨1, 0, i, base - 48, base - 48⟩, ⟨0, 1, 0, base, base - 48⟩], P fr :=
    List.forall_mem_cons.2 ⟨hleaf i, hmains 0 (base - 48) 1⟩
  have hfirst : Step (.shiftedFrame data) ⟨[⟨0, 0, 0, base, base⟩], caches⟩ _ _ :=
    .access (congrArg (·[0]?) hstart) (.fetch List.mem_cons_self rfl)
  have hedge (caches : Caches) : Step (.shiftedFrame data) ⟨[⟨0, 0, 1, base, base⟩], caches⟩ _
      ⟨[⟨0, 1, 0, base, base - 48⟩], caches⟩ :=
    .edge (congrArg List.length hstart).symm hnext moves
  have henter (caches : Caches) :
      Step (.shiftedFrame data) ⟨[⟨0, 1, 0, base, base - 48⟩], caches⟩ _
        ⟨[⟨1, 0, 0, base - 48, base - 48⟩, ⟨0, 1, 0, base, base - 48⟩], caches⟩ :=
    .call (congrArg (·[0]?) hcall) rfl hentry
  have hfetch (caches : Caches) : Step (.shiftedFrame data)
      ⟨[⟨1, 0, 0, base - 48, base - 48⟩, ⟨0, 1, 0, base, base - 48⟩], caches⟩ _ _ :=
    .access (congrArg (·[0]?) hstore) (.fetch List.mem_cons_self rfl)
  refine ⟨_, ?_, .tail (.tail (.tail (.single ⟨⟨_, hfirst⟩, hmains 1 base 0⟩)
    ⟨⟨_, hedge _⟩, hmains 0 (base - 48) 1⟩) ⟨⟨_, henter _⟩, hleafs 0⟩) ⟨⟨_, hfetch _⟩, hleafs 1⟩⟩
  exact (Caches.touchAll_along_of_not_mem hchain).trans (Caches.touchAll_along_of_not_mem hchain)

/-- The first store of the callee. -/
lemma Step.shiftedFrame_store (base : Address) (rest : List Frame) (caches : Caches) :
    Step (.shiftedFrame data) ⟨⟨1, 0, 1, base, base⟩ :: rest, caches⟩
      (caches.along (base + Int64.toUInt64 (-8)) ((Hierarchy.split data).chain .data))
      ⟨⟨1, 0, 2, base, base⟩ :: rest, caches.touchAll
        (caches.along (base + Int64.toUInt64 (-8)) ((Hierarchy.split data).chain .data))⟩ := by
  obtain ⟨_, _, hstore⟩ := Study.shiftedFrame_actions hdata
  have haction : ((Study.shiftedFrame data).actions 1 0)[1]? = some (.access
      ⟨⟨0, 0x1040, .data⟩, [.line .data 0x1ffffbf]⟩) := by
    rw [hstore]
    rfl
  exact @Step.access _ ⟨1, 0, 1, base, base⟩ rest caches _ _ haction
    (Study.shiftedFrame_touches hdata base).1

end

/-- Entered 16 bytes above the base, the caller has the line of the callee's first store in its
footprint. -/
theorem Study.footprints_cover_shiftedFrame :
    ∃ f e, (shiftedFrame .oneWay).classify 40 = some f ∧
      f.footprints.get? ⟨0, .l1d⟩ = some e ∧ e.unknown = false ∧
      ∃ start m m' lines, start.Enters (shiftedFrame .oneWay) 0 (0x7ffff000 + Int64.toUInt64 16) ∧
        Relation.ReflTransGen (Machine.Steps (shiftedFrame .oneWay)) start m ∧
        Step (shiftedFrame .oneWay) m lines m' ∧ lines (.l1d, .oneWay) = [0x1ffffbf] ∧
        0x1ffffbf ∈ (Call.ofEffect .oneWay 0x7ffff000 (e.calledAt (.known 16))).lines := by
  have hfound : (((shiftedFrame .oneWay).classify 40).bind fun f =>
      (f.footprints.get? ⟨0, .l1d⟩).map Effect.unknown) = some false := by
    decide +kernel
  obtain ⟨f, hclassify, hfound⟩ := Option.bind_eq_some_iff.1 hfound
  obtain ⟨e, hfootprint, hknown⟩ := Option.map_eq_some_iff.1 hfound
  have enters : Machine.Enters (shiftedFrame .oneWay) 0 (0x7ffff000 + Int64.toUInt64 16)
      ⟨[⟨0, 0, 0, 0x7ffff000 + Int64.toUInt64 16, 0x7ffff000 + Int64.toUInt64 16⟩],
        fun cache => .empty cache.2⟩ :=
    ⟨0, by decide, rfl⟩
  obtain ⟨caches, _, run⟩ := Machine.shiftedFrame_call (P := fun _ => True) (.inl rfl)
    (0x7ffff000 + Int64.toUInt64 16) (fun cache => .empty cache.2) (fun _ _ _ => trivial)
    fun _ => trivial
  have run := run.lift id fun _ _ step => step.1
  have step := Step.shiftedFrame_store (.inl rfl) (0x7ffff000 + Int64.toUInt64 16 - 48)
    [⟨0, 1, 0, 0x7ffff000 + Int64.toUInt64 16, 0x7ffff000 + Int64.toUInt64 16 - 48⟩] caches
  obtain ⟨_, cover⟩ := footprints_cover .shiftedFrame (.split .oneWay) {} rfl (by decide) (by decide)
  have nearest (kind : AccessKind) (hserves : Level.l1d.serves kind = true) :
      (Hierarchy.split .oneWay).previous? kind .l1d = none := by
    cases kind with
    | fetch => cases hserves
    | data => decide
  obtain ⟨e', hfootprint', cover⟩ :=
    cover 40 f hclassify (.l1d, .oneWay) (by decide) nearest 0 (by decide)
  cases hfootprint.symm.trans hfootprint'
  have hline : 0x1ffffbf ∈ caches.along (0x7ffff000 + Int64.toUInt64 16 - 48 + Int64.toUInt64 (-8))
      ((Hierarchy.split .oneWay).chain .data) (.l1d, .oneWay) :=
    List.mem_cons_self
  refine ⟨f, e, hclassify, hfootprint, hknown, _, _, _, _, enters, run, step, rfl, ?_⟩
  refine (cover 16 _ _ _ _ enters run step _ hline).resolve_left ?_
  rw [hknown]
  exact nofun

end CacheVerdict
