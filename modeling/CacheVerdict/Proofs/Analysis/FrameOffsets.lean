import CacheVerdict.Proofs.Analysis.Completeness
import CacheVerdict.Proofs.Analysis.FootprintCovers

/-!
# Frame offsets of accesses

References are kept by node and address, offsets into the frame by address alone. So the event of an
access goes to the lines that its own instruction is resolved to (`Prepared.exists_instruction`), while
accesses at one address in different nodes share an offset, which is that of their own instructions if
these are all resolved alike (`Prepared.frameOffset_eq`), and only then. Main statement: the offsets of
events are their own exactly where accesses that share an address agree, and if all of them do,
footprints are made of what the accesses touch by themselves (`Study.frameOffsets_own_iff`).
-/

namespace CacheVerdict

/-! ### What footprints are made of -/

namespace Summary

variable {s : Summary} {e : Effect} {event : Event}

/-- What is true of a footprint is true of an event's part in it, if events only add to it. -/
lemma footprint_iff {P : Effect → Prop} {Q : Event → Prop} (hempty : ¬P {})
    (hevent : ∀ e event, P (touchedBy e event) ↔ P e ∨ Q event) :
    P s.footprint ↔ ∃ n, ∃ event ∈ s.eventsOf n, Q event := by
  have hfold (events : List Event) (e : Effect) :
      P (events.foldl touchedBy e) ↔ P e ∨ ∃ event ∈ events, Q event := by
    induction events generalizing e with
    | nil => simp
    | cons event events ih =>
      rw [List.foldl_cons, ih, hevent, List.exists_mem_cons_iff, or_assoc]
  unfold footprint
  rw [hfold, or_iff_right hempty]
  constructor
  · rintro ⟨event, hmem, hQ⟩
    obtain ⟨n, hn⟩ := mem_events_iff.1 hmem
    exact ⟨n, event, hn, hQ⟩
  · rintro ⟨n, event, hn, hQ⟩
    exact ⟨event, mem_events_iff.2 ⟨n, hn⟩, hQ⟩

/-- The lines that an event adds to a footprint. -/
def addsLine (line : Line) : Event → Prop
  | .access a => a.frameOffset = none ∧ line ∈ a.target.toList
  | .call c => line ∈ c.effect.lines

/-- The bytes of the frame that an event adds to a footprint. -/
def addsByte (offset : Int64) : Event → Prop
  | .access a => a.frameOffset = some offset ∧ a.target ≠ .unknown
  | .call c => offset ∈ c.effect.frame

/-- Whether a footprint that the event is added to may be anything. -/
def addsUnknown : Event → Prop
  | .access a => a.target = .unknown
  | .call c => c.effect.unknown = true

/-- An event adds the lines that it may touch. -/
lemma mem_lines_touchedBy {line : Line} :
    line ∈ (touchedBy e event).lines ↔ line ∈ e.lines ∨ addsLine line event := by
  cases event with
  | call c => exact OrderedSet.mem_union
  | access a =>
    obtain ⟨_, target, _, frameOffset⟩ := a
    cases target with
    | unknown => simp [touchedBy, addsLine, Target.toList]
    | lines candidates =>
      cases frameOffset with
      | some offset => simp [touchedBy, addsLine]
      | none => simp [touchedBy, addsLine, Target.toList, OrderedSet.mem_insertAll]

/-- An event adds the byte of the frame that it goes to. -/
lemma mem_frame_touchedBy {offset : Int64} :
    offset ∈ (touchedBy e event).frame ↔ offset ∈ e.frame ∨ addsByte offset event := by
  cases event with
  | call c => exact OrderedSet.mem_union
  | access a =>
    obtain ⟨_, target, _, frameOffset⟩ := a
    cases target with
    | unknown => simp [touchedBy, addsByte]
    | lines candidates =>
      cases frameOffset with
      | some offset' => simp [touchedBy, addsByte, OrderedSet.mem_insert, or_comm, eq_comm]
      | none => simp [touchedBy, addsByte]

/-- An event may make an effect unknown, and none makes it known again. -/
lemma unknown_touchedBy :
    (touchedBy e event).unknown = true ↔ e.unknown = true ∨ addsUnknown event := by
  cases event with
  | call c => exact Bool.or_eq_true_iff
  | access a =>
    obtain ⟨_, target, _, frameOffset⟩ := a
    cases target with
    | unknown => simp [touchedBy, addsUnknown]
    | lines candidates => cases frameOffset <;> simp [touchedBy, addsUnknown]

/-- The lines of a footprint are those that some event adds. -/
lemma mem_lines_footprint {line : Line} :
    line ∈ s.footprint.lines ↔ ∃ n, ∃ event ∈ s.eventsOf n, addsLine line event :=
  footprint_iff (P := fun e => line ∈ e.lines) (OrderedSet.not_mem_empty line)
    fun _ _ => mem_lines_touchedBy

/-- The bytes of the frame in a footprint are those that some event adds. -/
lemma mem_frame_footprint {offset : Int64} :
    offset ∈ s.footprint.frame ↔ ∃ n, ∃ event ∈ s.eventsOf n, addsByte offset event :=
  footprint_iff (P := fun e => offset ∈ e.frame) (OrderedSet.not_mem_empty offset)
    fun _ _ => mem_frame_touchedBy

/-- A footprint is unknown if some event makes it so. -/
lemma unknown_footprint :
    s.footprint.unknown = true ↔ ∃ n, ∃ event ∈ s.eventsOf n, addsUnknown event :=
  footprint_iff (P := fun e => e.unknown = true) Bool.false_ne_true fun _ _ => unknown_touchedBy

end Summary

/-! ### Offsets by address -/

namespace Study

variable {s : Study} {f : Findings} {p n : Nat} {cache : Level × Geometry} {coldStart : Bool}
  {a : Access} {i j : Instruction} {x : Address} {offset : Int64}

/-- The access comes from an instruction that is resolved to a byte of the frame. -/
def OnFrame (s : Study) (p : Nat) (site : Site) (offset : Int64) : Prop :=
  site.kind = .data ∧ ∃ i ∈ (s.procedure p).codeOf site.node, i.address = site.instruction ∧
    i.isAccess = true ∧
      ∃ address, (s.resolved p site.node i).resolution.outcome = .stack address offset

/-- A byte of the frame is one that the access is resolved to. -/
lemma frameByte?_eq_some_iff : s.frameByte? p n i = some offset ↔ i.isAccess = true ∧
    ∃ address, (s.resolved p n i).resolution.outcome = .stack address offset := by
  rw [frameByte?_eq_some]
  refine and_congr_right fun _ => ?_
  unfold ReferenceTable.frameOffset?
  constructor
  · intro h
    split at h
    · rename_i address offset' houtcome
      cases h
      exact ⟨address, houtcome⟩
    · cases h
  · rintro ⟨address, houtcome⟩
    rw [houtcome]
    rfl

/-- An access goes to a byte of the frame if an instruction of its address in its node does. -/
lemma onFrame_iff {site : Site} : s.OnFrame p site offset ↔ site.kind = .data ∧
    ∃ i ∈ (s.procedure p).codeOf site.node, i.address = site.instruction ∧
      s.frameByte? p site.node i = some offset := by
  simp only [OnFrame, frameByte?_eq_some_iff]

/-! ### Offsets of events -/

/-- The instructions of a node have different addresses as well. -/
lemma DistinctAddresses.codeOf (distinct : s.DistinctAddresses p) (n : Nat) :
    (((s.procedure p).codeOf n).map Instruction.address).Nodup := by
  unfold Procedure.codeOf
  cases hnode : (s.procedure p).nodes[n]? with
  | none => exact List.nodup_nil
  | some node => exact distinct node (List.mem_of_getElem? hnode)

/-- The event of an access has the offset that the table holds for its address. -/
lemma frameOffset_of_event
    (hevent : .access a ∈ (s.summary f p cache.1 cache.2 coldStart).eventsOf n) :
    a.frameOffset = if a.site.kind = .data then
      (s.referencesOf p).frameOffsets.get? a.site.instruction else none := by
  rw [eventsOf_summary] at hevent
  obtain ⟨action, _, hevent⟩ := List.mem_filterMap.1 hevent
  cases action with
  | call => cases hevent
  | access r =>
    rw [eventAt?_request] at hevent
    split at hevent
    · unfold accessEvent? at hevent
      simp only at hevent
      split at hevent
      · cases hevent
      · cases hevent
        rfl
    · cases hevent

/-- The lines of a cache that an access of a node is resolved to. -/
def resolvedTarget (s : Study) (p n : Nat) (i : Instruction) (g : Geometry) : Target :=
  targetOf s.hierarchy.finestShift g
    (.ofList ((s.resolved p n i).resolution.blocks.map (.ofBlock s.hierarchy.finestShift)))

/-- It comes from a load or store of its node, and goes where this is resolved to. -/
lemma Prepared.exists_instruction (prepared : s.Prepared) (hp : p < s.program.procedures.length)
    (distinct : s.DistinctAddresses p)
    (hevent : .access a ∈ (s.summary f p cache.1 cache.2 coldStart).eventsOf n)
    (hkind : a.site.kind = .data) :
    a.site.node = n ∧ ∃ i ∈ (s.procedure p).codeOf n, i.address = a.site.instruction ∧
      i.isAccess = true ∧ a.target = s.resolvedTarget p n i cache.2 := by
  refine ⟨node_of_event hevent, ?_⟩
  rw [eventsOf_summary] at hevent
  obtain ⟨action, haction, hevent⟩ := List.mem_filterMap.1 hevent
  obtain ⟨r, rfl, hsite, _, htarget, _⟩ := eventAt?_eq_access hevent
  rw [hsite] at hkind ⊢
  obtain ⟨i, hi, hr⟩ := (prepared.mem_actions hp).1 haction
  rcases NodeReferences.mem_requests.1 hr with ⟨_, _, rfl⟩ | ⟨references, hget, rfl⟩
  · cases hkind
  · -- references are kept by node, so that those at the address are of the instruction itself
    rw [nodeReferences, ReferenceTable.get?_data (distinct.codeOf n) hi] at hget
    split at hget
    · rename_i haccess
      cases hget
      refine ⟨i, hi, rfl, haccess, ?_⟩
      rw [htarget]
      simp [Request.targetAt, resolvedTarget, targetOf, resolved]
    · cases hget

/-- At the nearest level for data, every load and store is an event. -/
lemma Prepared.exists_event (prepared : s.Prepared) (hp : p < s.program.procedures.length)
    (hi : i ∈ (s.procedure p).codeOf n) (haccess : i.isAccess = true) (f : Findings)
    (coldStart : Bool) :
    ∃ cache ∈ s.hierarchy.caches.entries, ∃ a,
      .access a ∈ (s.summary f p cache.1 cache.2 coldStart).eventsOf n ∧
        a.site = ⟨n, i.address, .data⟩ := by
  have hdata : AccessKind.data = .data → i.isAccess = true := fun _ => haccess
  obtain ⟨r, hr, hsite⟩ := exists_request_of_mem_codeOf hi hdata
  obtain ⟨cache, behind, hchain⟩ : ∃ cache behind,
      s.hierarchy.chain r.site.kind = [] ++ cache :: behind := by
    cases hchain : s.hierarchy.chain r.site.kind with
    | cons cache behind => exact ⟨cache, behind, rfl⟩
    | nil =>
      obtain ⟨level, hlevel, hserves⟩ := s.hierarchy.served r.site.kind
      obtain ⟨cache, hcache, rfl⟩ := List.mem_map.1 hlevel
      have hmem : cache ∈ s.hierarchy.chain r.site.kind := List.mem_filter.2 ⟨hcache, hserves⟩
      rw [hchain] at hmem
      cases hmem
  have hmem : cache ∈ s.hierarchy.chain r.site.kind := hchain ▸ List.mem_cons_self
  obtain ⟨hcache, hserves⟩ := List.mem_filter.1 hmem
  have hreach : s.reachOf f p r.site cache.1 ≠ .never := by
    rw [reachOf_first hchain]
    nofun
  obtain ⟨frameOffset, hevent⟩ := eventAt?_access (n := n) hserves hreach
  refine ⟨cache, hcache, ⟨r.site, r.targetAt s.hierarchy.finestShift cache.2,
    s.reachOf f p r.site cache.1, frameOffset⟩, ?_, hsite⟩
  rw [eventsOf_summary]
  exact List.mem_filterMap.2 ⟨_, (prepared.mem_actions hp).2 ⟨i, hi, hr⟩, hevent⟩

/-- Where accesses are alike, events have the offsets of their own instructions. -/
lemma Prepared.frameOffset_eq (prepared : s.Prepared) (hp : p < s.program.procedures.length)
    (distinct : s.DistinctAddresses p)
    (hevent : .access a ∈ (s.summary f p cache.1 cache.2 coldStart).eventsOf n)
    (alike : s.SharedAlike p a.site.instruction) (offset : Int64) :
    a.frameOffset = some offset ↔ s.OnFrame p a.site offset := by
  rw [frameOffset_of_event hevent, onFrame_iff]
  split
  · rename_i hkind
    obtain ⟨rfl, i, hi, haddress, haccess, _⟩ := prepared.exists_instruction hp distinct hevent hkind
    rw [← haddress] at alike ⊢
    rw [prepared.get?_frameOffsets_of_alike hp hi haccess alike]
    constructor
    · intro hbyte
      exact ⟨hkind, i, hi, rfl, hbyte⟩
    · rintro ⟨_, j, hj, haddress', hbyte⟩
      rw [← hbyte]
      exact alike _ _ i hi j hj rfl haddress' haccess (frameByte?_eq_some.1 hbyte).1
  · rename_i hkind
    exact iff_of_false nofun fun h => hkind h.1

/-- And if events do, the accesses are alike. -/
lemma Prepared.sharedAlike (prepared : s.Prepared) (hp : p < s.program.procedures.length)
    (distinct : s.DistinctAddresses p)
    (own : ∀ cache ∈ s.hierarchy.caches.entries, ∀ n a,
      .access a ∈ (s.summary f p cache.1 cache.2 coldStart).eventsOf n → a.site.kind = .data →
        a.site.instruction = x → ∀ offset, a.frameOffset = some offset ↔ s.OnFrame p a.site offset) :
    s.SharedAlike p x := by
  -- each access has the offset that the table holds
  have hown {n : Nat} {i : Instruction} (hi : i ∈ (s.procedure p).codeOf n) (hix : i.address = x)
      (haccess : i.isAccess = true) :
      s.frameByte? p n i = (s.referencesOf p).frameOffsets.get? x := by
    obtain ⟨cache, hcache, a, hevent, hsite⟩ := prepared.exists_event hp hi haccess f coldStart
    have hoffset := frameOffset_of_event hevent
    have hiff := own cache hcache n a hevent (by rw [hsite]) (by rw [hsite]; exact hix)
    rw [hoffset, hsite, if_pos rfl] at hiff
    refine Option.ext fun offset => ?_
    rw [← hix, hiff, onFrame_iff]
    constructor
    · intro hbyte
      exact ⟨rfl, i, hi, rfl, hbyte⟩
    · rintro ⟨_, j, hj, haddress, hbyte⟩
      cases List.inj_on_of_nodup_map (distinct.codeOf n) hj hi haddress
      exact hbyte
  intro m n i hi j hj hix hjx haccess haccess'
  rw [hown hi hix haccess, hown hj hjx haccess']

/-! ### Footprints -/

/-- The footprint of a summary is made of what each access touches by itself, its byte of the frame or
else its lines, and of the effects of calls. -/
structure OwnFootprint (s : Study) (p : Nat) (summary : Summary) : Prop where
  lines : ∀ line, line ∈ summary.footprint.lines ↔ ∃ n,
    (∃ a, .access a ∈ summary.eventsOf n ∧ line ∈ a.target.toList ∧ ∀ o, ¬s.OnFrame p a.site o) ∨
      ∃ c, .call c ∈ summary.eventsOf n ∧ line ∈ c.effect.lines
  frame : ∀ offset, offset ∈ summary.footprint.frame ↔ ∃ n,
    (∃ a, .access a ∈ summary.eventsOf n ∧ a.target ≠ .unknown ∧ s.OnFrame p a.site offset) ∨
      ∃ c, .call c ∈ summary.eventsOf n ∧ offset ∈ c.effect.frame
  unknown : summary.footprint.unknown = true ↔ ∃ n,
    (∃ a, .access a ∈ summary.eventsOf n ∧ a.target = .unknown) ∨
      ∃ c, .call c ∈ summary.eventsOf n ∧ c.effect.unknown = true

/-- Events are accesses or calls. -/
lemma exists_event_iff {events : List Event} {Q : Event → Prop} :
    (∃ event ∈ events, Q event) ↔
      (∃ a, .access a ∈ events ∧ Q (.access a)) ∨ ∃ c, .call c ∈ events ∧ Q (.call c) := by
  constructor
  · rintro ⟨event, hevent, hQ⟩
    cases event with
    | access a => exact .inl ⟨a, hevent, hQ⟩
    | call c => exact .inr ⟨c, hevent, hQ⟩
  · rintro (⟨a, hevent, hQ⟩ | ⟨c, hevent, hQ⟩)
    · exact ⟨_, hevent, hQ⟩
    · exact ⟨_, hevent, hQ⟩

/-- It is if events have the offsets of their own instructions. -/
lemma ownFootprint {summary : Summary} (own : ∀ n a, .access a ∈ summary.eventsOf n →
    ∀ offset, a.frameOffset = some offset ↔ s.OnFrame p a.site offset) :
    s.OwnFootprint p summary := by
  refine ⟨fun line => ?_, fun offset => ?_, ?_⟩
  · rw [Summary.mem_lines_footprint]
    refine exists_congr fun n => exists_event_iff.trans (or_congr_left (exists_congr fun a => ?_))
    refine and_congr_right fun hevent => ?_
    simp only [Summary.addsLine]
    rw [and_comm, Option.eq_none_iff_forall_ne_some]
    exact and_congr_right fun _ => forall_congr' fun o => not_congr (own n a hevent o)
  · rw [Summary.mem_frame_footprint]
    refine exists_congr fun n => exists_event_iff.trans (or_congr_left (exists_congr fun a => ?_))
    refine and_congr_right fun hevent => ?_
    simp only [Summary.addsByte]
    rw [and_comm]
    exact and_congr_right fun _ => own n a hevent offset
  · rw [Summary.unknown_footprint]
    exact exists_congr fun n => exists_event_iff

/-- At an address, all accesses to the frame have the offsets of their own instructions exactly if
the accesses there agree, in whatever nodes they stand. If they do at all addresses, the footprint
of the procedure is made of what each access touches by itself. -/
theorem frameOffsets_own_iff (program : Program) (hierarchy : Hierarchy) (settings : Settings)
    {p : Nat} {q : Procedure} (hq : program.procedures[p]? = some q)
    (distinct : ∀ node ∈ q.nodes, (node.code.map Instruction.address).Nodup) (f : Findings)
    (coldStart : Bool) :
    (∀ x, (∀ cache ∈ hierarchy.caches.entries, ∀ n a,
        .access a ∈ ((ofProgram program hierarchy settings).summary f p cache.1 cache.2
          coldStart).eventsOf n → a.site.kind = .data → a.site.instruction = x →
        ∀ offset, a.frameOffset = some offset ↔
          (ofProgram program hierarchy settings).OnFrame p a.site offset) ↔
      (ofProgram program hierarchy settings).SharedAlike p x) ∧
    (∀ cache ∈ hierarchy.caches.entries, ∀ n a,
      .access a ∈ ((ofProgram program hierarchy settings).summary f p cache.1 cache.2
        coldStart).eventsOf n → a.site.kind = .data →
      ∃ i ∈ q.codeOf n, i.address = a.site.instruction ∧ i.isAccess = true ∧
        a.target = (ofProgram program hierarchy settings).resolvedTarget p n i cache.2) ∧
    ((∀ x, (ofProgram program hierarchy settings).SharedAlike p x) →
      ∀ cache ∈ hierarchy.caches.entries, (ofProgram program hierarchy settings).OwnFootprint p
        ((ofProgram program hierarchy settings).summary f p cache.1 cache.2 coldStart)) := by
  have prepared := prepared_ofProgram program hierarchy settings
  obtain ⟨hp, _⟩ := List.getElem?_eq_some_iff.1 hq
  have hprocedure : (ofProgram program hierarchy settings).procedure p = q := procedure_eq hq
  have distinct' : (ofProgram program hierarchy settings).DistinctAddresses p := by
    rw [DistinctAddresses, hprocedure]
    exact distinct
  refine ⟨fun x => ⟨prepared.sharedAlike hp distinct', ?_⟩, ?_, ?_⟩
  · rintro alike cache _ n a hevent _ rfl offset
    exact prepared.frameOffset_eq hp distinct' hevent alike offset
  · intro cache _ n a hevent hkind
    exact hprocedure ▸ (prepared.exists_instruction hp distinct' hevent hkind).2
  · intro alike cache _
    exact ownFootprint fun n a hevent offset =>
      prepared.frameOffset_eq hp distinct' hevent (alike _) offset

end Study

/-! ### Two nodes that share an address -/

/-- A load from the frame. -/
def Instruction.frameLoad : Instruction :=
  ⟨0x1000, .access ⟨[⟨"sp"⟩], some "#8", false, false, none⟩, "ldr x0, [sp, #8]"⟩

/-- A load from a segment at the same address. -/
def Instruction.segmentLoad : Instruction :=
  ⟨0x1000, .access ⟨[⟨"x1"⟩], none, false, false, none⟩, "ldr x0, [x1]"⟩

/-- What makes its address. -/
def Instruction.segmentPage : Instruction :=
  ⟨0xffc, .page ⟨"x1"⟩ "0x2000", "adrp x1, 2000"⟩

/-- A procedure with two nodes, the second of which loads from the frame. -/
def Procedure.sharedAddress (code : List Instruction) : Procedure where
  name := "main"
  nodes := [⟨"first", .straight code⟩, ⟨"second", .straight [.frameLoad]⟩]
  edges := [⟨none, 0⟩, ⟨some 0, 1⟩]

/-- The program of the procedure, with a segment. -/
def Program.sharedAddress (code : List Instruction) : Program where
  segments := { data := [⟨".data", "WA", 0x2000, 0x2040⟩] }
  procedures := [.sharedAddress code]

/-- Its study, with a cache for data. -/
abbrev Study.sharedAddress (code : List Instruction) : Study :=
  .ofProgram (.sharedAddress code) (.split .oneWay) {}

/-- If the first node loads from the same byte of the frame, the accesses are alike. -/
lemma Study.sharedAlike_sharedAddress (x : Address) :
    (sharedAddress [.frameLoad]).SharedAlike 0 x := by
  have hbyte {n : Nat} {i : Instruction}
      (hi : i ∈ ((sharedAddress [.frameLoad]).procedure 0).codeOf n) :
      (sharedAddress [.frameLoad]).frameByte? 0 n i = some 8 := by
    match n with
    | 0 =>
      rw [List.mem_singleton.1 hi]
      decide +kernel
    | 1 =>
      rw [List.mem_singleton.1 hi]
      decide +kernel
    | n + 2 => cases hi
  intro m n i hi j hj _ _ _ _
  rw [hbyte hi, hbyte hj]

/-- Then both accesses have their own offset and lines, and the footprint is the byte. -/
theorem Study.frameOffsets_own_iff_sharedAddress :
    (∀ n a, .access a ∈ ((sharedAddress [.frameLoad]).summary {} 0 .l1d .oneWay true).eventsOf n →
      a.site.kind = .data → a.site.instruction = 0x1000 →
      ∀ offset, a.frameOffset = some offset ↔
        (sharedAddress [.frameLoad]).OnFrame 0 a.site offset) ∧
    (∀ n a, .access a ∈ ((sharedAddress [.frameLoad]).summary {} 0 .l1d .oneWay true).eventsOf n →
      a.site.kind = .data → ∃ i ∈ (Procedure.sharedAddress [.frameLoad]).codeOf n,
        i.address = a.site.instruction ∧ i.isAccess = true ∧
          a.target = (sharedAddress [.frameLoad]).resolvedTarget 0 n i .oneWay) ∧
    (sharedAddress [.frameLoad]).OwnFootprint 0
      ((sharedAddress [.frameLoad]).summary {} 0 .l1d .oneWay true) := by
  obtain ⟨offsets, targets, footprint⟩ := frameOffsets_own_iff (.sharedAddress [.frameLoad])
    (.split .oneWay) {} (p := 0) (q := .sharedAddress [.frameLoad]) rfl (by decide) {} true
  have hcache : (Level.l1d, Geometry.oneWay) ∈ (Hierarchy.split .oneWay).caches.entries := by decide
  refine ⟨?_, ?_, ?_⟩
  · exact (offsets 0x1000).2 (sharedAlike_sharedAddress _) (.l1d, .oneWay) hcache
  · exact targets (.l1d, .oneWay) hcache
  · exact footprint sharedAlike_sharedAddress (.l1d, .oneWay) hcache

/-- If the first node loads from the segment, it gets the offset of the second, and its line is missing
from the footprint. -/
theorem Study.frameOffset_foreign_sharedAddress :
    (∀ node ∈ (Procedure.sharedAddress [.segmentPage, .segmentLoad]).nodes,
      (node.code.map Instruction.address).Nodup) ∧
    ((sharedAddress [.segmentPage, .segmentLoad]).resolved 0 0 .segmentLoad).resolution.outcome =
      .segment ".data" 0x2000 ∧
    .access ⟨⟨0, 0x1000, .data⟩, .lines [0x80], .always, some 8⟩ ∈
      ((sharedAddress [.segmentPage, .segmentLoad]).summary {} 0 .l1d .oneWay true).eventsOf 0 ∧
    ((sharedAddress [.segmentPage, .segmentLoad]).summary {} 0 .l1d .oneWay true).footprint =
      { frame := .ofList [8] } :=
  ⟨by decide, by decide +kernel, by decide +kernel, by decide +kernel⟩

end CacheVerdict
