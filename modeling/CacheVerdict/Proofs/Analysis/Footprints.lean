import CacheVerdict.Proofs.Analysis.Execution
import CacheVerdict.Proofs.Program.CalleesFirst
import CacheVerdict.Proofs.StackHeight.Sound

/-!
# Footprints

What it means for an effect to cover a line when the stack pointer on entry is given, and what the
footprints that the analysis leaves behind hold: the footprint of a procedure at a level covers
what its events there touch, and for a call that is the footprint of the callee as it stands in the
end, because callees are analysed first (`exists_kept`).
-/

namespace CacheVerdict

/-- The images of a set are those of its elements. -/
lemma OrderedSet.mem_map {α β : Type} [Ord α] [Ord β] [Std.TransOrd β] [Std.LawfulEqOrd β] {f : α → β}
    {s : OrderedSet α} {b : β} : b ∈ s.map f ↔ ∃ a ∈ s, f a = b := by
  unfold OrderedSet.map
  rw [OrderedSet.mem_ofList, List.mem_map]
  rfl

namespace Effect

variable {e e' e'' : Effect} {g : Geometry} {base sp : Address} {line : Line}

/-- Whatever one effect touches, the other does. -/
structure Within (e e' : Effect) : Prop where
  lines : ∀ line ∈ e.lines, line ∈ e'.lines
  frame : ∀ offset ∈ e.frame, offset ∈ e'.frame
  unknown : e.unknown = true → e'.unknown = true

/-- An effect lies within itself. -/
lemma Within.refl (e : Effect) : e.Within e :=
  ⟨fun _ h => h, fun _ h => h, fun h => h⟩

/-- Lying within another effect is transitive. -/
lemma Within.trans (h : e.Within e') (h' : e'.Within e'') : e.Within e'' :=
  ⟨fun line hline => h'.lines line (h.lines line hline),
    fun offset hoffset => h'.frame offset (h.frame offset hoffset),
    fun hunknown => h'.unknown (h.unknown hunknown)⟩

/-- An effect lies within its union with another one. -/
lemma within_union_left (e e' : Effect) : e.Within (e.union e') :=
  ⟨fun _ h => OrderedSet.mem_union.2 (.inl h), fun _ h => OrderedSet.mem_union.2 (.inl h),
    fun h => Bool.or_eq_true_iff.2 (.inl h)⟩

/-- The other one does so too. -/
lemma within_union_right (e e' : Effect) : e'.Within (e.union e') :=
  ⟨fun _ h => OrderedSet.mem_union.2 (.inr h), fun _ h => OrderedSet.mem_union.2 (.inr h),
    fun h => Bool.or_eq_true_iff.2 (.inr h)⟩

/-- A line that may be touched when the stack pointer is `base` on entry. -/
def Covers (e : Effect) (g : Geometry) (base : Address) (line : Line) : Prop :=
  e.unknown = true ∨ line ∈ e.lines ∨ ∃ offset ∈ e.frame, line = g.lineOf (base + offset.toUInt64)

/-- A larger effect covers as much. -/
lemma Covers.mono (h : e.Covers g base line) (within : e.Within e') : e'.Covers g base line := by
  rcases h with hunknown | hline | ⟨offset, hoffset, heq⟩
  · exact .inl (within.unknown hunknown)
  · exact .inr (.inl (within.lines line hline))
  · exact .inr (.inr ⟨offset, within.frame offset hoffset, heq⟩)

/-- Moving by a distance and then by an offset is moving by both. -/
lemma add_toUInt64 (base : Address) (offset distance : Int64) :
    base + (offset + distance).toUInt64 = base + distance.toUInt64 + offset.toUInt64 := by
  rw [Int64.toUInt64_add, UInt64.add_comm offset.toUInt64, UInt64.add_assoc]

/-- What an effect covers at the stack pointer of a call, the effect of the call covers at the
caller's entry. -/
lemma Covers.calledAt {h : StackHeight} (hc : e.Covers g sp line) (hd : h.Describes base sp) :
    (e.calledAt h).Covers g base line := by
  unfold Effect.calledAt
  cases h with
  | unreached => exact absurd hd id
  | known distance =>
    have hsp : sp = base + distance.toUInt64 := hd
    rcases hc with hunknown | hline | ⟨offset, hoffset, heq⟩
    · exact .inl hunknown
    · exact .inr (.inl hline)
    · refine .inr (.inr ⟨offset + distance, OrderedSet.mem_map.2 ⟨offset, hoffset, rfl⟩, ?_⟩)
      rw [heq, hsp, add_toUInt64]
  | unknown =>
    -- a frame whose place is not known may be anywhere
    simp only [StackHeight.known?]
    split
    · rename_i hempty
      rcases hc with hunknown | hline | ⟨offset, hoffset, _⟩
      · exact .inl hunknown
      · exact .inr (.inl hline)
      · have hnil : e.frame.toList = [] := List.isEmpty_iff.1 hempty
        rw [OrderedSet.mem_def, hnil] at hoffset
        cases hoffset
    · exact .inl rfl

/-- An effect that covers a line at a distance from the base is known, or its call at that height
names the line. -/
lemma Covers.mem_lines {distance : Int64} (hc : e.Covers g (base + distance.toUInt64) line) :
    e.unknown = true ∨ line ∈ (Call.ofEffect g base (e.calledAt (.known distance))).lines := by
  rcases hc with hunknown | hline | ⟨offset, hoffset, heq⟩
  · exact .inl hunknown
  · exact .inr (OrderedSet.mem_union.2 (.inl hline))
  · refine .inr (OrderedSet.mem_union.2 (.inr (OrderedSet.mem_map.2 ⟨offset + distance, ?_, ?_⟩)))
    · exact OrderedSet.mem_map.2 ⟨offset, hoffset, rfl⟩
    · rw [heq, add_toUInt64]

end Effect

/-! ### What a footprint holds -/

namespace Summary

/-- An event only adds to an effect. -/
lemma within_touchedBy (e : Effect) (event : Event) : e.Within (touchedBy e event) := by
  cases event with
  | call c => exact Effect.within_union_left e c.effect
  | access a =>
    unfold touchedBy
    simp only
    split
    · exact ⟨fun _ h => h, fun _ h => h, fun _ => rfl⟩
    · exact ⟨fun _ h => h, fun _ h => OrderedSet.mem_insert.2 (.inr h), fun h => h⟩
    · exact ⟨fun _ h => OrderedSet.mem_insertAll.2 (.inl h), fun _ h => h, fun h => h⟩

/-- The events of a summary are those of its nodes. -/
lemma mem_events_iff {s : Summary} {event : Event} :
    event ∈ s.events.flatten ↔ ∃ n, event ∈ s.eventsOf n := by
  rw [List.mem_flatten]
  constructor
  · rintro ⟨events, hevents, hevent⟩
    obtain ⟨n, hn⟩ := List.mem_iff_getElem?.1 hevents
    refine ⟨n, ?_⟩
    rw [eventsOf, hn]
    exact hevent
  · rintro ⟨n, hevent⟩
    unfold eventsOf at hevent
    cases hn : s.events[n]? with
    | none =>
      rw [hn] at hevent
      cases hevent
    | some events =>
      rw [hn] at hevent
      exact ⟨events, List.mem_of_getElem? hn, hevent⟩

/-- Whatever an event touches is in the footprint. -/
lemma exists_within_footprint {s : Summary} {n : Nat} {event : Event}
    (hevent : event ∈ s.eventsOf n) : ∃ e : Effect, (touchedBy e event).Within s.footprint := by
  have hflat : event ∈ s.events.flatten := mem_events_iff.2 ⟨n, hevent⟩
  have hkept (events : List Event) (e : Effect) : e.Within (events.foldl touchedBy e) := by
    induction events generalizing e with
    | nil => exact .refl e
    | cons event events ih => exact (within_touchedBy e event).trans (ih _)
  unfold footprint
  obtain ⟨front, rest, hsplit⟩ := List.append_of_mem hflat
  rw [hsplit, List.foldl_append, List.foldl_cons]
  exact ⟨_, hkept rest _⟩

/-- The footprint covers whatever an event covers by itself. -/
lemma covers_footprint {s : Summary} {n : Nat} {event : Event} {g : Geometry} {base : Address}
    {line : Line} (hevent : event ∈ s.eventsOf n)
    (h : ∀ e : Effect, (touchedBy e event).Covers g base line) : s.footprint.Covers g base line := by
  obtain ⟨e, within⟩ := exists_within_footprint hevent
  exact (h e).mono within

end Summary

/-! ### Footprints in the findings -/

/-- Every footprint is that of the summary kept beside it. -/
def Findings.Matching (f : Findings) : Prop :=
  ∀ key, f.footprints.get? key = (f.summaries.get? key).map Summary.footprint

namespace Study

variable {s : Study} {fuel p : Nat} {coldStart : Bool} {f f' : Findings} {cache : Level × Geometry}

/-- Classifying a level leaves every footprint that of its summary. -/
lemma matching_classifyLevel (hf : f.Matching)
    (h : s.classifyLevel fuel p coldStart f cache = some f') : f'.Matching := by
  obtain ⟨must, _, h⟩ := Option.bind_eq_some_iff.1 h
  obtain ⟨may, _, h⟩ := Option.bind_eq_some_iff.1 h
  cases h
  intro key
  show (f.footprints.insert _ _).get? key = ((f.summaries.insert _ _).get? key).map _
  rw [OrderedMap.get?_insert, OrderedMap.get?_insert]
  split
  · rfl
  · exact hf key

/-- What each step of a fold preserves holds at its end. -/
lemma foldlM_induction {α β : Type} {P : β → Prop} {step : β → α → Option β} {l : List α} {b b' : β}
    (hstep : ∀ b, ∀ a ∈ l, ∀ b', P b → step b a = some b' → P b') (hb : P b)
    (h : l.foldlM step b = some b') : P b' := by
  induction l generalizing b with
  | nil =>
    cases h
    exact hb
  | cons a l ih =>
    rw [List.foldlM_cons] at h
    obtain ⟨b₁, hfirst, hrest⟩ := Option.bind_eq_some_iff.1 h
    exact ih (fun b a ha => hstep b a (List.mem_cons_of_mem _ ha))
      (hstep b a List.mem_cons_self b₁ hb hfirst) hrest

/-- So does the analysis of several procedures. -/
lemma matching_foldlM {procedures : List Nat} (hf : f.Matching)
    (h : procedures.foldlM (s.classifyProcedure fuel) f = some f') : f'.Matching :=
  foldlM_induction (fun _ _ _ _ hf hstep =>
    foldlM_induction (fun _ _ _ _ hf h => matching_classifyLevel hf h) hf hstep) hf h

/-- The steps for some levels of a procedure leave its other levels alone. -/
lemma agreesOn_foldlM_classifyLevel {caches : List (Level × Geometry)}
    (h : caches.foldlM (s.classifyLevel fuel p coldStart) f = some f') :
    AgreesOn p (caches.map Prod.fst) f f' := by
  induction caches generalizing f with
  | nil =>
    cases h
    exact .refl _
  | cons cache caches ih =>
    rw [List.foldlM_cons] at h
    obtain ⟨f₁, hstep, hrest⟩ := Option.bind_eq_some_iff.1 h
    have hfirst : AgreesOn p ((cache :: caches).map Prod.fst) f f₁ :=
      (agreesOn_classifyLevel hstep).mono (by simp)
    exact hfirst.trans ((ih hrest).mono (List.subset_cons_self _ _))

/-- The steps for procedures leave the others alone. -/
lemma agreesOn_foldlM_of_not_mem {procedures : List Nat} {q : Nat} (hq : q ∉ procedures)
    (h : procedures.foldlM (s.classifyProcedure fuel) f = some f') : AgreesOn q [] f f' := by
  induction procedures generalizing f with
  | nil =>
    cases h
    exact .refl _
  | cons p procedures ih =>
    rw [List.mem_cons, not_or] at hq
    rw [List.foldlM_cons] at h
    obtain ⟨f₁, hstep, hrest⟩ := Option.bind_eq_some_iff.1 h
    exact (agreesOn_foldlM_of_ne hq.1 hstep).trans (ih hq.2 hrest)

/-- The summary kept for a procedure at a level was made when the findings for the procedures listed
before it stood as they do in the end. -/
lemma exists_before (hnodup : s.callOrder.order.Nodup) (h : s.classify fuel = some f)
    {front rest : List Nat} (horder : s.callOrder.order = front ++ p :: rest)
    (hcache : cache ∈ s.hierarchy.caches.entries) :
    ∃ before : Findings, before.Matching ∧
      f.summaries.get? ⟨p, cache.1⟩ =
        some (s.summary before p cache.1 cache.2 (s.startsCold p)) ∧
      ∀ q ∈ front, AgreesOn q [] before f := by
  obtain ⟨near, far, hcaches⟩ := List.append_of_mem hcache
  have hlevels := s.hierarchy.nodup_levels
  rw [hcaches, List.map_append, List.map_cons] at hlevels
  have hlevel : cache.1 ∉ far.map Prod.fst :=
    (List.nodup_cons.1 (List.Nodup.of_append_right hlevels)).1
  -- the findings before the procedure, before the level, behind the level and behind the procedure
  unfold classify at h
  rw [horder] at h hnodup
  rw [List.foldlM_append] at h
  obtain ⟨entered, hfront, h⟩ := Option.bind_eq_some_iff.1 h
  rw [List.foldlM_cons] at h
  obtain ⟨left, hprocedure, hrest⟩ := Option.bind_eq_some_iff.1 h
  unfold classifyProcedure at hprocedure
  simp only at hprocedure
  rw [hcaches, List.foldlM_append] at hprocedure
  obtain ⟨before, hnear, hprocedure⟩ := Option.bind_eq_some_iff.1 hprocedure
  rw [List.foldlM_cons] at hprocedure
  obtain ⟨behind, hstep, hfar⟩ := Option.bind_eq_some_iff.1 hprocedure
  obtain ⟨_, hrestnodup, hdisjoint⟩ := List.nodup_append.1 hnodup
  have hp : p ∉ rest := (List.nodup_cons.1 hrestnodup).1
  refine ⟨before, ?_, ?_, ?_⟩
  · exact foldlM_induction (fun _ _ _ _ hf h => matching_classifyLevel hf h)
      (matching_foldlM (fun _ => rfl) hfront) hnear
  · obtain ⟨must, may, _, _, hsummaries, _⟩ := classifyLevel_eq_some hstep
    rw [(agreesOn_foldlM_of_not_mem hp hrest).summaries _ List.not_mem_nil,
      (agreesOn_foldlM_classifyLevel hfar).summaries _ hlevel, hsummaries,
      OrderedMap.get?_insert, if_pos rfl]
    rfl
  · intro q hq
    have hne : q ≠ p := hdisjoint q hq p List.mem_cons_self
    have hqrest : q ∉ rest := fun hmem => hdisjoint q hq q (List.mem_cons_of_mem _ hmem) rfl
    exact ((agreesOn_classifyLevel_of_ne hne hstep).trans
      (agreesOn_foldlM_of_ne hne hfar)).trans (agreesOn_foldlM_of_not_mem hqrest hrest)

/-- A node that calls does nothing else, and the procedure is one that calls the callee. -/
lemma actions_of_call {n i : Nat} {callee : String}
    (haction : (s.actions p n)[i]? = some (.call callee)) :
    s.actions p n = [.call callee] ∧
      ∃ q, s.program.procedures[p]? = some q ∧ callee ∈ q.callees := by
  have hmem := List.mem_of_getElem? haction
  unfold actions at hmem ⊢
  split at hmem
  · cases hmem
  · rename_i node hnode
    split at hmem
    · rename_i name hname
      cases List.mem_singleton.1 hmem
      refine ⟨rfl, ?_⟩
      unfold procedure at hnode
      cases hp : s.program.procedures[p]? with
      | none =>
        rw [hp] at hnode
        cases hnode
      | some q =>
        rw [hp, Option.getD_some] at hnode
        exact ⟨q, rfl, List.mem_filterMap.2 ⟨node, List.mem_of_getElem? hnode, hname⟩⟩
    · split at hmem
      · cases hmem
      · obtain ⟨_, _, hne⟩ := List.mem_map.1 hmem
        cases hne

/-- A node that calls a procedure of the program. -/
lemma calls_of_action {n i c : Nat} {callee : String}
    (haction : (s.actions p n)[i]? = some (.call callee))
    (hc : s.program.procedureNamed? callee = some c) : s.program.Calls p c := by
  obtain ⟨_, q, hq, hcallee⟩ := actions_of_call haction
  unfold Program.Calls Program.calleesOf
  rw [hq]
  exact OrderedSet.mem_ofList.2 (List.mem_filterMap.2 ⟨callee, hcallee, hc⟩)

/-- The effect of a call is the footprint of the callee, unless the call closes a cycle. -/
lemma calleeEffect_eq {c : Nat} {callee : String} {level : Level} {e : Effect}
    (hc : s.program.procedureNamed? callee = some c)
    (hfootprint : f.footprints.get? ⟨c, level⟩ = some e) :
    s.calleeEffect f p callee level =
      if ⟨p, c⟩ ∈ s.callOrder.recursive then s.unknownCallee else e := by
  unfold calleeEffect
  rw [hc]
  simp only [hfootprint, Option.getD_some]

/-- A level's summary and footprint of a procedure, as they stand in the end. Calls in it have the
effects that the final footprints of their callees give them. -/
structure Kept (s : Study) (p : Nat) (cache : Level × Geometry) (f before : Findings) : Prop where
  summary : f.summaries.get? ⟨p, cache.1⟩ =
    some (s.summary before p cache.1 cache.2 (s.startsCold p))
  footprint : f.footprints.get? ⟨p, cache.1⟩ =
    some (s.summary before p cache.1 cache.2 (s.startsCold p)).footprint
  effect : ∀ {n i : Nat} {callee : String}, (s.actions p n)[i]? = some (.call callee) →
    s.calleeEffect before p callee cache.1 = s.calleeEffect f p callee cache.1

/-- Callees are analysed first, so the effect of a call is that of the final footprint. -/
theorem exists_kept (hs : s.callOrder = s.program.callOrder) (h : s.classify fuel = some f)
    (hp : p < s.program.procedures.length) (hcache : cache ∈ s.hierarchy.caches.entries) :
    ∃ before, s.Kept p cache f before := by
  have hnodup : s.callOrder.order.Nodup := hs ▸ s.program.nodup_callOrder
  have hmem : p ∈ s.callOrder.order := hs ▸ Program.mem_callOrder hp
  obtain ⟨front, rest, horder⟩ := List.append_of_mem hmem
  obtain ⟨before, matching, hsummary, agrees⟩ := exists_before hnodup h horder hcache
  have matching' : f.Matching := matching_foldlM (fun _ => rfl) h
  refine ⟨before, hsummary, by rw [matching', hsummary, Option.map_some], ?_⟩
  intro n i callee haction
  unfold calleeEffect
  split
  · rfl
  · rename_i c hc
    split
    · rfl
    · rename_i hrecursive
      have hfront : c ∈ front := by
        rw [hs] at horder hrecursive
        exact (Program.calleesFirst_callOrder horder (calls_of_action haction hc)).resolve_right
          hrecursive
      rw [matching, matching', (agrees c hfront).summaries _ List.not_mem_nil]

end Study

end CacheVerdict
