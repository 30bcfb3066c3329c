import CacheVerdict.Proofs.Analysis.FootprintCovers
import CacheVerdict.Proofs.Analysis.Multilevel
import CacheVerdict.Proofs.Cache.Relabel
import CacheVerdict.Proofs.Hierarchy.Lines

/-!
# Places of frames

The analysis takes every procedure to be entered with the stack pointer at the base. Entered
elsewhere, a procedure finds its frame in other lines. Where these stand to one another and to the
rest of the footprint as the analysed ones do (`Frame.Placed`), they can be given the names of the
analysed ones (`Frame.Named`). Under these names, an access goes to a line that its level takes it
to go to (`Frame.Named.requests`), and a call touches lines of its event
(`Frame.Named.mem_lines`).
-/

namespace CacheVerdict

/-! ### References of accesses to the frame -/

namespace Study

variable {s : Study} {p n : Nat} {r : Request} {i : Instruction}

/-- A request for data holds the references of every access at its address. -/
lemma mem_references (prepared : s.Prepared) (hp : p < s.program.procedures.length)
    (hr : .access r ∈ s.actions p n) (hkind : r.site.kind = .data)
    (hi : i ∈ (s.procedure p).codeOf n) (haddress : i.address = r.site.instruction)
    (haccess : i.isAccess = true) {block : Block}
    (hblock : block ∈ (s.resolved p n i).resolution.blocks) :
    .ofBlock s.hierarchy.finestShift block ∈ r.references := by
  obtain ⟨j, _, hr⟩ := (prepared.mem_actions hp).1 hr
  rcases NodeReferences.mem_requests.1 hr with ⟨_, _, rfl⟩ | ⟨references, hget, rfl⟩
  · cases hkind
  · obtain ⟨kept, hkept, hown⟩ := ReferenceTable.exists_data
      (ReferenceTable.mem_accesses.2 ⟨i, hi, haccess, rfl⟩)
    rw [show i.address = j.address from haddress] at hkept
    cases hget.symm.trans hkept
    exact hown block hblock

/-- A request for a byte of the frame may go to the line of the byte, placed at the base. -/
lemma admits_frameByte (prepared : s.Prepared) (hp : p < s.program.procedures.length)
    (hr : .access r ∈ s.actions p n) (hkind : r.site.kind = .data)
    (hi : i ∈ (s.procedure p).codeOf n) (haddress : i.address = r.site.instruction)
    {offset : Int64} (hoffset : s.frameByte? p n i = some offset) {cache : Level × Geometry}
    (hcache : cache ∈ s.hierarchy.caches.entries) :
    (r.targetAt s.hierarchy.finestShift cache.2).Admits
      (cache.2.lineOf (s.settings.stackBase + offset.toUInt64)) := by
  unfold frameByte? at hoffset
  split at hoffset
  · rename_i haccess
    obtain ⟨⟨_, _⟩, hframe, rfl⟩ := Option.map_eq_some_iff.1 hoffset
    unfold ReferenceTable.frameOffset? at hframe
    split at hframe
    · rename_i address offset' houtcome
      cases hframe
      have hblocks := Resolution.blocks_of_stack houtcome
      have hreference := mem_references prepared hp hr hkind hi haddress haccess
        (hblocks ▸ List.mem_cons_self)
      unfold Request.targetAt
      split
      · trivial
      · rename_i hknown
        refine OrderedSet.mem_ofList.2 (List.mem_map.2 ⟨_, hreference, ?_⟩)
        unfold Reference.ofBlock at hreference ⊢
        split at hreference
        · exact absurd ⟨hkind, List.any_eq_true.2 ⟨_, hreference, rfl⟩⟩ hknown
        · rename_i hbyte
          rw [if_neg hbyte]
          exact Geometry.lineOf_shift (Hierarchy.finestShift_le hcache) _
    · cases hframe
  · cases hoffset

end Study

/-! ### Frames in other places -/

/-- The lines of an effect when the stack pointer is `sp` on entry, each with the one that takes its
place when the stack pointer is `base`. -/
def Effect.places (e : Effect) (g : Geometry) (sp base : Address) : List (Line × Line) :=
  e.lines.toList.map (fun line => (line, line)) ++
    e.frame.toList.map fun offset =>
      (g.lineOf (sp + offset.toUInt64), g.lineOf (base + offset.toUInt64))

/-- At every level, the lines of the footprint stand to one another as those that are analysed. -/
def Frame.Placed (s : Study) (f : Findings) (fr : Frame) : Prop :=
  ∀ cache ∈ s.hierarchy.caches.entries, ∀ e, f.footprints.get? ⟨fr.procedure, cache.1⟩ = some e →
    Alike cache.2 (e.places cache.2 fr.base s.settings.stackBase)

/-- Names for the lines of every cache. -/
def Names : Type := ∀ cache : Level × Geometry, Relabelling cache.2

/-- The caches with their lines under other names. -/
def Caches.relabel (names : Names) (caches : Caches) : Caches :=
  fun cache => (caches cache).relabel (names cache)

/-- The lines of the footprint have the names of those that are analysed. -/
structure Frame.Named (s : Study) (f : Findings) (names : Names) (fr : Frame) : Prop where
  lines : ∀ cache ∈ s.hierarchy.caches.entries, ∀ e,
    f.footprints.get? ⟨fr.procedure, cache.1⟩ = some e → ∀ line ∈ e.lines, names cache line = line
  frame : ∀ cache ∈ s.hierarchy.caches.entries, ∀ e,
    f.footprints.get? ⟨fr.procedure, cache.1⟩ = some e → ∀ offset ∈ e.frame,
    names cache (cache.2.lineOf (fr.base + offset.toUInt64)) =
      cache.2.lineOf (s.settings.stackBase + offset.toUInt64)

section

variable {s : Study} {f : Findings} {fr : Frame} {names : Names} {cache : Level × Geometry}

/-- A procedure that is entered at the base finds its frame where it is analysed. -/
lemma Frame.placed_of_base (h : fr.base = s.settings.stackBase) : fr.Placed s f := by
  intro cache _ e _
  have hsame : ∀ x ∈ e.places cache.2 fr.base s.settings.stackBase, x.1 = x.2 := by
    intro x hx
    rcases List.mem_append.1 hx with hx | hx
    · obtain ⟨_, _, rfl⟩ := List.mem_map.1 hx
      rfl
    · obtain ⟨_, _, rfl⟩ := List.mem_map.1 hx
      rw [h]
  intro x hx
  refine ⟨by rw [hsame x hx], ?_⟩
  intro y hy
  rw [hsame x hx, hsame y hy]

/-- Lines that are placed as the analysed ones can be named after them. -/
lemma Frame.Placed.exists_named (placed : fr.Placed s f) : ∃ names, fr.Named s f names := by
  have hcache (cache : Level × Geometry) : ∃ φ : Relabelling cache.2,
      cache ∈ s.hierarchy.caches.entries → ∀ e,
        f.footprints.get? ⟨fr.procedure, cache.1⟩ = some e →
        ∀ x ∈ e.places cache.2 fr.base s.settings.stackBase, φ x.1 = x.2 := by
    rcases Decidable.em (cache ∈ s.hierarchy.caches.entries) with hmem | hmem
    · cases hfootprint : f.footprints.get? ⟨fr.procedure, cache.1⟩ with
      | none => exact ⟨.refl _, fun _ _ h => nomatch h⟩
      | some e =>
        obtain ⟨φ, hφ⟩ := (placed cache hmem e hfootprint).exists_relabelling
        refine ⟨φ, fun _ e' he' => ?_⟩
        cases he'
        exact hφ
    · exact ⟨.refl _, fun h => absurd h hmem⟩
  choose names hnames using hcache
  refine ⟨names, ?_, ?_⟩
  · intro cache hmem e hfootprint line hline
    exact hnames cache hmem e hfootprint (line, line)
      (List.mem_append_left _ (List.mem_map.2 ⟨line, hline, rfl⟩))
  · intro cache hmem e hfootprint offset hoffset
    exact hnames cache hmem e hfootprint (_, _)
      (List.mem_append_right _ (List.mem_map.2 ⟨offset, hoffset, rfl⟩))

/-- What an effect covers at the place of the frame has the name of one of its lines at the base, if
the effect lies within the footprint. -/
lemma Frame.Named.mem_lines (named : fr.Named s f names)
    (hcache : cache ∈ s.hierarchy.caches.entries) {e e' : Effect} {line : Line}
    (hfootprint : f.footprints.get? ⟨fr.procedure, cache.1⟩ = some e) (within : e'.Within e)
    (covers : e'.Covers cache.2 fr.base line) :
    e'.unknown = true ∨
      names cache line ∈ (Call.ofEffect cache.2 s.settings.stackBase e').lines := by
  rcases covers with hunknown | hline | ⟨offset, hoffset, rfl⟩
  · exact .inl hunknown
  · rw [named.lines cache hcache e hfootprint line (within.lines line hline)]
    exact .inr (OrderedSet.mem_union.2 (.inl hline))
  · rw [named.frame cache hcache e hfootprint offset (within.frame offset hoffset)]
    exact .inr (OrderedSet.mem_union.2 (.inr (OrderedSet.mem_map.2 ⟨offset, hoffset, rfl⟩)))

/-- The summary that was analysed is the one that is kept. -/
lemma Study.Analyses.exists_kept {p : Nat} (A : s.Analyses p f) (completed : s.Completed f)
    (hp : p < s.program.procedures.length) (hcache : cache ∈ s.hierarchy.caches.entries) :
    ∃ before, s.Kept p cache f before ∧
      s.summary before p cache.1 cache.2 (s.startsCold p) = A.summary cache := by
  obtain ⟨fuel, hclassify⟩ := completed.classified
  obtain ⟨before, kept⟩ := Study.exists_kept completed.prepared.callOrder hclassify hp hcache
  refine ⟨before, kept, Option.some_inj.1 ?_⟩
  exact kept.summary.symm.trans (A.analysed cache hcache).summary

/-- The footprint of a procedure is that of the summary that was analysed. -/
lemma Study.Analyses.footprint_eq {p : Nat} (A : s.Analyses p f) (completed : s.Completed f)
    (hp : p < s.program.procedures.length) (hcache : cache ∈ s.hierarchy.caches.entries) :
    f.footprints.get? ⟨p, cache.1⟩ = some (A.summary cache).footprint := by
  obtain ⟨before, kept, hsummary⟩ := A.exists_kept completed hp hcache
  rw [kept.footprint, hsummary]

/-- Under the names of the frame, an access goes to lines that the levels take it to go to. -/
lemma Frame.Named.requests (named : fr.Named s f names) (completed : s.Completed f)
    (A : s.Analyses fr.procedure f) (hp : fr.procedure < s.program.procedures.length)
    {r : Request} {a : Address} {caches : Caches}
    (haction : (s.actions fr.procedure fr.node)[fr.index]? = some (.access r))
    (touches : s.Touches fr.procedure fr.base r a) :
    Stage.Requests s f fr.procedure ⟨fr.node, fr.index, caches⟩ r
      fun cache => names cache (cache.2.lineOf a) := by
  refine ⟨haction, ?_⟩
  intro cache hchain hreach
  obtain ⟨hcache, hserves⟩ := List.mem_filter.1 hchain
  rw [← (A.analysed cache hcache).reach] at hreach
  have hfootprint := A.footprint_eq completed hp hcache
  obtain ⟨i, hi, haddress, touches⟩ := touches
  have hevent := Study.eventAt?_instruction (n := fr.node) completed.prepared hp
    (completed.distinct _ hp) hi haddress hserves hreach
  -- the event puts what the access goes to into the footprint, so names are known for it
  obtain ⟨e, within⟩ :=
    Summary.exists_within_footprint (Study.mem_eventsOf_summary haction hevent)
  unfold Summary.touchedBy at within
  simp only at within
  have hnode : r.site.node = fr.node := Study.site_of_mem_actions (List.mem_of_getElem? haction)
  cases htarget : r.targetAt s.hierarchy.finestShift cache.2 with
  | unknown => trivial
  | lines candidates =>
    rw [htarget] at within
    cases hoffset : if r.site.kind = .data then s.frameByte? fr.procedure r.site.node i else none with
    | some offset =>
      rw [hoffset] at within touches
      have ha : a = fr.base + offset.toUInt64 := touches
      have hmem := within.frame offset (OrderedSet.mem_insert.2 (.inl rfl))
      split at hoffset
      · rename_i hkind
        rw [ha, named.frame cache hcache _ hfootprint offset hmem, ← htarget]
        rw [hnode] at hi hoffset
        exact Study.admits_frameByte completed.prepared hp (List.mem_of_getElem? haction) hkind hi
          haddress hoffset hcache
      · cases hoffset
    | none =>
      rw [hoffset] at within touches
      have admits : (Target.lines candidates).Admits (cache.2.lineOf a) :=
        htarget ▸ Request.admits_targetAt touches
      have hmem := within.lines _ (OrderedSet.mem_insertAll.2 (.inr admits))
      rw [named.lines cache hcache _ hfootprint _ hmem]
      exact admits

end

end CacheVerdict
