import Mathlib.Data.List.Nodup
import CacheVerdict.Proofs.Ordered.Map
import CacheVerdict.Resolution.ReferenceTable

/-!
# What reference tables hold

The forms that a resolved address takes (`Resolution.resolve_forms`), and what the table of a
procedure holds for a node: the line that each instruction is fetched from, and under the address of
each access the references of all accesses there.
-/

namespace CacheVerdict

/-! ### Resolved addresses -/

namespace Resolution

variable {s : Settings} {segments : Segments} {lineSize : Nat} {m : SearchMap} {n : Nat}
  {i : Instruction}

/-- An address that has a segment is one of the 64-bit addresses. -/
lemma find?_of_segmentAt? {address : Int} {a : Address} {segment : Segment}
    (h : segmentAt? segments address = some (a, segment)) :
    address = a.toNat ∧ segments.find? a = some segment := by
  unfold segmentAt? at h
  split at h
  · rename_i hrange
    obtain ⟨_, hfind, heq⟩ := Option.map_eq_some_iff.1 h
    cases heq
    have hlt : address.toNat < 2 ^ 64 := (Int.toNat_lt hrange.1).2 hrange.2
    rw [UInt64.toNat_ofNat', Nat.mod_eq_of_lt hlt]
    exact ⟨(Int.toNat_of_nonneg hrange.1).symm, hfind⟩
  · cases h

/-- An access is not resolved, or it goes to a byte of the frame, or to a segment. -/
lemma resolve_forms (s : Settings) (segments : Segments) (lineSize : Nat) (m : SearchMap) (n : Nat)
    (i : Instruction) :
    (∃ fault, resolve s segments lineSize m n i = unknown i fault) ∨
      (∃ offset : Int64, resolve s segments lineSize m n i =
        ⟨.stack (s.stackBase + offset.toUInt64) offset,
          [⟨i.address, s.stackBase + offset.toUInt64⟩]⟩) ∨
      ∃ (isRange : Bool) (a : Address) (segment : Segment), segments.find? a = some segment ∧
        resolve s segments lineSize m n i = ofSegment s lineSize i isRange a segment := by
  unfold resolve
  cases Tracker.backtrack s m n i with
  | error fault => exact .inl ⟨fault, rfl⟩
  | ok t =>
    unfold ofSearch ofTracker
    simp only
    split
    · unfold ofFrame
      split
      · exact .inl ⟨_, rfl⟩
      · cases t.stackHeight.known? with
        | none => exact .inl ⟨_, rfl⟩
        | some height => exact .inr (.inl ⟨_, rfl⟩)
    · cases hsegment : segmentAt? segments ((t.base.getD 0).toNat + t.offset.toInt) with
      | none => exact .inl ⟨_, rfl⟩
      | some found =>
        obtain ⟨a, segment⟩ := found
        exact .inr (.inr ⟨t.isRange, a, segment, (find?_of_segmentAt? hsegment).2, rfl⟩)

/-- An access that is resolved to the frame touches one byte of it. -/
lemma blocks_of_stack {address : Address} {offset : Int64}
    (h : (resolve s segments lineSize m n i).outcome = .stack address offset) :
    (resolve s segments lineSize m n i).blocks = [⟨i.address, s.stackBase + offset.toUInt64⟩] := by
  rcases resolve_forms s segments lineSize m n i with
    ⟨_, heq⟩ | ⟨_, heq⟩ | ⟨isRange, a, segment, _, heq⟩
  · rw [heq] at h
    cases h
  · rw [heq] at h ⊢
    cases h
    rfl
  · rw [heq, ofSegment] at h
    split at h
    · cases h
    · split at h <;> cases h

/-- An access that is not resolved touches the block that stands for any address. -/
lemma blocks_of_unresolved {fault : ResolveFault}
    (h : (resolve s segments lineSize m n i).outcome = .unresolved fault) :
    (resolve s segments lineSize m n i).blocks = [.unknown i.address] := by
  rcases resolve_forms s segments lineSize m n i with
    ⟨_, heq⟩ | ⟨_, heq⟩ | ⟨isRange, a, segment, _, heq⟩
  · rw [heq]
    rfl
  · rw [heq] at h
    cases h
  · rw [heq, ofSegment] at h
    split at h
    · cases h
    · split at h <;> cases h

end Resolution

/-! ### Tables -/

/-- The code of a procedure's node is that of a node there. -/
lemma Procedure.mem_codeOf {q : Procedure} {n : Nat} {i : Instruction} :
    i ∈ q.codeOf n ↔ ∃ node, q.nodes[n]? = some node ∧ i ∈ node.code := by
  unfold codeOf
  cases q.nodes[n]? with
  | none => simp
  | some node => simp

namespace ReferenceTable

/-- The accesses of a node are resolved one by one. -/
lemma mem_accesses {settings : Settings} {segments : Segments} {lineSize n : Nat} {q : Procedure}
    {m : SearchMap} {access : ResolvedAccess} :
    access ∈ accesses settings segments lineSize q m n ↔ ∃ i ∈ q.codeOf n, i.isAccess = true ∧
      access = ⟨i, .resolve settings segments lineSize m n i⟩ := by
  unfold accesses
  rw [List.mem_filterMap]
  constructor
  · rintro ⟨i, hi, h⟩
    split at h
    · rename_i haccess
      cases h
      exact ⟨i, hi, haccess, rfl⟩
    · cases h
  · rintro ⟨i, hi, haccess, rfl⟩
    exact ⟨i, hi, if_pos haccess⟩

/-- An instruction is fetched from the line that holds it. -/
lemma get?_fetches {shift : Nat} {code : List Instruction} {accesses : List ResolvedAccess}
    {i : Instruction} (hi : i ∈ code) :
    (ofNode shift code accesses).fetches.get? i.address =
      some (.ofAddress shift .fetch i.address) := by
  refine OrderedMap.get?_ofList_of_mem (List.mem_map.2 ⟨i, hi, rfl⟩) fun r hr => ?_
  obtain ⟨j, _, heq⟩ := List.mem_map.1 hr
  obtain ⟨haddress, rfl⟩ := Prod.mk.inj heq
  rw [haddress]

/-- Accesses leave the entries of other addresses alone. -/
lemma get?_foldl_of_not_mem {shift : Nat} {accesses : List ResolvedAccess}
    {found : OrderedMap Address (OrderedSet Reference)} {a : Address}
    (ha : ∀ access ∈ accesses, a ≠ access.instruction.address) :
    (accesses.foldl (fun found a => found.insertWith .union a.instruction.address
      (.ofList (a.resolution.blocks.map (.ofBlock shift)))) found).get? a = found.get? a := by
  induction accesses generalizing found with
  | nil => rfl
  | cons access accesses ih =>
    rw [List.forall_mem_cons] at ha
    rw [List.foldl_cons, ih ha.2, OrderedMap.get?_insertWith, if_neg ha.1]

/-- The entry at the address of an access holds the references of the access. -/
lemma exists_data {shift : Nat} {code : List Instruction} {accesses : List ResolvedAccess}
    {access : ResolvedAccess} (haccess : access ∈ accesses) :
    ∃ references, (ofNode shift code accesses).data.get? access.instruction.address =
      some references ∧ ∀ block ∈ access.resolution.blocks, .ofBlock shift block ∈ references := by
  have hown : ∀ block ∈ access.resolution.blocks, Reference.ofBlock shift block ∈
      OrderedSet.ofList (access.resolution.blocks.map (.ofBlock shift)) := fun block hblock =>
    OrderedSet.mem_ofList.2 (List.mem_map_of_mem hblock)
  -- what is kept at the address only grows, and holds the references once the access is added
  have hfold (found : OrderedMap Address (OrderedSet Reference))
      (h : access ∈ accesses ∨ ∃ kept, found.get? access.instruction.address = some kept ∧
        ∀ block ∈ access.resolution.blocks, Reference.ofBlock shift block ∈ kept) :
      ∃ kept, (accesses.foldl (fun found a => found.insertWith .union a.instruction.address
        (.ofList (a.resolution.blocks.map (.ofBlock shift)))) found).get?
          access.instruction.address = some kept ∧
        ∀ block ∈ access.resolution.blocks, Reference.ofBlock shift block ∈ kept := by
    clear haccess
    induction accesses generalizing found with
    | nil => exact h.resolve_left List.not_mem_nil
    | cons first accesses ih =>
      apply ih
      rw [OrderedMap.get?_insertWith, List.mem_cons] at *
      rcases h with (rfl | h) | ⟨kept, hkept, hmem⟩
      · right
        rw [if_pos rfl]
        refine ⟨_, rfl, fun block hblock => ?_⟩
        cases found.get? access.instruction.address with
        | none => exact hown block hblock
        | some old => exact OrderedSet.mem_union.2 (.inr (hown block hblock))
      · exact .inl h
      · right
        split
        · rename_i heq
          rw [← heq, hkept]
          exact ⟨_, rfl, fun block hblock => OrderedSet.mem_union.2 (.inl (hmem block hblock))⟩
        · exact ⟨kept, hkept, hmem⟩
  exact hfold {} (.inl haccess)

/-- There is an entry at the addresses of accesses only. -/
lemma exists_data_iff {shift : Nat} {code : List Instruction} {accesses : List ResolvedAccess}
    {a : Address} :
    (∃ references, (ofNode shift code accesses).data.get? a = some references) ↔
      ∃ access ∈ accesses, access.instruction.address = a := by
  constructor
  · rintro ⟨references, hget⟩
    by_contra hnone
    unfold ofNode at hget
    rw [get?_foldl_of_not_mem fun access hmem heq => hnone ⟨access, hmem, heq.symm⟩] at hget
    cases hget
  · rintro ⟨access, hmem, rfl⟩
    obtain ⟨references, hget, _⟩ := exists_data hmem
    exact ⟨references, hget⟩

/-- The entry of an access that is alone at its address holds its references. -/
lemma get?_data_of_mem {shift : Nat} {code : List Instruction} {accesses : List ResolvedAccess}
    (hnodup : (accesses.map fun access => access.instruction.address).Nodup)
    {access : ResolvedAccess} (haccess : access ∈ accesses) :
    (ofNode shift code accesses).data.get? access.instruction.address =
      some (.ofList (access.resolution.blocks.map (.ofBlock shift))) := by
  obtain ⟨front, behind, rfl⟩ := List.append_of_mem haccess
  rw [List.map_append, List.map_cons, List.nodup_append] at hnodup
  obtain ⟨_, hbehind, hfront⟩ := hnodup
  have hnot : ∀ other ∈ behind, access.instruction.address ≠ other.instruction.address := by
    intro other hother heq
    refine (List.nodup_cons.1 hbehind).1 ?_
    rw [heq]
    exact List.mem_map_of_mem hother
  have hnot' : ∀ other ∈ front, access.instruction.address ≠ other.instruction.address := by
    intro other hother heq
    exact hfront _ (List.mem_map_of_mem hother) _ List.mem_cons_self heq.symm
  unfold ofNode
  rw [List.foldl_append, List.foldl_cons, get?_foldl_of_not_mem hnot, OrderedMap.get?_insertWith,
    if_pos rfl, get?_foldl_of_not_mem hnot', OrderedMap.get?_empty]
  rfl

/-- The entry at the address of an instruction, where addresses are distinct. -/
lemma get?_data {settings : Settings} {segments : Segments} {lineSize shift n : Nat} {q : Procedure}
    {m : SearchMap} {code : List Instruction}
    (distinct : ((q.codeOf n).map Instruction.address).Nodup) {i : Instruction}
    (hi : i ∈ q.codeOf n) :
    (ofNode shift code (accesses settings segments lineSize q m n)).data.get? i.address =
      if i.isAccess then
        some (.ofList ((Resolution.resolve settings segments lineSize m n i).blocks.map
          (.ofBlock shift)))
      else none := by
  split
  · rename_i haccess
    have hown : ⟨i, .resolve settings segments lineSize m n i⟩ ∈
        accesses settings segments lineSize q m n :=
      mem_accesses.2 ⟨i, hi, haccess, rfl⟩
    refine get?_data_of_mem ?_ hown
    refine List.pairwise_map.2 (List.pairwise_filterMap.2 ((List.pairwise_map.1 distinct).imp ?_))
    intro j k hne access haccess access' haccess'
    split at haccess <;> cases haccess
    split at haccess' <;> cases haccess'
    exact hne
  · rename_i haccess
    rw [← Option.not_isSome_iff_eq_none, Option.isSome_iff_exists, exists_data_iff]
    rintro ⟨access, hmem, heq⟩
    obtain ⟨j, hj, haccess', rfl⟩ := mem_accesses.1 hmem
    exact haccess (List.inj_on_of_nodup_map distinct hi hj heq.symm ▸ haccess')

/-- The references of a node are made of its code and its accesses; a call has none. -/
lemma node?_build {s : Settings} {segments : Segments} {h : Hierarchy} {q : Procedure} {n : Nat}
    {node : Node} (hnode : q.nodes[n]? = some node) :
    (build s segments h q).node? n = if node.isCall then none else
      some (ofNode h.finestShift node.code
        (accesses s segments h.finestLineSize q (q.searchMap q.stackHeights) n)) := by
  have hn : n < q.nodes.length := (List.getElem?_eq_some_iff.1 hnode).1
  have hid : q.nodeIds[n]? = some n := List.getElem?_range hn
  unfold node? build
  simp only [List.getElem?_zipWith, hnode, List.getElem?_map, hid, Option.map_some]
  rfl

end ReferenceTable

end CacheVerdict
