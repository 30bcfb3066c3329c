import Mathlib.Logic.Relation
import CacheVerdict.Proofs.Analysis.Footprints
import CacheVerdict.Proofs.Resolution.ReferenceTable

/-!
# Running procedures

A machine runs procedures on one cache for each level, with a stack of activations. A procedure that
is called starts with the caller's stack pointer and gives it back when it returns. An access to the
frame goes to a byte counted from the stack pointer on entry; any other access goes where the
references of its instruction allow. A procedure without a node comes straight back, and one outside
the program may touch anything.
-/

namespace CacheVerdict

/-! ### Bytes of frames -/

/-- No two instructions of the procedure share an address. -/
def Procedure.DistinctAddresses (q : Procedure) : Prop :=
  ((q.nodes.flatMap Node.code).map Instruction.address).Nodup

instance (q : Procedure) : Decidable q.DistinctAddresses :=
  inferInstanceAs (Decidable (List.Nodup _))

/-- No two instructions of a node do. -/
lemma Procedure.DistinctAddresses.node {q : Procedure} (distinct : q.DistinctAddresses) {node : Node}
    (hnode : node ∈ q.nodes) : (node.code.map Instruction.address).Nodup := by
  unfold DistinctAddresses at distinct
  rw [List.map_flatMap] at distinct
  exact (List.nodup_flatMap.1 distinct).1 node hnode

/-- An address belongs to one instruction of one node. -/
lemma Procedure.DistinctAddresses.eq_of_address {q : Procedure} (distinct : q.DistinctAddresses)
    {m n : Nat} {i j : Instruction} (hi : i ∈ q.codeOf m) (hj : j ∈ q.codeOf n)
    (haddress : i.address = j.address) : m = n ∧ i = j := by
  obtain ⟨node, hnode, hi⟩ := mem_codeOf.1 hi
  obtain ⟨node', hnode', hj⟩ := mem_codeOf.1 hj
  unfold DistinctAddresses at distinct
  rw [List.map_flatMap] at distinct
  obtain ⟨hwithin, hacross⟩ := List.nodup_flatMap.1 distinct
  have hmn : m = n := by
    by_contra hne
    obtain ⟨hm, rfl⟩ := List.getElem?_eq_some_iff.1 hnode
    obtain ⟨hn, rfl⟩ := List.getElem?_eq_some_iff.1 hnode'
    rcases Nat.lt_or_gt_of_ne hne with hlt | hlt
    · exact List.pairwise_iff_getElem.1 hacross m n hm hn hlt (List.mem_map_of_mem hi)
        (haddress ▸ List.mem_map_of_mem hj)
    · exact List.pairwise_iff_getElem.1 hacross n m hn hm hlt (List.mem_map_of_mem hj)
        (haddress ▸ List.mem_map_of_mem hi)
  subst hmn
  cases hnode.symm.trans hnode'
  refine ⟨rfl, ?_⟩
  exact List.inj_on_of_nodup_map (hwithin node (List.mem_of_getElem? hnode)) hi hj haddress

namespace Study

variable {s : Study} {f : Findings} {p : Nat} {cache : Level × Geometry}

/-- The references, the roots and the call order are those of the program. -/
structure Prepared (s : Study) : Prop where
  callOrder : s.callOrder = s.program.callOrder
  roots : s.roots = s.program.roots
  references : s.references =
    s.program.procedures.map (.build s.settings s.program.segments s.hierarchy)

/-- A study of a program is prepared. -/
lemma prepared_ofProgram (program : Program) (hierarchy : Hierarchy) (settings : Settings) :
    (ofProgram program hierarchy settings).Prepared := ⟨rfl, rfl, rfl⟩

/-- In a prepared study references are built from the procedures. -/
lemma Prepared.referencesOf (prepared : s.Prepared) (hp : p < s.program.procedures.length) :
    s.referencesOf p = .build s.settings s.program.segments s.hierarchy (s.procedure p) := by
  unfold Study.referencesOf procedure
  rw [prepared.references, List.getElem?_map, List.getElem?_eq_getElem hp]
  rfl

/-- In a prepared study heights are those of the procedures. -/
lemma Prepared.heights (prepared : s.Prepared) (hp : p < s.program.procedures.length) :
    (s.referencesOf p).heights = (s.procedure p).stackHeights := by
  rw [prepared.referencesOf hp]
  rfl

/-- The references of a node, made of its code. -/
def nodeReferences (s : Study) (p n : Nat) : NodeReferences :=
  ReferenceTable.ofNode s.hierarchy.finestShift ((s.procedure p).codeOf n)
    (ReferenceTable.accesses s.settings s.program.segments s.hierarchy.finestLineSize (s.procedure p)
      ((s.procedure p).searchMap (s.procedure p).stackHeights) n)

/-- The accesses of a node are those of its instructions. -/
lemma Prepared.mem_actions (prepared : s.Prepared) (hp : p < s.program.procedures.length) {n : Nat}
    {r : Request} : .access r ∈ s.actions p n ↔
      ∃ i ∈ (s.procedure p).codeOf n, r ∈ (s.nodeReferences p n).requests n i := by
  unfold actions nodeReferences Procedure.codeOf
  rw [prepared.referencesOf hp]
  cases hnode : (s.procedure p).nodes[n]? with
  | none => simp
  | some node =>
    simp only [ReferenceTable.node?_build hnode]
    cases hcallee : node.callee? with
    | some callee =>
      -- a call carries no code
      have hcode : node.code = [] := Node.code_of_isCall (by rw [Node.isCall, hcallee]; rfl)
      simp [hcode]
    | none =>
      have hcall : node.isCall = false := by rw [Node.isCall, hcallee, Option.isSome_none]
      simp [hcall]

/-- The resolution of an access of a node. -/
def resolved (s : Study) (p n : Nat) (i : Instruction) : ResolvedAccess :=
  ⟨i, .resolve s.settings s.program.segments s.hierarchy.finestLineSize
    ((s.procedure p).searchMap (s.procedure p).stackHeights) n i⟩

/-- The byte of the frame that an access of a node is resolved to, counted from the stack pointer on
entry. -/
def frameByte? (s : Study) (p n : Nat) (i : Instruction) : Option Int64 :=
  if i.isAccess then (ReferenceTable.frameOffset? (s.resolved p n i)).map Prod.snd else none

/-- The accesses to the frame, with their offsets. -/
def frameEntries (s : Study) (p : Nat) : List (Address × Int64) :=
  (((s.procedure p).nodeIds.map (ReferenceTable.accesses s.settings s.program.segments
    s.hierarchy.finestLineSize (s.procedure p)
    ((s.procedure p).searchMap (s.procedure p).stackHeights))).flatten).filterMap
      ReferenceTable.frameOffset?

/-- The entries for the frame are those of the accesses in all nodes. -/
lemma mem_frameEntries {e : Address × Int64} :
    e ∈ s.frameEntries p ↔ ∃ n < (s.procedure p).nodes.length, ∃ i ∈ (s.procedure p).codeOf n,
      i.isAccess = true ∧ ReferenceTable.frameOffset? (s.resolved p n i) = some e := by
  unfold frameEntries
  rw [List.mem_filterMap]
  constructor
  · rintro ⟨access, hmem, he⟩
    obtain ⟨accesses, haccesses, hmem⟩ := List.mem_flatten.1 hmem
    obtain ⟨n, hn, rfl⟩ := List.mem_map.1 haccesses
    obtain ⟨i, hi, haccess, rfl⟩ := ReferenceTable.mem_accesses.1 hmem
    exact ⟨n, List.mem_range.1 hn, i, hi, haccess, he⟩
  · rintro ⟨n, hn, i, hi, haccess, he⟩
    refine ⟨s.resolved p n i, List.mem_flatten.2 ⟨_, List.mem_map.2 ⟨n, List.mem_range.2 hn, rfl⟩,
      ReferenceTable.mem_accesses.2 ⟨i, hi, haccess, rfl⟩⟩, he⟩

/-- An entry is kept under the address of its instruction. -/
lemma fst_of_frameOffset? {n : Nat} {i : Instruction} {e : Address × Int64}
    (h : ReferenceTable.frameOffset? (s.resolved p n i) = some e) : e.1 = i.address := by
  unfold ReferenceTable.frameOffset? at h
  split at h
  · cases h
    rfl
  · cases h

/-- Code stands in nodes of the procedure. -/
lemma lt_of_mem_codeOf {q : Procedure} {n : Nat} {i : Instruction} (hi : i ∈ q.codeOf n) :
    n < q.nodes.length := by
  obtain ⟨_, hnode, _⟩ := Procedure.mem_codeOf.1 hi
  exact (List.getElem?_eq_some_iff.1 hnode).1

/-- An instruction has a byte of the frame if its access is entered with its address. -/
lemma frameByte?_eq_some {n : Nat} {i : Instruction} {offset : Int64} :
    s.frameByte? p n i = some offset ↔ i.isAccess = true ∧
      ReferenceTable.frameOffset? (s.resolved p n i) = some (i.address, offset) := by
  unfold frameByte?
  constructor
  · intro h
    split at h
    · rename_i haccess
      obtain ⟨e, he, rfl⟩ := Option.map_eq_some_iff.1 h
      exact ⟨haccess, he.trans (congrArg some (Prod.ext (fst_of_frameOffset? he) rfl))⟩
    · cases h
  · rintro ⟨haccess, he⟩
    rw [if_pos haccess, he]
    rfl

/-- The table holds for an address an offset of an access there. -/
lemma Prepared.exists_of_frameOffsets (prepared : s.Prepared) (hp : p < s.program.procedures.length)
    {x : Address} {offset : Int64} (h : (s.referencesOf p).frameOffsets.get? x = some offset) :
    ∃ n, ∃ i ∈ (s.procedure p).codeOf n, i.address = x ∧ s.frameByte? p n i = some offset := by
  rw [prepared.referencesOf hp] at h
  obtain ⟨n, _, i, hi, haccess, he⟩ := mem_frameEntries.1 (OrderedMap.mem_of_get?_ofList h)
  obtain rfl : x = i.address := fst_of_frameOffset? he
  exact ⟨n, i, hi, rfl, frameByte?_eq_some.2 ⟨haccess, he⟩⟩

/-- It holds the offset of an access if no access there has another one. -/
lemma Prepared.get?_frameOffsets_eq_some (prepared : s.Prepared)
    (hp : p < s.program.procedures.length) {n : Nat} {i : Instruction} {offset : Int64}
    (hi : i ∈ (s.procedure p).codeOf n) (hbyte : s.frameByte? p n i = some offset)
    (unique : ∀ m, ∀ j ∈ (s.procedure p).codeOf m, j.address = i.address →
      ∀ offset', s.frameByte? p m j = some offset' → offset' = offset) :
    (s.referencesOf p).frameOffsets.get? i.address = some offset := by
  obtain ⟨haccess, he⟩ := frameByte?_eq_some.1 hbyte
  rw [prepared.referencesOf hp]
  refine OrderedMap.get?_ofList_of_mem
    (mem_frameEntries.2 ⟨n, lt_of_mem_codeOf hi, i, hi, haccess, he⟩) fun offset' hoffset' => ?_
  obtain ⟨m, _, j, hj, haccess', he'⟩ := mem_frameEntries.1 hoffset'
  have haddress : i.address = j.address := fst_of_frameOffset? he'
  exact unique m j hj haddress.symm offset' (frameByte?_eq_some.2 ⟨haccess', haddress ▸ he'⟩)

/-- The accesses at an address, in whatever nodes, are resolved to the same byte of the frame, or all
of them to something else. -/
def SharedAlike (s : Study) (p : Nat) (x : Address) : Prop :=
  ∀ m n, ∀ i ∈ (s.procedure p).codeOf m, ∀ j ∈ (s.procedure p).codeOf n,
    i.address = x → j.address = x → i.isAccess = true → j.isAccess = true →
      s.frameByte? p m i = s.frameByte? p n j

/-- They are where no two instructions share an address. -/
lemma sharedAlike_of_distinct (distinct : (s.procedure p).DistinctAddresses) (x : Address) :
    s.SharedAlike p x := by
  intro m n i hi j hj hix hjx _ _
  obtain ⟨rfl, rfl⟩ := distinct.eq_of_address hi hj (hix.trans hjx.symm)
  rfl

/-- The table holds the offset of each access at an address where accesses are alike. -/
lemma Prepared.get?_frameOffsets_of_alike (prepared : s.Prepared)
    (hp : p < s.program.procedures.length) {n : Nat} {i : Instruction}
    (hi : i ∈ (s.procedure p).codeOf n) (haccess : i.isAccess = true)
    (alike : s.SharedAlike p i.address) :
    (s.referencesOf p).frameOffsets.get? i.address = s.frameByte? p n i := by
  have heq {m : Nat} {j : Instruction} (hj : j ∈ (s.procedure p).codeOf m)
      (haddress : j.address = i.address) {offset : Int64} (hbyte : s.frameByte? p m j = some offset) :
      s.frameByte? p n i = some offset := by
    rw [← hbyte]
    exact alike n m i hi j hj rfl haddress haccess (frameByte?_eq_some.1 hbyte).1
  cases hbyte : s.frameByte? p n i with
  | some offset =>
    refine prepared.get?_frameOffsets_eq_some hp hi hbyte fun m j hj haddress offset' hoffset' => ?_
    exact Option.some_inj.1 ((heq hj haddress hoffset').symm.trans hbyte)
  | none =>
    refine Option.eq_none_iff_forall_ne_some.2 fun offset hget => ?_
    obtain ⟨m, j, hj, haddress, hoffset⟩ := prepared.exists_of_frameOffsets hp hget
    cases (heq hj haddress hoffset).symm.trans hbyte

/-- The table holds an offset for every access to the frame, and no others. -/
lemma Prepared.get?_frameOffsets (prepared : s.Prepared) (hp : p < s.program.procedures.length)
    (distinct : (s.procedure p).DistinctAddresses) {n : Nat} {i : Instruction}
    (hi : i ∈ (s.procedure p).codeOf n) :
    (s.referencesOf p).frameOffsets.get? i.address = s.frameByte? p n i := by
  cases haccess : i.isAccess with
  | true => exact prepared.get?_frameOffsets_of_alike hp hi haccess (sharedAlike_of_distinct distinct _)
  | false =>
    have hnone : s.frameByte? p n i = none := if_neg (Bool.eq_false_iff.1 haccess)
    rw [hnone, Option.eq_none_iff_forall_ne_some]
    intro offset hget
    obtain ⟨m, j, hj, haddress, hoffset⟩ := prepared.exists_of_frameOffsets hp hget
    obtain ⟨rfl, rfl⟩ := distinct.eq_of_address hj hi haddress
    cases hoffset.symm.trans hnone

end Study

/-! ### Steps -/

/-- An activation of a procedure: the node that it stands in, how many actions of the node lie
behind, and the stack pointer on entry to the procedure and on entry to the node. -/
structure Frame where
  procedure : Nat
  node : Nat
  index : Nat
  base : Address
  sp : Address
deriving DecidableEq

/-- The activations, the running one first, and the caches. -/
structure Machine where
  stack : List Frame
  caches : Caches

/-- The addresses that an access may go to when the stack pointer was `base` on entry: the byte of
the frame that it is resolved to, or else what its references allow. -/
def Study.Touches (s : Study) (p : Nat) (base : Address) (r : Request) (a : Address) : Prop :=
  ∃ i ∈ (s.procedure p).codeOf r.site.node, i.address = r.site.instruction ∧
    match if r.site.kind = .data then s.frameByte? p r.site.node i else none with
    | some offset => a = base + offset.toUInt64
    | none => r.Picks s.hierarchy.finestShift a

/-- Steps of the machine, with the lines that they touch at each cache. -/
inductive Step (s : Study) : Machine → (Level × Geometry → List Line) → Machine → Prop where
  | access {fr : Frame} {rest : List Frame} {caches : Caches} {r : Request} {a : Address} :
    (s.actions fr.procedure fr.node)[fr.index]? = some (.access r) →
    s.Touches fr.procedure fr.base r a →
    Step s ⟨fr :: rest, caches⟩ (caches.along a (s.hierarchy.chain r.site.kind))
      ⟨{ fr with index := fr.index + 1 } :: rest,
        caches.touchAll (caches.along a (s.hierarchy.chain r.site.kind))⟩
  | call {fr : Frame} {rest : List Frame} {caches : Caches} {callee : String} {c n : Nat} :
    (s.actions fr.procedure fr.node)[fr.index]? = some (.call callee) →
    s.program.procedureNamed? callee = some c → n ∈ (s.procedure c).entries →
    Step s ⟨fr :: rest, caches⟩ (fun _ => []) ⟨⟨c, n, 0, fr.sp, fr.sp⟩ :: fr :: rest, caches⟩
  | skip {fr : Frame} {rest : List Frame} {caches : Caches} {callee : String} {c : Nat} :
    (s.actions fr.procedure fr.node)[fr.index]? = some (.call callee) →
    s.program.procedureNamed? callee = some c → (s.procedure c).entries = [] →
    Step s ⟨fr :: rest, caches⟩ (fun _ => []) ⟨{ fr with index := fr.index + 1 } :: rest, caches⟩
  | ret {fr caller : Frame} {rest : List Frame} {caches : Caches} :
    fr.index = (s.actions fr.procedure fr.node).length →
    Step s ⟨fr :: caller :: rest, caches⟩ (fun _ => [])
      ⟨{ caller with index := caller.index + 1 } :: rest, caches⟩
  | outside {fr : Frame} {rest : List Frame} {caches : Caches} {callee : String}
      {lines : Level × Geometry → List Line} :
    (s.actions fr.procedure fr.node)[fr.index]? = some (.call callee) →
    s.program.procedureNamed? callee = none →
    Step s ⟨fr :: rest, caches⟩ lines
      ⟨{ fr with index := fr.index + 1 } :: rest, caches.touchAll lines⟩
  | edge {fr : Frame} {rest : List Frame} {caches : Caches} {n : Nat} {sp : Address} :
    fr.index = (s.actions fr.procedure fr.node).length →
    n ∈ (s.procedure fr.procedure).successors fr.node →
    MovesAll ((s.procedure fr.procedure).codeOf fr.node) fr.sp sp →
    Step s ⟨fr :: rest, caches⟩ (fun _ => [])
      ⟨{ fr with node := n, index := 0, sp } :: rest, caches⟩

/-- A procedure has just been entered, with nothing below it on the stack. -/
def Machine.Enters (s : Study) (p : Nat) (base : Address) (m : Machine) : Prop :=
  ∃ n ∈ (s.procedure p).entries, m.stack = [⟨p, n, 0, base, base⟩]

end CacheVerdict
