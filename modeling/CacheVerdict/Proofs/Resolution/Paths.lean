import Mathlib.Logic.Relation
import CacheVerdict.Proofs.Resolution.Walks
import CacheVerdict.Proofs.StackHeight.Executions

/-!
# Addresses along paths

The search for the address of an access goes back through predecessors in breadth-first order and
hands one tracker from each to the next, while an execution takes one path. Walking back along that
path alone keeps the address (`Tracker.Single.walk`), so the search is right on a path if it meets
there the same nodes that change the tracker, in the same order (`Tracker.backtrack_sound`). Where
paths part and meet again it need not: a node in front of both is walked through once for each of
them (`Tracker.backtrack_unsound_diamond`).
-/

namespace CacheVerdict

/-! ### Paths -/

namespace Procedure

/-- The paths from an entry of the procedure to a node: the nodes in front of it, the nearest
first. -/
inductive Trail (p : Procedure) : Nat → List Nat → Prop where
  | entry {n : Nat} : n ∈ p.entries → Trail p n []
  | edge {m n : Nat} {path : List Nat} : Trail p m path → m ∈ p.predecessors n →
    Trail p n (m :: path)

/-- The code of the nodes of a path, in the order in which it runs. -/
def codeAlong (p : Procedure) (path : List Nat) : List Instruction :=
  path.reverse.flatMap p.codeOf

/-- The code along a path ends with that of the last node. -/
lemma codeAlong_cons (p : Procedure) (n : Nat) (path : List Nat) :
    p.codeAlong (n :: path) = p.codeAlong path ++ p.codeOf n := by
  simp [codeAlong]

/-- All operations are plain. -/
def Plain (p : Procedure) : Prop :=
  ∀ n, ∀ i ∈ p.codeOf n, i.operation.isPlain = true

/-- The addresses of the instructions rise inside every node and along every path. -/
structure Rising (p : Procedure) : Prop where
  node : ∀ n, (p.codeOf n).Pairwise fun i j => i.address < j.address
  path : ∀ {m n}, Relation.TransGen (fun m n => m ∈ p.predecessors n) m n →
    ∀ i ∈ p.codeOf m, ∀ j ∈ p.codeOf n, i.address < j.address

/-- The code of a node is empty, or that of a node of the procedure. -/
lemma codeOf_cases (p : Procedure) (n : Nat) :
    p.codeOf n = [] ∨ ∃ node ∈ p.nodes, p.codeOf n = node.code := by
  unfold codeOf
  cases hn : p.nodes[n]? with
  | none => exact .inl rfl
  | some node => exact .inr ⟨node, List.mem_of_getElem? hn, rfl⟩

/-- Code is plain if the nodes have plain code. -/
lemma plain_of_nodes {p : Procedure}
    (h : ∀ node ∈ p.nodes, ∀ i ∈ node.code, i.operation.isPlain = true) : p.Plain := by
  intro n i hi
  obtain hnil | ⟨node, hnode, hcode⟩ := p.codeOf_cases n
  · rw [hnil] at hi
    cases hi
  · exact h node hnode i (hcode ▸ hi)

/-- A predecessor stands at an edge. -/
lemma exists_edge_of_mem_predecessors {p : Procedure} {m n : Nat} (h : m ∈ p.predecessors n) :
    ∃ e ∈ p.edges, e.target = n ∧ e.source = some m := by
  obtain ⟨e, he, hsource⟩ := List.mem_filterMap.1 h
  split at hsource
  · exact ⟨e, he, ‹_›, hsource⟩
  · cases hsource

/-- Where every edge leads to code, addresses that rise along every edge rise along every path. -/
lemma rising_of_edges {p : Procedure}
    (hnode : ∀ node ∈ p.nodes, node.code.Pairwise fun i j => i.address < j.address)
    (hedge : ∀ e ∈ p.edges, p.codeOf e.target ≠ [] ∧ ∀ m ∈ e.source,
      ∀ i ∈ p.codeOf m, ∀ j ∈ p.codeOf e.target, i.address < j.address) : p.Rising where
  node n := by
    obtain hnil | ⟨node, hmem, hcode⟩ := p.codeOf_cases n
    · rw [hnil]
      exact .nil
    · rw [hcode]
      exact hnode node hmem
  path {m n} h := by
    have edge {m n : Nat} (hpred : m ∈ p.predecessors n) : p.codeOf n ≠ [] ∧
        ∀ i ∈ p.codeOf m, ∀ j ∈ p.codeOf n, i.address < j.address := by
      obtain ⟨e, he, rfl, hsource⟩ := exists_edge_of_mem_predecessors hpred
      exact ⟨(hedge e he).1, (hedge e he).2 m hsource⟩
    induction h with
    | single hpred => exact (edge hpred).2
    | @tail n k hbetween hpred ih =>
      intro i hi j hj
      have hne : p.codeOf n ≠ [] := by
        cases hbetween with
        | single hpred => exact (edge hpred).1
        | tail _ hpred => exact (edge hpred).1
      obtain ⟨l, hl⟩ := List.exists_mem_of_ne_nil _ hne
      exact UInt64.lt_trans (ih i hi l hl) ((edge hpred).2 l hl j hj)

/-- A path is empty, or ends with an edge. -/
lemma trail_iff {p : Procedure} {n : Nat} {path : List Nat} :
    p.Trail n path ↔ n ∈ p.entries ∧ path = [] ∨
      ∃ m ∈ p.predecessors n, ∃ rest, p.Trail m rest ∧ path = m :: rest := by
  constructor
  · rintro (hn | ⟨trail, hpred⟩)
    · exact .inl ⟨hn, rfl⟩
    · exact .inr ⟨_, hpred, _, trail, rfl⟩
  · rintro (⟨hn, rfl⟩ | ⟨m, hpred, rest, trail, rfl⟩)
    · exact .entry hn
    · exact .edge trail hpred

/-- Nodes of a path lie in front of the node that it leads to. -/
lemma Trail.transGen {p : Procedure} {n : Nat} {path : List Nat} (trail : p.Trail n path) :
    ∀ m ∈ path, Relation.TransGen (fun m n => m ∈ p.predecessors n) m n := by
  induction trail with
  | entry => nofun
  | edge _ hpred ih =>
    intro m hm
    rcases List.mem_cons.1 hm with rfl | hm
    · exact .single hpred
    · exact (ih m hm).tail hpred

end Procedure

/-! ### Nodes as searches see them -/

/-- There is one height before each instruction. -/
lemma StackHeight.length_beforeEach (h : StackHeight) (code : List Instruction) :
    (h.beforeEach code).length = code.length := by
  induction code generalizing h with
  | nil => rfl
  | cons i code ih => rw [beforeEach, List.length_cons, ih, List.length_cons]

namespace Procedure

variable (p : Procedure)

/-- There is a height before every instruction. -/
lemma length_beforeEach (n : Nat) : (p.stackHeights.beforeEach n).length = (p.codeOf n).length := by
  rw [beforeEach_eq, StackHeight.length_beforeEach]

/-- The walk back through a node goes through its code. -/
lemma code_node (n : Nat) :
    ((p.searchMap p.stackHeights).node n).code =
      ((p.codeOf n).zip (p.stackHeights.beforeEach n)).reverse := by
  unfold SearchMap.node searchMap nodeIds
  simp only [List.getElem?_toArray, List.getElem?_map]
  by_cases hn : n < p.nodes.length
  · rw [List.getElem?_range hn]
    rfl
  · have hcode : p.codeOf n = [] := by
      rw [codeOf, List.getElem?_eq_none (Nat.le_of_not_lt hn)]
      rfl
    rw [List.getElem?_eq_none (by simpa using hn), hcode]
    rfl

/-- The search sees the code of a node backwards. -/
lemma map_fst_code_node (n : Nat) :
    ((p.searchMap p.stackHeights).node n).code.map Prod.fst = (p.codeOf n).reverse := by
  rw [code_node, List.map_reverse, List.map_fst_zip (p.length_beforeEach n).ge]

end Procedure

namespace Tracker

variable {m : SearchMap} {before : Address} {t t' : Tracker}

/-- The tracker of an access starts with its offset and its address registers. If the stack pointer is
one of them, its height is the one at the access. -/
lemma exists_of_ofAccess {s : Settings} {n : Nat} {a : Address} {access : MemoryAccess}
    (h : ofAccess s m n a access = .ok t) :
    ∃ v isRange, (∀ ρ : Reading, (access.offset.map ρ.value).getD 0 = v.toUInt64) ∧
      t = { start access.targets v isRange with stackHeight := t.stackHeight } ∧
      (t.isStackRelative = true → t.stackHeight = heightAt m n a) := by
  have hoffset : ∃ v, (access.offset.map Immediate.read).getD (.ok 0) = .ok v ∧
      ∀ ρ : Reading, (access.offset.map ρ.value).getD 0 = v.toUInt64 := by
    unfold ofAccess at h
    cases htext : access.offset with
    | none => exact ⟨0, rfl, fun _ => rfl⟩
    | some text =>
      rw [htext] at h
      obtain ⟨v, hv, -⟩ := exists_of_read h
      exact ⟨v, by simp [Immediate.read, hv], fun ρ => ρ.agrees hv⟩
  obtain ⟨v, hread, hvalue⟩ := hoffset
  refine ⟨v, s.segmentAsRange || (access.indexed && s.indexedAsRange), hvalue, ?_⟩
  simp only [ofAccess, hread] at h
  cases h
  show (_ = _) ∧ _
  split
  · exact ⟨rfl, fun _ => rfl⟩
  · rename_i hrelative
    exact ⟨rfl, fun h => absurd h hrelative⟩

/-- The tracker of an access with one address register stands for its address, unless that is the
stack pointer. -/
lemma single_of_ofAccess {s : Settings} {n : Nat} {a : Address} {access : MemoryAccess}
    {r : Register} (hone : access.targets = [r]) (h : ofAccess s m n a access = .ok t)
    (hsp : t.stackUses = 0) :
    t.Single ∧ ∀ (ρ : Reading) (regs : RegisterFile), t.value regs = access.address ρ regs := by
  obtain ⟨v, isRange, hvalue, heq, -⟩ := exists_of_ofAccess h
  rw [hone] at heq
  have hnot : ¬ r.isStackPointer = true := by
    intro hr
    rw [heq] at hsp
    simp [start, track, hr] at hsp
  have hstart : start [r] v isRange =
      { pending := OrderedSet.insert {} r, offset := v, isRange } := by
    simp [start, track, hnot]
  have hpending : t.pending = OrderedSet.insert {} r := by rw [heq, hstart]
  have hmem {x : Register} (hx : x ∈ t.pending) : x = r := by
    rw [hpending] at hx
    exact (OrderedSet.mem_insert.1 hx).resolve_right (OrderedSet.not_mem_empty x)
  have single : t.Single := by
    refine ⟨fun hx hy => (hmem hx).trans (hmem hy).symm, fun _ => ?_⟩
    rw [heq, hstart]
  refine ⟨single, fun ρ regs => ?_⟩
  have hr : r ∈ t.pending := hpending ▸ OrderedSet.mem_insert.2 (.inl rfl)
  have hv : t.offset = v := by rw [heq, hstart]
  rw [single.value_eq hr hsp, MemoryAccess.address, hone, hvalue, hv]
  simp [add_comm]

section

variable {p : Procedure}

/-- Walking backwards through a node of a procedure. -/
lemma Single.scan_node (single : t.Single) (plain : p.Plain) {n : Nat}
    (h : t.scan before ((p.searchMap p.stackHeights).node n).code = .ok t') (hsp : t'.stackUses = 0) :
    t'.Single ∧ ∀ (ρ : Reading) (regs : RegisterFile),
      t.value (ρ.run regs ((p.codeOf n).filter (·.address < before))) = t'.value regs := by
  have plain' : ∀ e ∈ ((p.searchMap p.stackHeights).node n).code, e.1.operation.isPlain = true := by
    intro e he
    have hmem := List.mem_map_of_mem (f := Prod.fst) he
    rw [p.map_fst_code_node, List.mem_reverse] at hmem
    exact plain n e.1 hmem
  have hscan := single.scan plain' h hsp
  rwa [p.map_fst_code_node, List.reverse_reverse] at hscan

/-- Walking backwards along a path of a procedure keeps the address that the tracker stands for. -/
lemma Single.walk (single : t.Single) (plain : p.Plain) {path : List Nat}
    (below : ∀ n ∈ path, ∀ i ∈ p.codeOf n, i.address < before)
    (h : t.walk (p.searchMap p.stackHeights) before path = .ok t') (hsp : t'.stackUses = 0)
    (ρ : Reading) (regs : RegisterFile) :
    t.value (ρ.run regs (p.codeAlong path)) = t'.value regs := by
  induction path generalizing t with
  | nil =>
    cases h
    rfl
  | cons n path ih =>
    rw [List.forall_mem_cons] at below
    obtain ⟨t₁, hscan, hwalk⟩ := exists_of_walk_cons h
    have hsp₁ : t₁.stackUses = 0 := Nat.le_zero.1 (hsp ▸ stackUses_le_walk hwalk)
    obtain ⟨single₁, hvalue⟩ := single.scan_node plain hscan hsp₁
    have hall : (p.codeOf n).filter (·.address < before) = p.codeOf n :=
      List.filter_eq_self.2 fun i hi => decide_eq_true (below.1 i hi)
    rw [hall] at hvalue
    rw [p.codeAlong_cons, ρ.run_append, hvalue]
    exact ih single₁ below.2 hwalk

end

end Tracker

/-- On every path from an entry, whatever the registers hold there, the access touches the byte. -/
def Procedure.AlwaysAt (p : Procedure) (n : Nat) (i : Instruction) (access : MemoryAccess)
    (a : Address) : Prop :=
  ∀ path, p.Trail n path → ∀ front behind, p.codeOf n = front ++ i :: behind →
    ∀ (ρ : Reading) (regs : RegisterFile),
      access.address ρ (ρ.run regs (p.codeAlong path ++ front)) = a

/-- On every path from an entry, the nodes that change the tracker of the access are those that
change it in the search, in the same order. -/
def Procedure.SearchedAsRun (p : Procedure) (s : Settings) (n : Nat) (i : Instruction)
    (access : MemoryAccess) : Prop :=
  ∀ t, Tracker.ofAccess s (p.searchMap p.stackHeights) n i.address access = .ok t →
    ∀ path, p.Trail n path →
      t.changers (p.searchMap p.stackHeights) i.address (n :: path) =
        t.changers (p.searchMap p.stackHeights) i.address
          (t.route s (p.searchMap p.stackHeights) n i)

/-- In code of plain operations at rising addresses, the search finds the byte that an access with
one address register touches, on every path that changes the tracker as the search does. -/
theorem Tracker.backtrack_sound (p : Procedure) (s : Settings) (n : Nat) (i : Instruction)
    (access : MemoryAccess) (r : Register) (t : Tracker) (plain : p.Plain) (rising : p.Rising)
    (haccess : i.operation = .access access) (hone : access.targets = [r])
    (found : backtrack s (p.searchMap p.stackHeights) n i = .ok t)
    (apart : t.isStackRelative = false) (searched : p.SearchedAsRun s n i access) :
    p.AlwaysAt n i access t.address := by
  intro path trail front behind hcode ρ regs
  have hsp : t.stackUses = 0 := by simpa [isStackRelative] using apart
  obtain ⟨hresolved, t₀, visits, hstart, hwalk⟩ := exists_of_backtrack haccess found
  have hpath := walk_eq_of_changers (searched t₀ hstart path trail) hwalk
  obtain ⟨t₁, hscan, hpath⟩ := exists_of_walk_cons hpath
  have hsp₁ : t₁.stackUses = 0 := Nat.le_zero.1 ((stackUses_le_walk hpath).trans hsp.le)
  have hsp₀ : t₀.stackUses = 0 := Nat.le_zero.1 (hsp₁ ▸ stackUses_le_scan hscan)
  obtain ⟨single₀, haddress⟩ := single_of_ofAccess hone hstart hsp₀
  obtain ⟨single₁, hown⟩ := single₀.scan_node plain hscan hsp₁
  -- of its own node, the walk goes through what stands in front of the access
  have hfront : (p.codeOf n).filter (·.address < i.address) = front := by
    have hrising := rising.node n
    rw [hcode, List.pairwise_append, List.pairwise_cons] at hrising
    obtain ⟨-, ⟨hbehind, -⟩, hfront⟩ := hrising
    have hkeep : front.filter (·.address < i.address) = front :=
      List.filter_eq_self.2 fun j hj => decide_eq_true (hfront j hj i List.mem_cons_self)
    have hdrop : (i :: behind).filter (·.address < i.address) = [] := by
      refine List.filter_eq_nil_iff.2 fun j hj => ?_
      rcases List.mem_cons.1 hj with rfl | hj
      · simp
      · simpa using (UInt64.le_of_lt (hbehind j hj))
    rw [hcode, List.filter_append, hkeep, hdrop, List.append_nil]
  have below : ∀ m ∈ path, ∀ j ∈ p.codeOf m, j.address < i.address := by
    intro m hm j hj
    refine rising.path (trail.transGen m hm) j hj i ?_
    rw [hcode]
    exact List.mem_append_right _ List.mem_cons_self
  rw [hfront] at hown
  calc access.address ρ (ρ.run regs (p.codeAlong path ++ front))
      = t₀.value (ρ.run (ρ.run regs (p.codeAlong path)) front) := by
        rw [haddress ρ, ρ.run_append]
    _ = t₁.value (ρ.run regs (p.codeAlong path)) := hown ρ _
    _ = (t.withVisits visits).value regs := single₁.walk plain below hpath hsp ρ regs
    _ = t.address := value_eq_address hresolved hsp regs

/-! ### Branches that meet again -/

/-- A load at a register. -/
def loadAt (r : String) : MemoryAccess where
  targets := [⟨r⟩]
  offset := none
  indexed := false
  store := false
  writeback := none

/-- The load where the branches of `diamond` meet. -/
def meetingLoad : Instruction :=
  ⟨0x1014, .access (loadAt "x1"), "ldr x0, [x1]"⟩

/-- Code of two nodes, behind which branches part and meet again at a load. -/
def diamond (top head : List Instruction) : Procedure where
  name := "main"
  nodes :=
    [⟨"top", .straight top⟩,
     ⟨"head", .straight head⟩,
     ⟨"left", .straight [⟨0x100c, .move ⟨"x9"⟩ (.immediate "1"), "mov x9, #1"⟩]⟩,
     ⟨"right", .straight [⟨0x1010, .move ⟨"x9"⟩ (.immediate "2"), "mov x9, #2"⟩]⟩,
     ⟨"meet", .straight [meetingLoad]⟩]
  edges := [⟨none, 0⟩, ⟨some 0, 1⟩, ⟨some 1, 2⟩, ⟨some 1, 3⟩, ⟨some 2, 4⟩, ⟨some 3, 4⟩]

/-- Two paths lead to the load. -/
lemma trail_diamond {top head : List Instruction} {path : List Nat} :
    (diamond top head).Trail 4 path ↔ path = [2, 1, 0] ∨ path = [3, 1, 0] := by
  have hentries : (diamond top head).entries = [0] := by rfl
  have h₀ : (diamond top head).predecessors 0 = [] := rfl
  have h₁ : (diamond top head).predecessors 1 = [0] := rfl
  have h₂ : (diamond top head).predecessors 2 = [1] := rfl
  have h₃ : (diamond top head).predecessors 3 = [1] := rfl
  have h₄ : (diamond top head).predecessors 4 = [2, 3] := rfl
  have start (path : List Nat) : (diamond top head).Trail 0 path ↔ path = [] := by
    simp [Procedure.trail_iff (n := 0), hentries, h₀]
  have head (path : List Nat) : (diamond top head).Trail 1 path ↔ path = [0] := by
    simp [Procedure.trail_iff (n := 1), hentries, h₁, start]
  simp [Procedure.trail_iff (n := 2), Procedure.trail_iff (n := 3), Procedure.trail_iff (n := 4),
    hentries, h₂, h₃, h₄, head]

/-- The page of an address is found in one node and its offset added in the next. -/
def splitDiamond : Procedure :=
  diamond [⟨0x1000, .page ⟨"x1"⟩ "0x2000", "adrp x1, 2000"⟩]
    [⟨0x1004, .add ⟨"x1"⟩ ⟨"x1"⟩ (.immediate "64") false, "add x1, x1, #64"⟩]

/-- Here both branches lead the search back to the node that adds the offset, and it adds it twice:
it finds a byte that no path touches. -/
theorem Tracker.backtrack_unsound_diamond :
    splitDiamond.Plain ∧ splitDiamond.Rising ∧ meetingLoad ∈ splitDiamond.codeOf 4 ∧
      meetingLoad.operation = .access (loadAt "x1") ∧ (loadAt "x1").targets = [⟨"x1"⟩] ∧
      ∃ t, backtrack {} (splitDiamond.searchMap splitDiamond.stackHeights) 4 meetingLoad = .ok t ∧
        t.isStackRelative = false ∧
        ¬ splitDiamond.AlwaysAt 4 meetingLoad (loadAt "x1") t.address := by
  refine ⟨Procedure.plain_of_nodes (by decide +kernel),
    Procedure.rising_of_edges (by decide +kernel) (by decide +kernel), List.mem_cons_self, rfl, rfl,
    { offset := 128, base := some 0x2000, visited := 5 }, by decide +kernel, rfl, ?_⟩
  intro always
  have haddress := always [2, 1, 0] (trail_diamond.2 (.inl rfl)) [] [] rfl default fun _ => 0
  have hrun : (loadAt "x1").address default
      (Reading.run default (fun _ => 0) (splitDiamond.codeAlong [2, 1, 0] ++ [])) = 0x2040 := by
    decide +kernel
  rw [hrun] at haddress
  exact absurd haddress (by decide)

/-- The page of an address is found and its offset added in one node. -/
def wholeDiamond : Procedure :=
  diamond [⟨0x1000, .move ⟨"x9"⟩ (.immediate "0"), "mov x9, #0"⟩]
    [⟨0x1004, .page ⟨"x1"⟩ "0x2000", "adrp x1, 2000"⟩,
     ⟨0x1008, .add ⟨"x1"⟩ ⟨"x1"⟩ (.immediate "64") false, "add x1, x1, #64"⟩]

/-- The load behind the two branches is resolved to the byte that is touched. -/
theorem Tracker.backtrack_sound_diamond :
    wholeDiamond.AlwaysAt 4 meetingLoad (loadAt "x1") 0x2040 := by
  refine backtrack_sound wholeDiamond {} 4 meetingLoad (loadAt "x1") ⟨"x1"⟩
    { offset := 64, base := some 0x2000, visited := 3 } (Procedure.plain_of_nodes (by decide +kernel))
    (Procedure.rising_of_edges (by decide +kernel) (by decide +kernel)) rfl rfl (by decide +kernel)
    rfl ?_
  intro t hstart path trail
  have hnew : ofAccess {} (wholeDiamond.searchMap wholeDiamond.stackHeights) 4 meetingLoad.address
      (loadAt "x1") = .ok { pending := OrderedSet.insert {} ⟨"x1"⟩ } := by
    decide +kernel
  obtain rfl := Except.ok.inj (hnew.symm.trans hstart)
  rcases trail_diamond.1 trail with rfl | rfl <;> decide +kernel

end CacheVerdict
