import CacheVerdict.Proofs.StackHeight.Executions

/-!
# Stack heights and unreachable code

A node that no path leads to is never visited, but the meets of its successors read the height behind
its code. That height is unreached, unless an instruction of the code loses the stack pointer; then
it is unknown (`StackHeight.afterAll_unreached`), and the successors are disturbed
(`Procedure.Disturbed`). In all else the heights of a procedure are the least ones that its entries
and the edges between reachable nodes allow (`Procedure.bounds_atEntry`, `Procedure.Bounds.below`).
Main statement: procedures that differ only in unreachable nodes have the same heights exactly where
nodes that one of them disturbs have an unknown height in the other (`Procedure.heights_agree_iff`).
-/

namespace CacheVerdict

/-! ### Instructions that lose the stack pointer -/

/-- Whether an operand is an immediate that can be read. -/
def Operand.isReadable : Operand → Bool
  | .register _ => false
  | .immediate text => (Immediate.value? text).isSome

/-- Whether an operation writes the stack pointer otherwise than by a distance that can be read. -/
def Operation.losesStackPointer : Operation → Bool
  | .move dst _ => dst.isStackPointer
  | .add dst lhs rhs _ => dst.isStackPointer && !(lhs.isStackPointer && rhs.isReadable)
  | .page dst _ => dst.isStackPointer
  | .access a =>
    a.targets.head?.any Register.isStackPointer && a.writeback.any (Immediate.value? · |>.isNone)
  | .branch => false
  | .other => false

namespace StackHeight

variable {h h' k l : StackHeight} {i : Instruction}

/-- What has not been reached stays so, unless the stack pointer is lost. -/
lemma after_unreached (i : Instruction) :
    unreached.after i = if i.operation.losesStackPointer then .unknown else .unreached := by
  have shiftBy (text : String) (negate : Bool) : unreached.shiftBy text negate =
      if (Immediate.value? text).isNone then .unknown else .unreached := by
    unfold StackHeight.shiftBy
    cases Immediate.value? text <;> rfl
  unfold after
  cases i.operation with
  | move dst src => rfl
  | page dst text => rfl
  | branch => rfl
  | other => rfl
  | add dst lhs rhs subtract =>
    cases hdst : dst.isStackPointer with
    | false => simp [Operation.losesStackPointer, hdst]
    | true =>
      cases hlhs : lhs.isStackPointer with
      | false => simp [Operation.losesStackPointer, hdst, hlhs]
      | true =>
        cases rhs with
        | register r => simp [Operation.losesStackPointer, Operand.isReadable, hdst, hlhs]
        | immediate text =>
          simp [Operation.losesStackPointer, Operand.isReadable, hdst, hlhs, shiftBy]
  | access a =>
    cases htargets : a.targets with
    | nil => simp [Operation.losesStackPointer, htargets]
    | cons base rest =>
      cases hwriteback : a.writeback with
      | none => simp [Operation.losesStackPointer, htargets, hwriteback]
      | some text =>
        cases hbase : base.isStackPointer with
        | false => simp [Operation.losesStackPointer, htargets, hwriteback, hbase]
        | true => simp [Operation.losesStackPointer, htargets, hwriteback, hbase, shiftBy]

/-- A height that is lost stays lost. -/
lemma afterAll_unknown (code : List Instruction) : unknown.afterAll code = .unknown := by
  induction code with
  | nil => rfl
  | cons i code ih =>
    have hfirst : unknown.after i = .unknown := by
      rcases after_cases i with hsame | ⟨amount, hshift⟩ | hlost
      · exact hsame _
      · exact hshift _
      · exact hlost _
    show (unknown.after i).afterAll code = .unknown
    rw [hfirst, ih]

/-- The height behind code that nothing leads to. -/
lemma afterAll_unreached (code : List Instruction) : unreached.afterAll code =
    if ∃ i ∈ code, i.operation.losesStackPointer = true then .unknown else .unreached := by
  induction code with
  | nil => simp [afterAll]
  | cons i code ih =>
    show (unreached.after i).afterAll code = _
    rw [after_unreached]
    cases hloses : i.operation.losesStackPointer with
    | true => simp [hloses, afterAll_unknown]
    | false => simp [hloses, ih]

/-! ### Joins of heights -/

/-- Heights that are below one another are the same. -/
lemma Below.antisymm (hk : h.Below k) (hh : k.Below h) : h = k := by
  unfold Below at *
  grind

/-- A height is below its join on the right. -/
lemma below_join_left (h k : StackHeight) : h.Below (h.join k) := by
  unfold Below StackHeight.join
  grind

/-- A height is below its join on the left. -/
lemma below_join_right (h k : StackHeight) : k.Below (h.join k) := by
  unfold Below StackHeight.join
  grind

/-- The join of two heights is their least upper bound. -/
lemma Below.join_below (hl : h.Below l) (kl : k.Below l) : (h.join k).Below l := by
  unfold Below StackHeight.join at *
  grind

/-- A join lies below what all its parts lie below. -/
lemma foldl_below {g : Nat → StackHeight} {qs : List Nat} (hl : h.Below l)
    (hqs : ∀ q ∈ qs, (g q).Below l) : (qs.foldl (fun h q => h.join (g q)) h).Below l := by
  induction qs generalizing h with
  | nil => exact hl
  | cons q qs ih =>
    rw [List.forall_mem_cons] at hqs
    exact ih (hl.join_below hqs.1) hqs.2

/-- And above each of them. -/
lemma below_foldl {g : Nat → StackHeight} {qs : List Nat}
    (hl : l.Below h ∨ ∃ q ∈ qs, l.Below (g q)) :
    l.Below (qs.foldl (fun h q => h.join (g q)) h) :=
  foldl_join (fun h k hh => hh.trans (below_join_left h k))
    (fun h k hk => hk.trans (below_join_right h k)) hl

end StackHeight

/-! ### The least heights -/

namespace Procedure

open StackHeight (Below)

variable {p q : Procedure} {g : Nat → StackHeight} {m n : Nat}

/-- A node that a path leads to is not unreached. -/
lemma Reachable.atEntry_ne (edges : ∀ e ∈ p.edges, p.hasEnds e = true) (h : p.Reachable n) :
    p.stackHeights.atEntry n ≠ .unreached := by
  obtain ⟨sp, executes⟩ := h.exists_executes 0
  intro hunreached
  have hd := executes.describes_atEntry edges
  rw [hunreached] at hd
  exact hd

/-- A node is disturbed if one that no path leads to has an edge to it and loses the stack pointer. -/
def Disturbed (p : Procedure) (n : Nat) : Prop :=
  ∃ m, ¬p.Reachable m ∧ n ∈ p.successors m ∧
    ∃ i ∈ p.codeOf m, i.operation.losesStackPointer = true

/-- Heights of reachable nodes that the entries, the edges between these nodes and the disturbances
allow. -/
structure Bounds (p : Procedure) (g : Nat → StackHeight) : Prop where
  entry : ∀ n ∈ p.entries, Below (.known 0) (g n)
  edge : ∀ m n, p.Reachable m → n ∈ p.successors m → ((g m).afterAll (p.codeOf m)).Below (g n)
  disturbed : ∀ n, p.Reachable n → p.Disturbed n → g n = .unknown

/-- What holds of the iteration all along: only reachable nodes are visited, and their heights stay
within bounds. -/
structure HeldBy (p : Procedure) (g : Nat → StackHeight) (f : HeightFlow) : Prop where
  length : f.entry.length = p.nodes.length
  queue : ∀ n ∈ f.queue, p.Reachable n
  below : ∀ n, p.Reachable n → (f.heightOf n).Below (g n)
  unreached : ∀ n, ¬p.Reachable n → f.heightOf n = .unreached

variable {f : HeightFlow}

/-- The meet at a reachable node is within bounds. -/
lemma HeldBy.meet_below (bounds : p.Bounds g) (held : p.HeldBy g f) (hn : p.Reachable n) :
    (HeightFlow.meet p f n).Below (g n) := by
  refine StackHeight.foldl_below ?_ ?_
  · split
    · rename_i hentry
      exact bounds.entry n hentry
    · exact StackHeight.unreached_below _
  · intro m hm
    have hsucc : n ∈ p.successors m := mem_successors_iff.2 hm
    by_cases hreach : p.Reachable m
    · exact ((held.below m hreach).afterAll _).trans (bounds.edge m n hreach hsucc)
    · rw [held.unreached m hreach, StackHeight.afterAll_unreached]
      split
      · rename_i hloses
        rw [bounds.disturbed n hn ⟨m, hreach, hsucc, hloses⟩]
        exact .refl _
      · exact StackHeight.unreached_below _

/-- A visit keeps to the bounds. -/
lemma HeldBy.visit (edges : ∀ e ∈ p.edges, p.hasEnds e = true) (bounds : p.Bounds g)
    (held : p.HeldBy g f) {rest : List Nat} (hq : f.queue = n :: rest) :
    p.HeldBy g (HeightFlow.visit p { f with queue := rest } n) := by
  have hn : p.Reachable n := held.queue n (by rw [hq]; exact List.mem_cons_self)
  have hrest : ∀ m ∈ rest, p.Reachable m := fun m hm =>
    held.queue m (by rw [hq]; exact List.mem_cons_of_mem _ hm)
  have hheight := HeightFlow.heightOf_visit p rest (held.length ▸ hn.lt edges)
  constructor
  · exact HeightFlow.length_visit.trans held.length
  · intro m hm
    rcases HeightFlow.queue_visit p f n rest with ⟨_, hqueue⟩ | ⟨_, hqueue⟩
    · exact hrest m (hqueue ▸ hm)
    · rcases mem_enqueueAll.1 (hqueue ▸ hm) with hm | hm
      · exact hrest m hm
      · exact hn.edge hm
  · intro m hm
    rw [hheight]
    split
    · rename_i heq
      rw [heq]
      exact held.meet_below bounds hn
    · exact held.below m hm
  · intro m hm
    have hne : m ≠ n := fun heq => hm (heq ▸ hn)
    rw [hheight, if_neg hne]
    exact held.unreached m hm

/-- A run keeps heights under their bounds. -/
lemma HeldBy.run (edges : ∀ e ∈ p.edges, p.hasEnds e = true) (bounds : p.Bounds g)
    (held : p.HeldBy g f) (fuel : Nat) : p.HeldBy g (HeightFlow.run p fuel f) := by
  induction fuel generalizing f with
  | zero => exact held
  | succ fuel ih =>
    rw [HeightFlow.run]
    split
    · exact held
    · rename_i hq
      exact ih (held.visit edges bounds hq)

/-- The heights found are held by their bounds. -/
lemma heldBy_heightFlow (edges : ∀ e ∈ p.edges, p.hasEnds e = true) (bounds : p.Bounds g) :
    p.HeldBy g p.heightFlow := by
  refine HeldBy.run edges bounds ⟨List.length_map _, fun n hn => .entry hn, ?_, ?_⟩ _
  · intro n _
    rw [HeightFlow.heightOf_start]
    exact StackHeight.unreached_below _
  · intro n _
    exact HeightFlow.heightOf_start p n

/-- The heights of a procedure lie below all bounds. -/
lemma Bounds.below (edges : ∀ e ∈ p.edges, p.hasEnds e = true) (bounds : p.Bounds g)
    (hn : p.Reachable n) : (p.stackHeights.atEntry n).Below (g n) :=
  (heldBy_heightFlow edges bounds).below n hn

/-- Nothing is found at a node that no path leads to. -/
lemma atEntry_of_not_reachable (edges : ∀ e ∈ p.edges, p.hasEnds e = true) (hn : ¬p.Reachable n) :
    p.stackHeights.atEntry n = .unreached :=
  (heldBy_heightFlow (g := fun _ => .unknown) edges
    ⟨fun _ _ => .inr (.inr rfl), fun _ _ _ _ => .inr (.inr rfl), fun _ _ _ => rfl⟩).unreached n hn

/-- They are bounds themselves. -/
lemma bounds_atEntry (edges : ∀ e ∈ p.edges, p.hasEnds e = true) :
    p.Bounds p.stackHeights.atEntry := by
  have behind {m n : Nat} (hn : p.Reachable n) (hsucc : n ∈ p.successors m) :
      ((p.stackHeights.atEntry m).afterAll (p.codeOf m)).Below (p.stackHeights.atEntry n) := by
    have hmeet : p.heightFlow.heightOf n = HeightFlow.meet p p.heightFlow n := by
      apply heightOf_heightFlow edges
      cases hn with
      | entry hentry => exact .inl hentry
      | edge hpred hedge => exact .inr ⟨_, mem_successors_iff.1 hedge, hpred.atEntry_ne edges⟩
    rw [atEntry_eq p n, hmeet]
    exact StackHeight.below_foldl (.inr ⟨m, mem_successors_iff.1 hsucc, .refl _⟩)
  refine ⟨?_, ?_, ?_⟩
  · intro n hn
    rw [atEntry_eq, heightOf_heightFlow edges (.inl hn)]
    refine StackHeight.below_foldl (.inl ?_)
    rw [if_pos hn]
    exact .refl _
  · intro m n hm hn
    exact behind (hm.edge hn) hn
  · rintro n hn ⟨m, hm, hsucc, hloses⟩
    have hbelow := behind hn hsucc
    rw [atEntry_of_not_reachable edges hm, StackHeight.afterAll_unreached, if_pos hloses] at hbelow
    exact (hbelow.antisymm (.inr (.inr rfl))).symm

/-! ### Procedures that differ in unreachable nodes -/

/-- The procedures are entered at the same nodes, and the nodes that paths lead to have the same code
and the same successors. -/
structure SameWhereReachable (p q : Procedure) : Prop where
  entries : ∀ n, n ∈ p.entries ↔ n ∈ q.entries
  code : ∀ n, p.Reachable n → p.codeOf n = q.codeOf n
  successors : ∀ m, p.Reachable m → ∀ n, n ∈ p.successors m ↔ n ∈ q.successors m

namespace SameWhereReachable

/-- Reachable nodes stay so in a procedure that is the same where they are. -/
lemma reachable (same : p.SameWhereReachable q) (hn : p.Reachable n) : q.Reachable n := by
  induction hn with
  | entry hn => exact .entry ((same.entries _).1 hn)
  | edge hm hn ih => exact ih.edge ((same.successors _ hm _).1 hn)

/-- The same nodes are reachable in both procedures. -/
lemma reachable_iff (same : p.SameWhereReachable q) : p.Reachable n ↔ q.Reachable n := by
  refine ⟨same.reachable, fun hn => ?_⟩
  induction hn with
  | entry hn => exact .entry ((same.entries _).2 hn)
  | edge _ hn ih => exact ih.edge ((same.successors _ ih _).2 hn)

/-- Two procedures are the same where reachable in either order. -/
lemma symm (same : p.SameWhereReachable q) : q.SameWhereReachable p where
  entries n := (same.entries n).symm
  code n hn := (same.code n (same.reachable_iff.2 hn)).symm
  successors m hm n := (same.successors m (same.reachable_iff.2 hm) n).symm

/-- The heights of the one procedure bound those of the other if they are unknown where the other is
disturbed. -/
lemma bounds (same : p.SameWhereReachable q) (edges : ∀ e ∈ q.edges, q.hasEnds e = true)
    (unknown : ∀ n, p.Reachable n → p.Disturbed n → q.stackHeights.atEntry n = .unknown) :
    p.Bounds q.stackHeights.atEntry where
  entry n hn := (bounds_atEntry edges).entry n ((same.entries n).1 hn)
  edge m n hm hn := by
    rw [same.code m hm]
    exact (bounds_atEntry edges).edge m n (same.reachable hm) ((same.successors m hm n).1 hn)
  disturbed := unknown

end SameWhereReachable

/-- Procedures that differ only in nodes that no path leads to have the same heights where paths
lead, exactly if each node that is disturbed in the one has an unknown height in the other. In
particular they do if nothing is disturbed. -/
theorem heights_agree_iff (same : p.SameWhereReachable q)
    (hp : ∀ e ∈ p.edges, p.hasEnds e = true) (hq : ∀ e ∈ q.edges, q.hasEnds e = true) :
    (∀ n, p.Reachable n →
      p.stackHeights.atEntry n = q.stackHeights.atEntry n ∧
        p.stackHeights.beforeEach n = q.stackHeights.beforeEach n) ↔
      ∀ n, p.Reachable n → (p.Disturbed n → q.stackHeights.atEntry n = .unknown) ∧
        (q.Disturbed n → p.stackHeights.atEntry n = .unknown) := by
  constructor
  · intro agree n hn
    obtain ⟨heq, _⟩ := agree n hn
    constructor
    · intro disturbed
      rw [← heq]
      exact (bounds_atEntry hp).disturbed n hn disturbed
    · intro disturbed
      rw [heq]
      exact (bounds_atEntry hq).disturbed n (same.reachable hn) disturbed
  · intro unknown n hn
    have hpq := (same.bounds hq fun n hn => (unknown n hn).1).below hp hn
    have hqp := (same.symm.bounds hp fun n hn => (unknown n (same.reachable_iff.2 hn)).2).below hq
      (same.reachable hn)
    have heq := hpq.antisymm hqp
    refine ⟨heq, ?_⟩
    rw [beforeEach_eq, beforeEach_eq, heq, same.code n hn]

end Procedure

/-! ### A node that nothing leads to -/

/-- A procedure that makes room for its frame and goes on, to its second or to its third node; the
third it can also be entered at. Nothing leads to the last node, which has the code and leads to the
targets. -/
def strayed (code : List Instruction) (targets : List Nat) : Procedure where
  name := "main"
  nodes :=
    [⟨"start", .straight
      [⟨0x1000, .add ⟨"sp"⟩ ⟨"sp"⟩ (.immediate "#16") true, "sub sp, sp, #16"⟩]⟩,
     ⟨"next", .straight [accessThroughSp 0x1004 none "str x0, [sp]"]⟩,
     ⟨"either", .straight [accessThroughSp 0x1008 none "str x0, [sp]"]⟩,
     ⟨"dead", .straight code⟩]
  edges := [⟨none, 0⟩, ⟨none, 2⟩, ⟨some 0, 1⟩, ⟨some 0, 2⟩] ++ targets.map (⟨some 3, ·⟩)

/-- An instruction that loses the stack pointer. -/
def frameToSp : Instruction :=
  ⟨0x100c, .move ⟨"sp"⟩ (.register ⟨"x29"⟩), "mov sp, x29"⟩

namespace Procedure

variable {code code' : List Instruction} {targets targets' : List Nat} {m n : Nat}

/-- The successors of all nodes but the last. -/
lemma successors_strayed (hm : m ≠ 3) :
    (strayed code targets).successors m = if m = 0 then [1, 2] else [] := by
  have hdead : (targets.map (⟨some 3, ·⟩ : Nat → Edge)).filterMap
      (fun e => if e.source = some m then some e.target else none) = [] := by
    rw [List.filterMap_map, List.filterMap_eq_nil_iff]
    intro target _
    exact if_neg fun heq => hm (Option.some_inj.1 heq).symm
  unfold successors strayed
  rw [List.filterMap_append, hdead, List.append_nil]
  by_cases h : m = 0
  · subst h
    rfl
  · have h' : ¬0 = m := fun heq => h heq.symm
    simp [h, h']

/-- The procedure is entered at its first and its third node. -/
lemma entries_strayed : (strayed code targets).entries = [0, 2] := by
  have hdead : (targets.map (⟨some 3, ·⟩ : Nat → Edge)).filterMap
      (fun e => if e.source.isNone then some e.target else none) = [] := by
    rw [List.filterMap_map, List.filterMap_eq_nil_iff]
    intro target _
    rfl
  unfold entries strayed
  rw [List.filterMap_append, hdead]
  rfl

/-- The last node is not reachable. -/
lemma Reachable.ne_strayed (hn : (strayed code targets).Reachable n) : n ≠ 3 := by
  induction hn with
  | entry hn =>
    rw [entries_strayed] at hn
    rintro rfl
    exact absurd hn (by decide)
  | edge _ hn ih =>
    rw [successors_strayed ih] at hn
    rintro rfl
    split at hn
    · exact absurd hn (by decide)
    · cases hn

/-- Only the last node may disturb others. -/
lemma Disturbed.strayed (h : (strayed code targets).Disturbed n) :
    n ∈ targets ∧ ∃ i ∈ code, i.operation.losesStackPointer = true := by
  obtain ⟨m, hm, hn, hloses⟩ := h
  obtain rfl : m = 3 := by
    by_contra hne
    rw [successors_strayed hne] at hn
    split at hn
    · rename_i hstart
      refine hm (.entry ?_)
      rw [entries_strayed, hstart]
      exact List.mem_cons_self
    · cases hn
  obtain ⟨e, he, hn⟩ := List.mem_filterMap.1 hn
  have htarget : n ∈ targets := by
    simp only [CacheVerdict.strayed, List.cons_append, List.nil_append, List.mem_cons,
      List.mem_map] at he
    rcases he with rfl | rfl | rfl | rfl | ⟨target, htarget, rfl⟩
    all_goals simp_all
  exact ⟨htarget, hloses⟩

/-- What stands in the last node changes nothing where the procedures are reachable. -/
lemma sameWhereReachable_strayed :
    (strayed code targets).SameWhereReachable (strayed code' targets') where
  entries n := by rw [entries_strayed, entries_strayed]
  code n hn := by
    match n with
    | 0 | 1 | 2 => rfl
    | 3 => exact absurd rfl hn.ne_strayed
    | n + 4 => rfl
  successors m hm n := by rw [successors_strayed hm.ne_strayed, successors_strayed hm.ne_strayed]

/-- It does not matter that the last node loses the stack pointer where it is lost anyway. -/
theorem heights_agree_iff_strayed :
    (strayed [frameToSp] [2]).Disturbed 2 ∧
    (∀ n, (strayed [] [1]).Reachable n →
      (strayed [] [1]).stackHeights.atEntry n = (strayed [frameToSp] [2]).stackHeights.atEntry n ∧
        (strayed [] [1]).stackHeights.beforeEach n =
          (strayed [frameToSp] [2]).stackHeights.beforeEach n) := by
  have hdisturbed : (strayed [frameToSp] [2]).Disturbed 2 :=
    ⟨3, fun h => h.ne_strayed rfl, by decide, frameToSp, by decide, rfl⟩
  refine ⟨hdisturbed, ?_⟩
  refine (heights_agree_iff sameWhereReachable_strayed (by decide) (by decide)).2 fun n hn => ?_
  constructor
  · intro h
    obtain ⟨_, i, hi, _⟩ := h.strayed
    cases hi
  · intro h
    obtain rfl : n = 2 := List.mem_singleton.1 h.strayed.1
    decide +kernel

/-- It does where the last node leads to one at which the stack pointer is known. -/
theorem heights_disagree_strayed :
    (strayed [] [1]).SameWhereReachable (strayed [frameToSp] [1]) ∧
    (strayed [] [1]).Reachable 1 ∧
    (strayed [] [1]).stackHeights.atEntry 1 = .known (-16) ∧
    (strayed [frameToSp] [1]).stackHeights.atEntry 1 = .unknown := by
  refine ⟨sameWhereReachable_strayed, ?_, by decide +kernel, by decide +kernel⟩
  have hstart : (strayed [] [1]).Reachable 0 := .entry (by decide)
  exact hstart.edge (by decide)

end Procedure

end CacheVerdict
