import CacheVerdict.Proofs.StackHeight.Sound

/-!
# Executions and stack heights

What operations do to the stack pointer, told apart by their operands (`Operation.Adjusts`), and the
points that executions of a procedure come to, instruction by instruction (`Procedure.Executes`).
Every adjustment is one that the heights allow for (`Operation.Adjusts.moves`), so that executions
are paths on which the heights describe the stack pointer. Main statement: the iteration ends, a
height that is known is the distance of the stack pointer from its value on entry, and no path leads
to a node whose height is unreached (`Procedure.stackHeights_sound`).
-/

namespace CacheVerdict

/-! ### Operations -/

namespace Operation

/-- Whether an operation writes the stack pointer. An access does so by its writeback. -/
def writesStackPointer : Operation → Bool
  | .move dst _ => dst.isStackPointer
  | .add dst _ _ _ => dst.isStackPointer
  | .page dst _ => dst.isStackPointer
  | .access a => a.targets.head?.any Register.isStackPointer && a.writeback.isSome
  | .branch => false
  | .other => false

/-- What an operation does to the stack pointer. Immediates that can be read move it, in 64 bits;
whatever else is written to it may be any value. -/
inductive Adjusts : Operation → Address → Address → Prop where
  | add {dst lhs : Register} {text : String} {v : Int64} {sp : Address} :
    dst.isStackPointer = true → lhs.isStackPointer = true → Immediate.value? text = some v →
    Adjusts (.add dst lhs (.immediate text) false) sp (sp + v.toUInt64)
  | subtract {dst lhs : Register} {text : String} {v : Int64} {sp : Address} :
    dst.isStackPointer = true → lhs.isStackPointer = true → Immediate.value? text = some v →
    Adjusts (.add dst lhs (.immediate text) true) sp (sp - v.toUInt64)
  | writeback {a : MemoryAccess} {base : Register} {text : String} {v : Int64} {sp : Address} :
    a.targets.head? = some base → base.isStackPointer = true → a.writeback = some text →
    Immediate.value? text = some v → Adjusts (.access a) sp (sp + v.toUInt64)
  | addUnread {dst lhs : Register} {text : String} {subtract : Bool} {sp sp' : Address} :
    dst.isStackPointer = true → lhs.isStackPointer = true → Immediate.value? text = none →
    Adjusts (.add dst lhs (.immediate text) subtract) sp sp'
  | writebackUnread {a : MemoryAccess} {base : Register} {text : String} {sp sp' : Address} :
    a.targets.head? = some base → base.isStackPointer = true → a.writeback = some text →
    Immediate.value? text = none → Adjusts (.access a) sp sp'
  | addOther {dst lhs : Register} {rhs : Operand} {subtract : Bool} {sp sp' : Address} :
    dst.isStackPointer = true → (lhs.isStackPointer = false ∨ ∃ r, rhs = .register r) →
    Adjusts (.add dst lhs rhs subtract) sp sp'
  | move {dst : Register} {src : Operand} {sp sp' : Address} :
    dst.isStackPointer = true → Adjusts (.move dst src) sp sp'
  | page {dst : Register} {text : String} {sp sp' : Address} :
    dst.isStackPointer = true → Adjusts (.page dst text) sp sp'
  | keep {o : Operation} {sp : Address} : o.writesStackPointer = false → Adjusts o sp sp

/-- Every operation does something to the stack pointer, be it to leave it alone. -/
lemma exists_adjusts (o : Operation) (sp : Address) : ∃ sp', o.Adjusts sp sp' := by
  cases hwrites : o.writesStackPointer with
  | false => exact ⟨sp, .keep hwrites⟩
  | true =>
    cases o with
    | move dst src => exact ⟨sp, .move hwrites⟩
    | page dst text => exact ⟨sp, .page hwrites⟩
    | branch => cases hwrites
    | other => cases hwrites
    | add dst lhs rhs subtract =>
      cases rhs with
      | register r => exact ⟨sp, .addOther hwrites (.inr ⟨r, rfl⟩)⟩
      | immediate text =>
        cases hlhs : lhs.isStackPointer with
        | false => exact ⟨sp, .addOther hwrites (.inl hlhs)⟩
        | true =>
          cases hv : Immediate.value? text with
          | none => exact ⟨sp, .addUnread hwrites hlhs hv⟩
          | some v =>
            cases subtract with
            | false => exact ⟨_, .add hwrites hlhs hv⟩
            | true => exact ⟨_, .subtract hwrites hlhs hv⟩
    | access a =>
      obtain ⟨hbase, hwriteback⟩ := Bool.and_eq_true_iff.1 hwrites
      obtain ⟨base, hhead, hbase⟩ := (Option.any_eq_true _ _).1 hbase
      obtain ⟨text, hwriteback⟩ := Option.isSome_iff_exists.1 hwriteback
      cases hv : Immediate.value? text with
      | none => exact ⟨sp, .writebackUnread hhead hbase hwriteback hv⟩
      | some v => exact ⟨_, .writeback hhead hbase hwriteback hv⟩

end Operation

namespace StackHeight

variable {i : Instruction} {h : StackHeight}

/-- Adding to the stack pointer moves the height by the immediate. -/
lemma after_of_add {dst lhs : Register} {text : String} {subtract : Bool}
    (hi : i.operation = .add dst lhs (.immediate text) subtract) (hdst : dst.isStackPointer = true)
    (hlhs : lhs.isStackPointer = true) : h.after i = h.shiftBy text subtract := by
  simp [after, hi, hdst, hlhs]

/-- Writing back to the stack pointer moves the height by the immediate. -/
lemma after_of_writeback {a : MemoryAccess} {base : Register} {text : String}
    (hi : i.operation = .access a) (hhead : a.targets.head? = some base)
    (hbase : base.isStackPointer = true) (hwriteback : a.writeback = some text) :
    h.after i = h.shiftBy text false := by
  obtain ⟨rest, htargets⟩ := List.head?_eq_some_iff.1 hhead
  simp [after, hi, htargets, hwriteback, hbase]

/-- A height moves by the value of the immediate. -/
lemma shiftBy_of_read {text : String} {v : Int64} (hv : Immediate.value? text = some v)
    (negate : Bool) : (known 0).shiftBy text negate = .known (if negate then -v else v) := by
  simp [shiftBy, hv, shift]

/-- An operation that does not write the stack pointer keeps its height. -/
lemma after_of_keep (hi : i.operation.writesStackPointer = false) : h.after i = h := by
  unfold after
  cases hop : i.operation with
  | move dst src =>
    rw [hop] at hi
    exact if_neg (Bool.eq_false_iff.1 hi)
  | add dst lhs rhs subtract =>
    rw [hop] at hi
    exact if_neg (Bool.eq_false_iff.1 hi)
  | page dst text =>
    rw [hop] at hi
    exact if_neg (Bool.eq_false_iff.1 hi)
  | branch => rfl
  | other => rfl
  | access a =>
    rw [hop] at hi
    cases htargets : a.targets with
    | nil => simp only [htargets]
    | cons base rest =>
      cases hwriteback : a.writeback with
      | none => simp only [htargets, hwriteback]
      | some text =>
        have hbase : base.isStackPointer = false := by
          simpa [Operation.writesStackPointer, htargets, hwriteback] using hi
        simp [htargets, hwriteback, hbase]

end StackHeight

/-- What an operation does to the stack pointer is what its height allows for. -/
lemma Operation.Adjusts.moves {i : Instruction} {sp sp' : Address}
    (adjusts : i.operation.Adjusts sp sp') : i.Moves sp sp' := by
  unfold Instruction.Moves
  generalize hi : i.operation = o at adjusts
  cases adjusts with
  | add hdst hlhs hv =>
    rw [StackHeight.after_of_add hi hdst hlhs, StackHeight.shiftBy_of_read hv]
    rfl
  | @subtract _ _ _ v _ hdst hlhs hv =>
    rw [StackHeight.after_of_add hi hdst hlhs, StackHeight.shiftBy_of_read hv]
    show sp - v.toUInt64 = sp + (-v).toUInt64
    rw [Int64.toUInt64_neg, UInt64.sub_eq_add_neg]
  | writeback hhead hbase hwriteback hv =>
    rw [StackHeight.after_of_writeback hi hhead hbase hwriteback, StackHeight.shiftBy_of_read hv]
    rfl
  | addUnread hdst hlhs hv =>
    rw [StackHeight.after_of_add hi hdst hlhs, StackHeight.shiftBy, hv]
    trivial
  | writebackUnread hhead hbase hwriteback hv =>
    rw [StackHeight.after_of_writeback hi hhead hbase hwriteback, StackHeight.shiftBy, hv]
    trivial
  | @addOther _ lhs _ _ _ _ hdst hother =>
    have hlost : (StackHeight.known 0).after i = .unknown := by
      rcases hother with hlhs | ⟨r, rfl⟩
      · simp [StackHeight.after, hi, hdst, hlhs]
      · cases hlhs : lhs.isStackPointer <;> simp [StackHeight.after, hi, hdst, hlhs]
    rw [hlost]
    trivial
  | move hdst =>
    rw [show (StackHeight.known 0).after i = .unknown by simp [StackHeight.after, hi, hdst]]
    trivial
  | page hdst =>
    rw [show (StackHeight.known 0).after i = .unknown by simp [StackHeight.after, hi, hdst]]
    trivial
  | keep hkeep =>
    rw [StackHeight.after_of_keep (hi ▸ hkeep)]
    exact (UInt64.add_zero sp).symm

/-! ### Executions -/

/-- The points that executions of a procedure come to, with the stack pointer there, which was `base`
on entry. `p.Executes base n j sp` stands before instruction `j` of node `n`, or behind the last one.
A call brings the stack pointer back, and a node that calls has no instructions of its own. -/
inductive Procedure.Executes (p : Procedure) (base : Address) : Nat → Nat → Address → Prop where
  | enter {n : Nat} : n ∈ p.entries → p.Executes base n 0 base
  | instruction {n j : Nat} {i : Instruction} {sp sp' : Address} :
    p.Executes base n j sp → (p.codeOf n)[j]? = some i → i.operation.Adjusts sp sp' →
    p.Executes base n (j + 1) sp'
  | edge {m n : Nat} {sp : Address} :
    p.Executes base m (p.codeOf m).length sp → n ∈ p.successors m → p.Executes base n 0 sp

namespace Procedure

variable {p : Procedure} {base sp sp' : Address} {m n j : Nat}

/-- Code may do what its front and its last instruction may do. -/
lemma movesAll_concat {code : List Instruction} {i : Instruction} {mid : Address}
    (front : MovesAll code sp mid) (last : i.Moves mid sp') : MovesAll (code ++ [i]) sp sp' := by
  induction code generalizing sp with
  | nil =>
    cases front
    exact ⟨sp', last, rfl⟩
  | cons first code ih =>
    obtain ⟨next, hfirst, hrest⟩ := front
    exact ⟨next, hfirst, ih hrest⟩

/-- An execution arrives at a node and goes through the first of its instructions. -/
lemma Executes.arrives (executes : p.Executes base n j sp) :
    ∃ start, p.Arrives base n start ∧ MovesAll ((p.codeOf n).take j) start sp := by
  induction executes with
  | enter hn => exact ⟨base, .enter hn, rfl⟩
  | @instruction n j i sp sp' _ hi adjusts ih =>
    obtain ⟨start, harrives, hmoves⟩ := ih
    refine ⟨start, harrives, ?_⟩
    rw [List.take_add_one, hi]
    exact movesAll_concat hmoves adjusts.moves
  | @edge m n sp _ hn ih =>
    obtain ⟨start, harrives, hmoves⟩ := ih
    rw [List.take_length] at hmoves
    exact ⟨sp, .edge harrives hn hmoves, rfl⟩

/-- No execution gets stuck within a node. -/
lemma Executes.through (executes : p.Executes base n 0 sp) (hj : j ≤ (p.codeOf n).length) :
    ∃ sp', p.Executes base n j sp' := by
  induction j with
  | zero => exact ⟨sp, executes⟩
  | succ j ih =>
    obtain ⟨mid, hmid⟩ := ih (Nat.le_of_succ_le hj)
    obtain ⟨sp', adjusts⟩ := (p.codeOf n)[j].operation.exists_adjusts mid
    exact ⟨sp', .instruction hmid (List.getElem?_eq_getElem hj) adjusts⟩

/-- Every path from an entry is the path of an execution. -/
lemma Reachable.exists_executes (h : p.Reachable n) (base : Address) :
    ∃ sp, p.Executes base n 0 sp := by
  induction h with
  | entry hn => exact ⟨base, .enter hn⟩
  | edge _ hn ih =>
    obtain ⟨sp, executes⟩ := ih
    obtain ⟨sp', hend⟩ := executes.through le_rfl
    exact ⟨sp', .edge hend hn⟩

/-- Every path from an entry is executed by some run. -/
lemma exists_executes (base : Address) (hm : m ∈ p.entries)
    (path : Relation.ReflTransGen (fun m n => n ∈ p.successors m) m n) :
    ∃ sp, p.Executes base n 0 sp :=
  (Reachable.of_path hm path).exists_executes base

end Procedure

/-! ### Heights before instructions -/

/-- The height before an instruction is the one after those in front of it. -/
lemma StackHeight.getElem?_beforeEach {h k : StackHeight} {code : List Instruction} {j : Nat}
    (hk : (h.beforeEach code)[j]? = some k) : k = h.afterAll (code.take j) := by
  induction code generalizing h j with
  | nil => cases hk
  | cons i code ih =>
    cases j with
    | zero => exact (Option.some_inj.1 hk).symm
    | succ j => exact ih hk

/-- The iteration keeps the number of nodes. -/
lemma HeightFlow.length_run (p : Procedure) (fuel : Nat) (f : HeightFlow) :
    (run p fuel f).entry.length = f.entry.length := by
  induction fuel generalizing f with
  | zero => rfl
  | succ fuel ih =>
    unfold run
    split
    · rfl
    · rw [ih, length_visit]

/-- The heights before the instructions of a node follow from the one at its entry. -/
lemma Procedure.beforeEach_eq (p : Procedure) (n : Nat) :
    p.stackHeights.beforeEach n = (p.stackHeights.atEntry n).beforeEach (p.codeOf n) := by
  have hbefore : p.stackHeights.before =
      p.nodes.zipWith (fun n h => h.beforeEach n.code) p.stackHeights.entry := rfl
  have hlength : p.stackHeights.entry.length = p.nodes.length := by
    show (HeightFlow.run p _ (.start p)).entry.length = _
    rw [HeightFlow.length_run, HeightFlow.start, List.length_map]
  unfold StackHeights.beforeEach StackHeights.atEntry codeOf
  rw [hbefore, List.getElem?_zipWith]
  cases hnode : p.nodes[n]? with
  | none => rfl
  | some node =>
    obtain ⟨hlt, _⟩ := List.getElem?_eq_some_iff.1 hnode
    rw [List.getElem?_eq_getElem (hlength.symm ▸ hlt)]
    rfl

/-- The height before an instruction is the one on entry after those in front of it. -/
lemma Procedure.getElem?_beforeEach {p : Procedure} {n j : Nat} {k : StackHeight}
    (hk : (p.stackHeights.beforeEach n)[j]? = some k) :
    k = (p.stackHeights.atEntry n).afterAll ((p.codeOf n).take j) := by
  rw [beforeEach_eq] at hk
  exact StackHeight.getElem?_beforeEach hk

section

variable {p : Procedure} {base sp : Address} {n j : Nat}

/-- At the entry of a node that an execution comes to, the height describes the stack pointer. -/
lemma Procedure.Executes.describes_atEntry (edges : ∀ e ∈ p.edges, p.hasEnds e = true)
    (executes : p.Executes base n 0 sp) : (p.stackHeights.atEntry n).Describes base sp := by
  obtain ⟨start, harrives, hmoves⟩ := executes.arrives
  obtain rfl : sp = start := hmoves
  exact harrives.describes edges

/-- So it does before each of its instructions. -/
lemma Procedure.Executes.describes_beforeEach (edges : ∀ e ∈ p.edges, p.hasEnds e = true)
    (executes : p.Executes base n j sp) {k : StackHeight}
    (hk : (p.stackHeights.beforeEach n)[j]? = some k) : k.Describes base sp := by
  obtain ⟨start, harrives, hmoves⟩ := executes.arrives
  rw [getElem?_beforeEach hk]
  exact (harrives.describes edges).afterAll hmoves

end

/-! ### The iteration ends -/

/-- Once no node waits, more visits change nothing. -/
lemma HeightFlow.run_of_le {p : Procedure} {f : HeightFlow} {fuel fuel' : Nat} (hle : fuel ≤ fuel')
    (hqueue : (run p fuel f).queue = []) : run p fuel' f = run p fuel f := by
  induction fuel generalizing f fuel' with
  | zero =>
    have hempty : f.queue = [] := hqueue
    cases fuel' with
    | zero => rfl
    | succ fuel' => simp only [run, hempty]
  | succ fuel ih =>
    cases fuel' with
    | zero => exact absurd hle (Nat.not_succ_le_zero _)
    | succ fuel' =>
      unfold run at hqueue ⊢
      cases hf : f.queue with
      | nil => rfl
      | cons n rest =>
        rw [hf] at hqueue
        exact ih (Nat.le_of_succ_le_succ hle) hqueue

/-- The iteration for the stack heights ends. In every execution, a height that is known is how far
the stack pointer is from its value on entry, and no path from an entry leads to a node that is
unreached. -/
theorem Procedure.stackHeights_sound {p : Procedure} (edges : ∀ e ∈ p.edges, p.hasEnds e = true) :
    (∃ visits, ∀ fuel, visits ≤ fuel →
      (HeightFlow.run p fuel (.start p)).queue = [] ∧
        (HeightFlow.run p fuel (.start p)).entry = p.stackHeights.entry) ∧
    (∀ base n j sp, p.Executes base n j sp → ∀ h : Int64,
      (j = 0 → p.stackHeights.atEntry n = .known h → sp = base + h.toUInt64) ∧
        ((p.stackHeights.beforeEach n)[j]? = some (.known h) → sp = base + h.toUInt64)) ∧
    ∀ n, p.stackHeights.atEntry n = .unreached →
      ∀ m ∈ p.entries, ¬ Relation.ReflTransGen (fun m n => n ∈ p.successors m) m n := by
  refine ⟨?_, ?_, ?_⟩
  · have hqueue := ((HeightFlow.climbing_start edges).run edges
      (HeightFlow.pending_start_le edges)).2
    refine ⟨p.nodes.length + 2 * p.edges.length, fun fuel hfuel => ?_⟩
    rw [HeightFlow.run_of_le hfuel hqueue]
    exact ⟨hqueue, rfl⟩
  · intro base n j sp executes h
    constructor
    · rintro rfl hentry
      have hd := executes.describes_atEntry edges
      rwa [hentry] at hd
    · exact fun hbefore => executes.describes_beforeEach edges hbefore
  · intro n hunreached m hm path
    obtain ⟨sp, executes⟩ := exists_executes 0 hm path
    have hd := executes.describes_atEntry edges
    rw [hunreached] at hd
    exact hd

/-! ### A loop that pushes -/

/-- An access through the stack pointer, with or without a writeback. -/
def accessThroughSp (address : Address) (writeback : Option String) (text : String) : Instruction :=
  ⟨address, .access ⟨[⟨"sp"⟩], writeback, false, true, writeback⟩, text⟩

/-- A procedure that makes room for its frame, loops once without and once with moving the stack
pointer, and has a node that nothing leads to. -/
def pushingLoop : Procedure where
  name := "main"
  nodes :=
    [⟨"start", .straight
      [⟨0x1000, .add ⟨"sp"⟩ ⟨"sp"⟩ (.immediate "#32") true, "sub sp, sp, #32"⟩,
       accessThroughSp 0x1004 none "str x0, [sp]"]⟩,
     ⟨"steady", .loopHead [accessThroughSp 0x1008 none "str x0, [sp]"]⟩,
     ⟨"pushing", .loopHead [accessThroughSp 0x100c (some "#-16") "str x0, [sp, #-16]!"]⟩,
     ⟨"dead", .straight [accessThroughSp 0x1010 none "str x0, [sp]"]⟩]
  edges := [⟨none, 0⟩, ⟨some 0, 1⟩, ⟨some 1, 1⟩, ⟨some 1, 2⟩, ⟨some 2, 2⟩]

/-- In the steady loop the stack pointer is always 32 bytes below its value on entry, and so it is
before the second instruction; no path leads to the dead node. In the pushing loop nothing is known. -/
theorem Procedure.stackHeights_sound_pushingLoop :
    (∀ e ∈ pushingLoop.edges, pushingLoop.hasEnds e = true) ∧
    pushingLoop.stackHeights.atEntry 2 = .unknown ∧
    (∀ sp, pushingLoop.Executes 0x7ffff000 0 1 sp → sp = 0x7fffefe0) ∧
    (∀ sp, pushingLoop.Executes 0x7ffff000 1 0 sp → sp = 0x7fffefe0) ∧
    ¬ Relation.ReflTransGen (fun m n => n ∈ pushingLoop.successors m) 0 3 := by
  have hedges : ∀ e ∈ pushingLoop.edges, pushingLoop.hasEnds e = true := by decide
  have hsecond : (pushingLoop.stackHeights.beforeEach 0)[1]? = some (.known (-32)) := by
    decide +kernel
  have hsteady : pushingLoop.stackHeights.atEntry 1 = .known (-32) := by decide +kernel
  have hdead : pushingLoop.stackHeights.atEntry 3 = .unreached := by decide +kernel
  obtain ⟨-, sound, unreached⟩ := stackHeights_sound hedges
  refine ⟨hedges, by decide +kernel, fun sp executes => ?_, fun sp executes => ?_, ?_⟩
  · exact (sound _ _ _ sp executes (-32)).2 hsecond
  · exact (sound _ _ _ sp executes (-32)).1 rfl hsteady
  · exact unreached 3 hdead 0 (by decide)

end CacheVerdict
