import CacheVerdict.Proofs.Resolution.Paths
import CacheVerdict.Proofs.Resolution.TrackedAddress

/-!
# Heights along code that runs

The stack pointer is one of the registers, under two names. What instructions do to it there is what
the stack heights allow for (`Operation.adjusts_execute`), so that on every path the heights describe
it, instruction by instruction (`Described`, `Procedure.Trail.described`).
-/

namespace CacheVerdict

/-- The instruction with one name for the stack pointer. -/
def Instruction.canonical (i : Instruction) : Instruction :=
  { i with operation := i.operation.canonical }

/-! ### The stack pointer among the registers -/

namespace Operation

variable {o : Operation}

/-- An operation that keeps the stack pointer writes another register. -/
lemma destination?_of_keep (h : o.writesStackPointer = false) {dst : Register}
    (hdst : o.destination? = some dst) : dst.isStackPointer = false := by
  cases o with
  | move | add | page =>
    cases hdst
    exact h
  | branch | other => cases hdst
  | access a =>
    simp only [destination?] at hdst
    split at hdst
    · rename_i hwriteback
      simpa [writesStackPointer, hwriteback, hdst] using h
    · cases hdst

/-- What an operation makes of the stack pointer, as one of the registers, is one of its adjustments. -/
lemma adjusts_execute (o : Operation) (ρ : Reading) (regs : RegisterFile) :
    o.Adjusts (regs ⟨"sp"⟩) (o.canonical.execute ρ regs ⟨"sp"⟩) := by
  cases hwrites : o.writesStackPointer with
  | false =>
    have hkeep : o.canonical.execute ρ regs ⟨"sp"⟩ = regs ⟨"sp"⟩ := by
      refine execute_canonical_of_ne (fun dst hdst => ?_) ρ regs
      have hother := destination?_of_keep hwrites hdst
      rw [Register.canonical_of_other hother]
      exact (Register.ne_sp hother).symm
    rw [hkeep]
    exact .keep hwrites
  | true =>
    cases o with
    | move dst src => exact .move hwrites
    | page dst text => exact .page hwrites
    | branch => cases hwrites
    | other => cases hwrites
    | add dst lhs rhs subtract =>
      have hdst := Register.canonical_of_stackPointer hwrites
      cases rhs with
      | register r => exact .addOther hwrites (.inr ⟨r, rfl⟩)
      | immediate text =>
        cases hlhs : lhs.isStackPointer with
        | false => exact .addOther hwrites (.inl hlhs)
        | true =>
          cases hv : Immediate.value? text with
          | none => exact .addUnread hwrites hlhs hv
          | some v =>
            have hlhs' := Register.canonical_of_stackPointer hlhs
            simp only [canonical, Operand.canonical, execute, Operand.value, hdst, hlhs',
              ρ.agrees hv, Function.update_self]
            cases subtract with
            | false => exact .add hwrites hlhs hv
            | true => exact .subtract hwrites hlhs hv
    | access a =>
      obtain ⟨hbase, hwriteback⟩ := Bool.and_eq_true_iff.1 hwrites
      obtain ⟨base, hhead, hbase⟩ := (Option.any_eq_true _ _).1 hbase
      obtain ⟨text, hwriteback⟩ := Option.isSome_iff_exists.1 hwriteback
      cases hv : Immediate.value? text with
      | none => exact .writebackUnread hhead hbase hwriteback hv
      | some v =>
        obtain ⟨rest, htargets⟩ := List.head?_eq_some_iff.1 hhead
        simp only [canonical, MemoryAccess.canonical, htargets, List.map_cons,
          Register.canonical_of_stackPointer hbase, execute, hwriteback, ρ.agrees hv,
          Function.update_self]
        exact .writeback hhead hbase hwriteback hv

end Operation

/-- Running code moves the stack pointer as its instructions do. -/
lemma movesAll_run (ρ : Reading) (regs : RegisterFile) (code : List Instruction) :
    MovesAll code (regs ⟨"sp"⟩) (ρ.run regs (code.map .canonical) ⟨"sp"⟩) := by
  induction code generalizing regs with
  | nil => rfl
  | cons i code ih =>
    exact ⟨_, (i.operation.adjusts_execute ρ regs).moves, ih (i.operation.canonical.execute ρ regs)⟩

/-- Along code that runs, each height describes the stack pointer before its instruction. -/
def Described (ρ : Reading) (base : Address) : RegisterFile → List (Instruction × StackHeight) → Prop
  | _, [] => True
  | regs, e :: rest =>
    e.2.Describes base (regs ⟨"sp"⟩) ∧ Described ρ base (e.1.operation.canonical.execute ρ regs) rest

section

variable {ρ : Reading} {base : Address} {regs : RegisterFile}

/-- Heights describe code in two parts if they describe each part. -/
lemma described_append {l l' : List (Instruction × StackHeight)} :
    Described ρ base regs (l ++ l') ↔ Described ρ base regs l ∧
      Described ρ base (ρ.run regs ((l.map Prod.fst).map .canonical)) l' := by
  induction l generalizing regs with
  | nil => exact ⟨fun h => ⟨trivial, h⟩, And.right⟩
  | cons e l ih =>
    rw [List.cons_append, Described, Described, ih, and_assoc]
    rfl

/-- If a height describes the stack pointer, so do those that follow from it. -/
lemma StackHeight.Describes.described {h : StackHeight} (hd : h.Describes base (regs ⟨"sp"⟩))
    (code : List Instruction) : Described ρ base regs (code.zip (h.beforeEach code)) := by
  induction code generalizing h regs with
  | nil => trivial
  | cons i code ih => exact ⟨hd, ih (hd.after (i.operation.adjusts_execute ρ regs).moves)⟩

end

/-! ### Paths -/

namespace Procedure

variable {p : Procedure}

/-- Code that runs along a path arrives at its end. -/
lemma Trail.arrives {n : Nat} {path : List Nat} (trail : p.Trail n path) (ρ : Reading)
    (regs : RegisterFile) :
    p.Arrives (regs ⟨"sp"⟩) n (ρ.run regs ((p.codeAlong path).map .canonical) ⟨"sp"⟩) := by
  induction trail with
  | entry hn => exact .enter hn
  | edge _ hpred ih =>
    rw [p.codeAlong_cons, List.map_append, ρ.run_append]
    exact .edge ih (mem_successors_iff.2 hpred) (movesAll_run ρ _ _)

/-- The heights of a node describe the stack pointer, on every path that leads there. -/
lemma Trail.described (edges : ∀ e ∈ p.edges, p.hasEnds e = true) {n : Nat} {path : List Nat}
    (trail : p.Trail n path) (ρ : Reading) (regs : RegisterFile) :
    Described ρ (regs ⟨"sp"⟩) (ρ.run regs ((p.codeAlong path).map .canonical))
      ((p.codeOf n).zip (p.stackHeights.beforeEach n)) := by
  rw [beforeEach_eq]
  exact ((trail.arrives ρ regs).describes edges).described (p.codeOf n)

end Procedure

end CacheVerdict
