import Mathlib.Algebra.BigOperators.Group.List.Basic
import CacheVerdict.Proofs.Resolution.Registers

/-!
# The address that a walk keeps

A tracker stands for a sum: a base, an offset, the pending registers, and the stack pointer as often
as it has entered. Walking backwards over an instruction puts the sum that the instruction assigns
to a pending register in its place (`Operation.Assigns`, `Tracker.step_cases`), so that the tracker
stands for the same address in front of the instruction as behind it (`Tracker.step_value`). The
stack pointer is not followed any further: it counts with the value that it has where it enters.
-/

namespace CacheVerdict

/-! ### One name for the stack pointer -/

/-- The register that a name stands for; the stack pointer has two. -/
def Register.canonical (r : Register) : Register :=
  if r.isStackPointer then ⟨"sp"⟩ else r

/-- The operand with its register under its canonical name. -/
def Operand.canonical : Operand → Operand
  | .register r => .register r.canonical
  | .immediate text => .immediate text

/-- The access with its registers under their canonical names. -/
def MemoryAccess.canonical (a : MemoryAccess) : MemoryAccess :=
  { a with targets := a.targets.map Register.canonical }

/-- The operation with its registers under their canonical names. -/
def Operation.canonical : Operation → Operation
  | .move dst src => .move dst.canonical src.canonical
  | .add dst lhs rhs subtract => .add dst.canonical lhs.canonical rhs.canonical subtract
  | .page dst text => .page dst.canonical text
  | .access a => .access a.canonical
  | .branch => .branch
  | .other => .other

namespace Register

variable {r : Register}

/-- All names of the stack pointer stand for one. -/
lemma canonical_of_stackPointer (h : r.isStackPointer = true) : r.canonical = ⟨"sp"⟩ :=
  if_pos h

/-- Other registers have one name. -/
lemma canonical_of_other (h : r.isStackPointer = false) : r.canonical = r :=
  if_neg (Bool.eq_false_iff.1 h)

/-- A register that is not the stack pointer does not go by its name. -/
lemma ne_sp (h : r.isStackPointer = false) : r ≠ ⟨"sp"⟩ := by
  rintro rfl
  cases h

end Register

/-! ### What operations assign -/

namespace Operation

/-- The register that an operation writes. An access does so by its writeback. -/
def destination? : Operation → Option Register
  | .move dst _ => some dst
  | .add dst _ _ _ => some dst
  | .page dst _ => some dst
  | .access a => if a.writeback.isSome then a.targets.head? else none
  | .branch => none
  | .other => none

/-- The operation assigns to a register the sum of others and of a constant. -/
inductive Assigns : Operation → Register → List Register → Int64 → Prop where
  | moveRegister {dst r : Register} : Assigns (.move dst (.register r)) dst [r] 0
  | moveImmediate {dst : Register} {text : String} {v : Int64} :
    Immediate.value? text = some v → Assigns (.move dst (.immediate text)) dst [] v
  | addRegister {dst lhs r : Register} : Assigns (.add dst lhs (.register r) false) dst [lhs, r] 0
  | addImmediate {dst lhs : Register} {text : String} {v : Int64} :
    Immediate.value? text = some v → Assigns (.add dst lhs (.immediate text) false) dst [lhs] v
  | subtractImmediate {dst lhs : Register} {text : String} {v : Int64} :
    Immediate.value? text = some v → Assigns (.add dst lhs (.immediate text) true) dst [lhs] (-v)
  | page {dst : Register} {text : String} {v : Int64} :
    Immediate.value? text = some v → Assigns (.page dst text) dst [] v
  | writeback {a : MemoryAccess} {base : Register} {rest : List Register} {text : String}
    {v : Int64} : a.targets = base :: rest → a.writeback = some text →
    Immediate.value? text = some v → Assigns (.access a) base [base] v

/-- Whether the operation loads the address of a page. -/
def isPage : Operation → Bool
  | .page _ _ => true
  | _ => false

variable {o : Operation}

/-- The other registers are left alone. -/
lemma execute_of_ne {r : Register} (h : ∀ dst, o.destination? = some dst → r ≠ dst)
    (ρ : Reading) (regs : RegisterFile) : o.execute ρ regs r = regs r := by
  cases o with
  | move dst src => exact Function.update_of_ne (h dst rfl) _ _
  | add dst lhs rhs subtract => exact Function.update_of_ne (h dst rfl) _ _
  | page dst text => exact Function.update_of_ne (h dst rfl) _ _
  | branch => rfl
  | other => rfl
  | access a =>
    cases htargets : a.targets with
    | nil => simp only [execute, htargets]
    | cons base rest =>
      cases hwriteback : a.writeback with
      | none => simp only [execute, htargets, hwriteback]
      | some text =>
        have hne : r ≠ base := h base (by simp [destination?, htargets, hwriteback])
        simp only [execute, htargets, hwriteback, Function.update_of_ne hne]

/-- The destination goes by its canonical name as well. -/
lemma destination?_canonical : o.canonical.destination? = o.destination?.map .canonical := by
  cases o with
  | access a =>
    simp only [canonical, destination?, MemoryAccess.canonical, List.head?_map]
    split <;> rfl
  | _ => rfl

/-- Executing an operation leaves the other registers alone. -/
lemma execute_canonical_of_ne {r : Register}
    (h : ∀ dst, o.destination? = some dst → r ≠ dst.canonical) (ρ : Reading) (regs : RegisterFile) :
    o.canonical.execute ρ regs r = regs r := by
  refine execute_of_ne (fun dst hdst => ?_) ρ regs
  rw [destination?_canonical] at hdst
  obtain ⟨written, hwritten, rfl⟩ := Option.map_eq_some_iff.1 hdst
  exact h written hwritten

/-- What an operation assigns is what the register holds behind it. -/
lemma Assigns.execute {dst : Register} {sources : List Register} {v : Int64}
    (assigns : o.Assigns dst sources v) (ρ : Reading) (regs : RegisterFile) :
    o.canonical.execute ρ regs = Function.update regs dst.canonical
      ((sources.map fun r => regs r.canonical).sum + v.toUInt64) := by
  have hzero : (0 : Int64).toUInt64 = 0 := rfl
  cases assigns with
  | moveRegister => simp [canonical, Operand.canonical, Operation.execute, Operand.value, hzero]
  | moveImmediate hv =>
    simp [canonical, Operand.canonical, Operation.execute, Operand.value, ρ.agrees hv]
  | addRegister => simp [canonical, Operand.canonical, Operation.execute, Operand.value, hzero]
  | addImmediate hv =>
    simp [canonical, Operand.canonical, Operation.execute, Operand.value, ρ.agrees hv]
  | subtractImmediate hv =>
    simp [canonical, Operand.canonical, Operation.execute, Operand.value, ρ.agrees hv,
      sub_eq_add_neg]
  | page hv => simp [canonical, Operation.execute, ρ.agrees hv]
  | writeback htargets hwriteback hv =>
    simp [canonical, MemoryAccess.canonical, Operation.execute, htargets, hwriteback, ρ.agrees hv]

end Operation

/-! ### Sums over pending registers -/

namespace OrderedSet

variable {α : Type} [Ord α]

/-- The elements that are left after one was dropped. -/
lemma mem_erase [DecidableEq α] {s : OrderedSet α} {a b : α} :
    b ∈ s.erase a ↔ b ∈ s ∧ b ≠ a := by
  simp [erase]

variable [Std.TransOrd α] [Std.LawfulEqOrd α]

/-- An element that was added is listed once more. -/
lemma perm_insert {s : OrderedSet α} {a : α} (h : a ∉ s) :
    (s.insert a).toList.Perm (a :: s.toList) := by
  refine (List.perm_ext_iff_of_nodup (nodup_toList _) (List.nodup_cons.2 ⟨h, nodup_toList _⟩)).2
    fun b => ?_
  rw [← mem_def, mem_insert, List.mem_cons, mem_def]

/-- An element that is dropped and put back. -/
lemma insert_erase [DecidableEq α] {s : OrderedSet α} {a : α} (h : a ∈ s) :
    (s.erase a).insert a = s := by
  refine ext_mem fun b => ?_
  rw [mem_insert, mem_erase]
  constructor
  · rintro (rfl | ⟨hb, _⟩)
    · exact h
    · exact hb
  · intro hb
    by_cases hba : b = a
    · exact .inl hba
    · exact .inr ⟨hb, hba⟩

end OrderedSet

namespace Tracker

variable {t t' : Tracker} {r : Register} {sources : List Register} {regs regs' : RegisterFile}

/-- The stack pointer is not among the pending registers. -/
def Clean (t : Tracker) : Prop :=
  ∀ r ∈ t.pending, r.isStackPointer = false

/-- The registers that are to enter, apart from the stack pointer, are different ones and none of
them is pending. -/
structure Fresh (t : Tracker) (sources : List Register) : Prop where
  nodup : (sources.filter (!·.isStackPointer)).Nodup
  not_pending : ∀ r ∈ sources, r.isStackPointer = false → r ∉ t.pending

/-- A register that enters adds its value. -/
lemma value_track (h : r.isStackPointer = false → r ∉ t.pending) (regs : RegisterFile) :
    (t.track r).value regs = t.value regs + regs r.canonical := by
  unfold track
  cases hr : r.isStackPointer with
  | true =>
    rw [if_pos rfl, Register.canonical_of_stackPointer hr]
    simp only [value, UInt64.ofNat_add]
    grind
  | false =>
    have hsum : ((t.pending.insert r).toList.map regs).sum =
        regs r + (t.pending.toList.map regs).sum :=
      ((OrderedSet.perm_insert (h hr)).map regs).sum_eq
    rw [if_neg (by simp), Register.canonical_of_other hr]
    simp only [value, hsum]
    grind

/-- The other sources stay fresh once one of them is tracked. -/
lemma Fresh.tail (fresh : t.Fresh (r :: sources)) : (t.track r).Fresh sources := by
  obtain ⟨hnodup, hpending⟩ := fresh
  rw [List.forall_mem_cons] at hpending
  unfold track
  cases hr : r.isStackPointer with
  | true =>
    rw [List.filter_cons_of_neg (by simp [hr])] at hnodup
    exact ⟨hnodup, hpending.2⟩
  | false =>
    rw [List.filter_cons_of_pos (by simp [hr]), List.nodup_cons] at hnodup
    refine ⟨hnodup.2, fun x hx hsp hmem => ?_⟩
    rcases OrderedSet.mem_insert.1 hmem with rfl | hmem
    · exact hnodup.1 (List.mem_filter.2 ⟨hx, by simp [hsp]⟩)
    · exact hpending.2 x hx hsp hmem

/-- Tracking sources adds up their values. -/
lemma value_foldl_track (fresh : t.Fresh sources) (regs : RegisterFile) :
    (sources.foldl track t).value regs =
      t.value regs + (sources.map fun r => regs r.canonical).sum := by
  induction sources generalizing t with
  | nil => simp
  | cons r sources ih =>
    have hvalue := value_track (fresh.not_pending r List.mem_cons_self) regs
    rw [List.foldl_cons, ih fresh.tail, hvalue, List.map_cons, List.sum_cons, add_assoc]

/-- A register that is followed no more takes its value away. -/
lemma value_erase (hr : r ∈ t.pending) (regs : RegisterFile) :
    t.value regs = (t.replace r []).value regs + regs r := by
  have hperm : t.pending.toList.Perm (r :: (t.pending.erase r).toList) := by
    have hinsert := OrderedSet.perm_insert
      (s := t.pending.erase r) (fun h => (OrderedSet.mem_erase.1 h).2 rfl)
    rwa [OrderedSet.insert_erase hr] at hinsert
  have hsum : (t.pending.toList.map regs).sum =
      regs r + ((t.pending.erase r).toList.map regs).sum := (hperm.map regs).sum_eq
  simp only [value, replace, List.foldl_nil, hsum]
  grind

/-! ### Walking backwards -/

/-- Tracking a register keeps a tracker clean. -/
lemma Clean.track (clean : t.Clean) (r : Register) : (t.track r).Clean := by
  unfold Tracker.track
  split
  · exact clean
  · rename_i hr
    intro x hx
    rcases OrderedSet.mem_insert.1 hx with rfl | hx
    · exact Bool.eq_false_iff.2 hr
    · exact clean x hx

/-- So does tracking several ones. -/
lemma Clean.foldl_track (clean : t.Clean) (sources : List Register) :
    (sources.foldl Tracker.track t).Clean := by
  induction sources generalizing t with
  | nil => exact clean
  | cons r sources ih => exact ih (clean.track r)

/-- So does replacing one by its sources. -/
lemma Clean.replace (clean : t.Clean) (r : Register) (sources : List Register) :
    (t.replace r sources).Clean :=
  foldl_track (fun x hx => clean x (OrderedSet.mem_erase.1 hx).1) sources

/-- A tracker starts clean. -/
lemma clean_start (targets : List Register) (offset : Int64) (isRange : Bool) :
    (start targets offset isRange).Clean :=
  Clean.foldl_track (fun _ hx => absurd hx (OrderedSet.not_mem_empty _)) targets

/-- Replacing a register keeps the base. -/
lemma base_replace (t : Tracker) (r : Register) (sources : List Register) :
    (t.replace r sources).base = t.base := by
  have fold (t : Tracker) : (sources.foldl track t).base = t.base := by
    induction sources generalizing t with
    | nil => rfl
    | cons r sources ih =>
      rw [List.foldl_cons, ih, track]
      split <;> rfl
  exact fold _

/-- Replacing a pending register by itself changes nothing. -/
lemma replace_self (hr : r ∈ t.pending) (hsp : r.isStackPointer = false) : t.replace r [r] = t := by
  rw [replace, List.foldl_cons, List.foldl_nil, track, if_neg (Bool.eq_false_iff.1 hsp)]
  simp only [OrderedSet.insert_erase hr]

/-- What the walk makes of a register that is assigned: its sources enter in its place, and the
constant goes to the offset, or is the base if it is a page. -/
def assigned (t : Tracker) (isPage : Bool) (dst : Register) (sources : List Register) (v : Int64) :
    Tracker :=
  if isPage then { t.replace dst sources with base := some v.toUInt64 }
  else (t.replace dst sources).shift v

/-- A step of the walk finds nothing that is pending, or an assignment to a pending register. -/
lemma step_cases (clean : t.Clean) {i : Instruction} (h : t.step i = .ok t') :
    (t' = t ∧ ∀ dst, i.operation.destination? = some dst → dst ∉ t.pending) ∨
      ∃ dst sources v, i.operation.Assigns dst sources v ∧ dst ∈ t.pending ∧
        t' = t.assigned i.operation.isPage dst sources v := by
  unfold Tracker.step at h
  cases hop : i.operation with
  | branch | other =>
    rw [hop] at h
    cases h
    exact .inl ⟨rfl, nofun⟩
  | move dst src =>
    simp only [hop] at h
    by_cases hdst : dst ∈ t.pending
    · rw [if_pos hdst] at h
      cases src with
      | immediate text =>
        obtain ⟨v, hv, h⟩ := exists_of_read h
        cases h
        exact .inr ⟨dst, [], v, .moveImmediate hv, hdst, rfl⟩
      | register r =>
        cases h
        refine .inr ⟨dst, [r], 0, .moveRegister, hdst, ?_⟩
        simp [assigned, Operation.isPage, shift]
    · rw [if_neg hdst] at h
      cases h
      exact .inl ⟨rfl, fun _ heq => Option.some_inj.1 heq ▸ hdst⟩
  | add dst lhs rhs subtract =>
    simp only [hop] at h
    by_cases hdst : dst ∈ t.pending
    · rw [if_pos hdst] at h
      cases rhs with
      | immediate text =>
        obtain ⟨v, hv, h⟩ := exists_of_read h
        cases h
        -- a register that is its own source stays pending
        have hself : (if dst = lhs then t else t.replace dst [lhs]) = t.replace dst [lhs] := by
          split
          · rename_i heq
            rw [← heq, replace_self hdst (clean dst hdst)]
          · rfl
        rw [hself]
        cases subtract with
        | false => exact .inr ⟨dst, [lhs], v, .addImmediate hv, hdst, rfl⟩
        | true => exact .inr ⟨dst, [lhs], -v, .subtractImmediate hv, hdst, rfl⟩
      | register r =>
        cases subtract with
        | true => cases h
        | false =>
          cases h
          refine .inr ⟨dst, [lhs, r], 0, .addRegister, hdst, ?_⟩
          simp [assigned, Operation.isPage, shift]
    · rw [if_neg hdst] at h
      cases h
      exact .inl ⟨rfl, fun _ heq => Option.some_inj.1 heq ▸ hdst⟩
  | page dst text =>
    simp only [hop] at h
    by_cases hdst : dst ∈ t.pending
    · rw [if_pos hdst] at h
      obtain ⟨v, hv, h⟩ := exists_of_read h
      cases h
      exact .inr ⟨dst, [], v, .page hv, hdst, rfl⟩
    · rw [if_neg hdst] at h
      cases h
      exact .inl ⟨rfl, fun _ heq => Option.some_inj.1 heq ▸ hdst⟩
  | access a =>
    simp only [hop] at h
    cases htargets : a.targets with
    | nil =>
      simp only [htargets] at h
      cases h
      exact .inl ⟨rfl, by simp [Operation.destination?, htargets]⟩
    | cons base rest =>
      cases hwriteback : a.writeback with
      | none =>
        simp only [htargets, hwriteback] at h
        cases h
        exact .inl ⟨rfl, by simp [Operation.destination?, hwriteback]⟩
      | some text =>
        simp only [htargets, hwriteback] at h
        by_cases hbase : base ∈ t.pending
        · rw [if_pos hbase] at h
          obtain ⟨v, hv, h⟩ := exists_of_read h
          cases h
          refine .inr ⟨base, [base], v, .writeback htargets hwriteback hv, hbase, ?_⟩
          rw [assigned, replace_self hbase (clean base hbase)]
          rfl
        · rw [if_neg hbase] at h
          cases h
          refine .inl ⟨rfl, fun dst heq => ?_⟩
          simp only [Operation.destination?, htargets, hwriteback, Option.isSome_some, if_true,
            List.head?_cons, Option.some_inj] at heq
          exact heq ▸ hbase

/-- A step keeps a tracker clean. -/
lemma Clean.step (clean : t.Clean) {i : Instruction} (h : t.step i = .ok t') : t'.Clean := by
  obtain ⟨rfl, -⟩ | ⟨dst, sources, v, -, -, rfl⟩ := step_cases clean h
  · exact clean
  · unfold assigned
    split <;> exact clean.replace dst sources

/-- The sources that take the place of a pending register are different ones, none of them is pending
already, and if a page does, no page has been found before. -/
def Apart (t : Tracker) (o : Operation) : Prop :=
  ∀ dst sources v, o.Assigns dst sources v → dst ∈ t.pending →
    (t.replace dst []).Fresh sources ∧ (o.isPage = true → t.base.getD 0 = 0)

/-- With an assignment in the place of a register, the tracker stands for the sum assigned to it. -/
lemma value_assigned {isPage : Bool} {dst : Register} {v : Int64}
    (fresh : (t.replace dst []).Fresh sources) (hpage : isPage = true → t.base.getD 0 = 0)
    (regs : RegisterFile) :
    (t.assigned isPage dst sources v).value regs =
      (t.replace dst []).value regs +
        ((sources.map fun r => regs r.canonical).sum + v.toUInt64) := by
  have hreplace : (t.replace dst sources).value regs =
      (t.replace dst []).value regs + (sources.map fun r => regs r.canonical).sum :=
    value_foldl_track fresh regs
  unfold assigned
  split
  · rename_i hisPage
    have hbase : (t.replace dst sources).base.getD 0 = 0 := by rw [base_replace, hpage hisPage]
    rw [← add_assoc, ← hreplace]
    simp only [value, hbase, Option.getD_some]
    grind
  · rw [value_shift, hreplace, add_assoc]

/-- Walking backwards over an instruction, the tracker keeps the address that it stands for, with the
stack pointer as it is in front of the instruction. -/
lemma Clean.value_step (clean : t.Clean) {i : Instruction} (h : t.step i = .ok t')
    (apart : t.Apart i.operation) (ρ : Reading) (regs : RegisterFile) :
    t.value (Function.update (i.operation.canonical.execute ρ regs) ⟨"sp"⟩ (regs ⟨"sp"⟩)) =
      t'.value regs := by
  obtain ⟨rfl, hkeep⟩ | ⟨dst, sources, v, assigns, hdst, rfl⟩ := step_cases clean h
  · refine value_congr (fun r hr => ?_) (.inr (Function.update_self _ _ _))
    rw [Function.update_of_ne (Register.ne_sp (clean r hr))]
    refine Operation.execute_canonical_of_ne (fun written hwritten => ?_) ρ regs
    cases hsp : written.isStackPointer with
    | true =>
      rw [Register.canonical_of_stackPointer hsp]
      exact Register.ne_sp (clean r hr)
    | false =>
      rw [Register.canonical_of_other hsp]
      rintro rfl
      exact hkeep r hwritten hr
  · obtain ⟨fresh, hpage⟩ := apart dst sources v assigns hdst
    have hne := Register.ne_sp (clean dst hdst)
    rw [assigns.execute ρ regs, Register.canonical_of_other (clean dst hdst), value_erase hdst,
      Function.update_of_ne hne, Function.update_self, value_assigned fresh hpage]
    congr 1
    refine value_congr (fun r hr => ?_) (.inr (Function.update_self _ _ _))
    obtain ⟨hr, hrdst⟩ := OrderedSet.mem_erase.1 hr
    rw [Function.update_of_ne (Register.ne_sp (clean r hr)), Function.update_of_ne hrdst]

/-- As long as the stack pointer has not entered, or is left alone, it may as well be as it is behind
the instruction. -/
lemma value_of_sp (clean : t.Clean) (hsp : t.stackUses = 0 ∨ regs' ⟨"sp"⟩ = regs ⟨"sp"⟩) :
    t.value (Function.update regs' ⟨"sp"⟩ (regs ⟨"sp"⟩)) = t.value regs' := by
  refine value_congr (fun r hr => Function.update_of_ne (Register.ne_sp (clean r hr)) _ _) ?_
  rw [Function.update_self]
  exact hsp.imp_right Eq.symm

/-- The trackers that walks come to. -/
inductive Reached : Tracker → Prop where
  | start (targets : List Register) (offset : Int64) (isRange : Bool) :
    Reached (.start targets offset isRange)
  | step {t t' : Tracker} {i : Instruction} : Reached t → t.step i = .ok t' → Reached t'

/-- All trackers that are reached are clean. -/
lemma Reached.clean (reached : t.Reached) : t.Clean := by
  induction reached with
  | start targets offset isRange => exact clean_start targets offset isRange
  | step _ h clean => exact clean.step h

/-- A tracker keeps the address that it stands for when it steps backwards over an instruction whose
sources are different and new to it. The stack pointer counts with its value in front of the
instruction, which matters only if the instruction writes it. -/
theorem step_value :
    (∀ targets offset isRange, (targets.filter (!·.isStackPointer)).Nodup → ∀ regs : RegisterFile,
      (start targets offset isRange).value regs =
        offset.toUInt64 + (targets.map fun r => regs r.canonical).sum) ∧
    ∀ t, Reached t → ∀ i t', t.step i = .ok t' → t.Apart i.operation →
      ∀ (ρ : Reading) (regs regs' : RegisterFile), regs' = i.operation.canonical.execute ρ regs →
        t.value (Function.update regs' ⟨"sp"⟩ (regs ⟨"sp"⟩)) = t'.value regs ∧
        (t.stackUses = 0 ∨ regs' ⟨"sp"⟩ = regs ⟨"sp"⟩ → t.value regs' = t'.value regs) := by
  constructor
  · intro targets offset isRange hnodup regs
    have fresh : ({ offset, isRange } : Tracker).Fresh targets :=
      ⟨hnodup, fun _ _ _ => OrderedSet.not_mem_empty _⟩
    have hempty : ({ offset, isRange } : Tracker).value regs = offset.toUInt64 := by
      rw [value_eq_address rfl rfl, address]
      exact UInt64.zero_add _
    rw [start, value_foldl_track fresh, hempty]
  · rintro t reached i t' h apart ρ regs regs' rfl
    have hvalue := reached.clean.value_step h apart ρ regs
    exact ⟨hvalue, fun hsp => (value_of_sp reached.clean hsp).symm.trans hvalue⟩

/-! ### Addresses that are kept and lost -/

/-- The sum of two registers. -/
def sumOfTwo : Instruction :=
  ⟨0x1000, .add ⟨"x1"⟩ ⟨"x2"⟩ (.register ⟨"x3"⟩) false, "add x1, x2, x3"⟩

/-- In front of the sum, the address `x1 + sp + 8` is `x2 + x3 + sp + 8`. -/
theorem step_value_sumOfTwo :
    (start [⟨"x1"⟩, ⟨"sp"⟩] 8 false).value (fun _ => 1) = 10 ∧
    ∃ t, (start [⟨"x1"⟩, ⟨"sp"⟩] 8 false).step sumOfTwo = .ok t ∧
      t.pending.toList = [⟨"x2"⟩, ⟨"x3"⟩] ∧ ∀ (ρ : Reading) (regs : RegisterFile),
        (start [⟨"x1"⟩, ⟨"sp"⟩] 8 false).value (sumOfTwo.operation.canonical.execute ρ regs) =
          t.value regs := by
  obtain ⟨starts, steps⟩ := step_value
  refine ⟨starts _ _ _ (by decide) _, _, rfl, by decide +kernel, fun ρ regs => ?_⟩
  have hsp : (⟨"sp"⟩ : Register) ≠ ⟨"x1"⟩ := by decide
  refine (steps _ (.start _ _ _) sumOfTwo _ rfl ?_ ρ regs _ rfl).2
    (.inr (Function.update_of_ne hsp _ _))
  intro dst sources v assigns _
  cases assigns
  exact ⟨⟨by decide, by decide +kernel⟩, nofun⟩

/-- The address that the tracker stands for behind the instruction is not the one that it comes to
stand for in front of it. -/
def Strays (t : Tracker) (i : Instruction) : Prop :=
  ∃ t', t.step i = .ok t' ∧ ∃ (ρ : Reading) (regs : RegisterFile),
    t.value (i.operation.canonical.execute ρ regs) ≠ t'.value regs

/-- The address is lost where the stack pointer has entered and is written. It is lost, too, where a
register enters that is pending already, and where a second page is found. -/
theorem step_strays :
    (start [⟨"sp"⟩] 0 false).Strays
      ⟨0x1000, .add ⟨"sp"⟩ ⟨"sp"⟩ (.immediate "16") true, "sub sp, sp, #16"⟩ ∧
    (start [⟨"x1"⟩, ⟨"x1"⟩] 0 false).value (fun _ => 1) ≠ 2 ∧
    (start [⟨"x1"⟩] 0 false).Strays
      ⟨0x1000, .add ⟨"x1"⟩ ⟨"x2"⟩ (.register ⟨"x2"⟩) false, "add x1, x2, x2"⟩ ∧
    (start [⟨"x1"⟩, ⟨"x2"⟩] 0 false).Strays
      ⟨0x1000, .move ⟨"x1"⟩ (.register ⟨"x2"⟩), "mov x1, x2"⟩ ∧
    ∃ t, (start [⟨"x1"⟩, ⟨"x2"⟩] 0 false).step
      ⟨0x1004, .page ⟨"x1"⟩ "0x1000", "adrp x1, 1000"⟩ = .ok t ∧
        t.Strays ⟨0x1000, .page ⟨"x2"⟩ "0x2000", "adrp x2, 2000"⟩ := by
  refine ⟨⟨_, rfl, default, fun _ => 1, by decide +kernel⟩, by decide +kernel,
    ⟨_, rfl, default, fun _ => 1, by decide +kernel⟩,
    ⟨_, rfl, default, fun _ => 1, by decide +kernel⟩, _, rfl, _, rfl, default, fun _ => 1,
    by decide +kernel⟩

end Tracker

end CacheVerdict
