import Mathlib.Data.List.Nodup
import Mathlib.Data.UInt
import Mathlib.Logic.Function.Basic
import Mathlib.Tactic.Lemma
import CacheVerdict.Proofs.Ordered.Lists
import CacheVerdict.Proofs.Ordered.Map
import CacheVerdict.Resolution.Search

/-!
# Registers and tracked addresses

What instructions do to the registers of a machine, and the address that a tracker stands for given
their values. Walking backwards over an instruction keeps that address: what the tracker stands for
behind the instruction is what the tracker of the walk stands for in front of it. Here this is shown
for trackers that follow one register at a time (`Tracker.Single`), first for a single instruction,
then for the instructions of a node (`Tracker.Single.scan`).
-/

namespace CacheVerdict

/-- The values of the registers. -/
abbrev RegisterFile := Register → UInt64

/-- What a machine makes of immediates: a text that can be read stands for its number, and any other
text for whatever it may be. -/
structure Reading where
  value : String → UInt64
  agrees : ∀ {text : String} {v : Int64}, Immediate.value? text = some v → value text = v.toUInt64

instance : Inhabited Reading where
  default :=
    { value := fun text => ((Immediate.value? text).getD 0).toUInt64
      agrees := fun {text v} h => by rw [h, Option.getD_some] }

/-- The value of an operand. -/
def Operand.value (ρ : Reading) (regs : RegisterFile) : Operand → UInt64
  | .register r => regs r
  | .immediate text => ρ.value text

/-- The registers after an operation. Branches and other operations are taken to leave them alone. -/
def Operation.execute (ρ : Reading) (regs : RegisterFile) : Operation → RegisterFile
  | .move dst src => Function.update regs dst (src.value ρ regs)
  | .add dst lhs rhs subtract =>
    Function.update regs dst
      (if subtract then regs lhs - rhs.value ρ regs else regs lhs + rhs.value ρ regs)
  | .page dst text => Function.update regs dst (ρ.value text)
  | .access a =>
    match a.targets, a.writeback with
    | base :: _, some text => Function.update regs base (regs base + ρ.value text)
    | _, _ => regs
  | .branch => regs
  | .other => regs

/-- The registers after code has run. -/
def Reading.run (ρ : Reading) (regs : RegisterFile) (code : List Instruction) : RegisterFile :=
  code.foldl (fun regs i => i.operation.execute ρ regs) regs

/-- Running code in two parts is running it at once. -/
lemma Reading.run_append (ρ : Reading) (regs : RegisterFile) (code code' : List Instruction) :
    ρ.run regs (code ++ code') = ρ.run (ρ.run regs code) code' :=
  List.foldl_append

/-- The byte that an access touches. -/
def MemoryAccess.address (a : MemoryAccess) (ρ : Reading) (regs : RegisterFile) : Address :=
  (a.targets.map regs).sum + (a.offset.map ρ.value).getD 0

/-- Moves, additions of constants, page addresses, and accesses that write no register. -/
def Operation.isPlain : Operation → Bool
  | .move _ _ => true
  | .add _ _ (.immediate _) _ => true
  | .page _ _ => true
  | .access a => a.writeback.isNone
  | _ => false

namespace Tracker

/-- The address that a tracker stands for. -/
def value (t : Tracker) (regs : RegisterFile) : Address :=
  t.base.getD 0 + t.offset.toUInt64 + (t.pending.toList.map regs).sum +
    UInt64.ofNat t.stackUses * regs ⟨"sp"⟩

/-- The address of a tracker in which no register is left. -/
def address (t : Tracker) : Address :=
  t.base.getD 0 + t.offset.toUInt64

/-- The tracker follows one register at most, and has found a page only if it follows none. -/
structure Single (t : Tracker) : Prop where
  one : ∀ {x y : Register}, x ∈ t.pending → y ∈ t.pending → x = y
  base : ∀ {x : Register}, x ∈ t.pending → t.base = none

variable {t t' : Tracker} {r : Register}

/-- A tracker is resolved if no register is pending. -/
lemma isResolved_iff : t.isResolved = true ↔ t.pending = {} := by
  constructor
  · intro h
    refine OrderedSet.ext_mem fun x => ?_
    have hnil : t.pending.toList = [] := List.isEmpty_iff.1 h
    rw [OrderedSet.mem_def, hnil]
    rfl
  · intro h
    rw [isResolved, h]
    rfl

/-- Without registers, the address is what has been found. -/
lemma value_eq_address (h : t.isResolved = true) (hsp : t.stackUses = 0) (regs : RegisterFile) :
    t.value regs = t.address := by
  have hnil : t.pending.toList = [] := List.isEmpty_iff.1 h
  rw [value, address, hnil, hsp]
  simp

/-- If one register is pending, it is the only one. -/
lemma Single.toList_pending (single : t.Single) (hr : r ∈ t.pending) : t.pending.toList = [r] := by
  have hmem : r ∈ t.pending.toList := hr
  have hnodup := t.pending.nodup_toList
  cases hl : t.pending.toList with
  | nil =>
    rw [hl] at hmem
    cases hmem
  | cons x rest =>
    have hx : x ∈ t.pending.toList := hl ▸ List.mem_cons_self
    cases rest with
    | nil => rw [single.one hx hr]
    | cons y rest =>
      have hy : y ∈ t.pending.toList := hl ▸ List.mem_cons_of_mem _ List.mem_cons_self
      rw [hl, single.one hx hy] at hnodup
      simp at hnodup

/-- With one register, the address is the offset and the value of the register. -/
lemma Single.value_eq (single : t.Single) (hr : r ∈ t.pending) (hsp : t.stackUses = 0)
    (regs : RegisterFile) : t.value regs = t.offset.toUInt64 + regs r := by
  rw [value, single.toList_pending hr, single.base hr, hsp]
  simp

/-- Once the one register is taken out, none is left. -/
lemma Single.pending_erase (single : t.Single) (hr : r ∈ t.pending) : t.pending.erase r = {} := by
  refine OrderedSet.ext_mem fun x => ⟨fun hx => ?_, fun hx => absurd hx (OrderedSet.not_mem_empty x)⟩
  obtain ⟨hx, hne⟩ := OrderedSet.mem_filter.1 hx
  exact absurd (single.one hx hr) (by simpa using hne)

/-! ### Walking backwards -/

/-- Only the registers count that enter the address. -/
lemma value_congr {regs regs' : RegisterFile} (hpending : ∀ r ∈ t.pending, regs r = regs' r)
    (hsp : t.stackUses = 0 ∨ regs ⟨"sp"⟩ = regs' ⟨"sp"⟩) : t.value regs = t.value regs' := by
  have hmap : t.pending.toList.map regs = t.pending.toList.map regs' :=
    List.map_congr_left hpending
  rw [value, value, hmap]
  obtain huses | hsp := hsp
  · simp [huses]
  · rw [hsp]

/-- A register that is not followed may change. -/
lemma value_update (hr : r ∉ t.pending) (hsp : t.stackUses = 0) (regs : RegisterFile) (v : UInt64) :
    t.value (Function.update regs r v) = t.value regs := by
  refine value_congr (fun x hx => Function.update_of_ne ?_ _ _) (.inl hsp)
  rintro rfl
  exact hr hx

/-- Moving the address by a constant. -/
lemma value_shift (v : Int64) (regs : RegisterFile) :
    (t.shift v).value regs = t.value regs + v.toUInt64 := by
  show t.base.getD 0 + (t.offset + v).toUInt64 + (t.pending.toList.map regs).sum +
    UInt64.ofNat t.stackUses * regs ⟨"sp"⟩ = _
  rw [value, Int64.toUInt64_add]
  grind

/-- Moving the offset keeps the pending registers. -/
lemma Single.shift (single : t.Single) (v : Int64) : (t.shift v).Single :=
  ⟨single.one, single.base⟩

/-- Where the one register turns out to be a constant, none is left. -/
lemma Single.replace_nil (single : t.Single) (hr : r ∈ t.pending) :
    (t.replace r []).isResolved = true ∧ (t.replace r []).Single := by
  have hpending : (t.replace r []).pending = {} := single.pending_erase hr
  refine ⟨isResolved_iff.2 hpending, ?_, ?_⟩
  · intro x y hx
    rw [hpending] at hx
    exact absurd hx (OrderedSet.not_mem_empty x)
  · intro x hx
    rw [hpending] at hx
    exact absurd hx (OrderedSet.not_mem_empty x)

/-- Where the one register turns out to be another one than the stack pointer, that one is left. -/
lemma Single.replace_one (single : t.Single) (hr : r ∈ t.pending) {source : Register}
    (hsp : (t.replace r [source]).stackUses = 0) :
    t.stackUses = 0 ∧ source ∈ (t.replace r [source]).pending ∧
      (t.replace r [source]).offset = t.offset ∧ (t.replace r [source]).Single := by
  have hreplace : t.replace r [source] = ({ t with pending := {} } : Tracker).track source := by
    rw [replace, single.pending_erase hr]
    rfl
  have hnot : ¬ source.isStackPointer = true := by
    intro hsource
    rw [hreplace, track, if_pos hsource] at hsp
    cases hsp
  have htrack : ({ t with pending := {} } : Tracker).track source =
      { t with pending := OrderedSet.insert {} source } := by
    rw [track, if_neg hnot]
  rw [hreplace, htrack] at hsp ⊢
  have hmem {x : Register} (hx : x ∈ OrderedSet.insert {} source) : x = source :=
    (OrderedSet.mem_insert.1 hx).resolve_right (OrderedSet.not_mem_empty x)
  refine ⟨hsp, OrderedSet.mem_insert.2 (.inl rfl), rfl, ?_, fun _ => single.base hr⟩
  intro x y hx hy
  rw [hmem hx, hmem hy]

/-- A step that reads an immediate succeeds only if the immediate can be read. -/
lemma exists_of_read {text : String} {f : Int64 → Except ResolveFault Tracker}
    (h : (Immediate.read text).bind f = .ok t') :
    ∃ v, Immediate.value? text = some v ∧ f v = .ok t' := by
  unfold Immediate.read at h
  cases hv : Immediate.value? text with
  | none =>
    rw [hv] at h
    cases h
  | some v =>
    rw [hv] at h
    exact ⟨v, rfl, h⟩

/-- Walking backwards over a plain operation, the tracker follows one register at most and keeps the
address that it stands for. -/
lemma Single.step (single : t.Single) {i : Instruction} (plain : i.operation.isPlain = true)
    (h : t.step i = .ok t') (hsp : t'.stackUses = 0) :
    t'.Single ∧ ∀ (ρ : Reading) (regs : RegisterFile),
      t.value (i.operation.execute ρ regs) = t'.value regs := by
  unfold Tracker.step at h
  cases hop : i.operation with
  | branch | other =>
    rw [hop] at plain
    cases plain
  | access a =>
    rw [hop] at plain h
    have hnone : a.writeback = none := Option.isNone_iff_eq_none.1 plain
    have hexecute (ρ : Reading) (regs : RegisterFile) :
        (Operation.access a).execute ρ regs = regs := by
      cases htargets : a.targets <;> simp only [Operation.execute, hnone, htargets]
    have heq : t = t' := by
      cases htargets : a.targets <;> simpa [hnone, htargets] using h
    subst heq
    exact ⟨single, fun ρ regs => by rw [hexecute]⟩
  | move dst src =>
    rw [hop] at h
    simp only at h
    by_cases hdst : dst ∈ t.pending
    · rw [if_pos hdst] at h
      cases src with
      | immediate text =>
        obtain ⟨v, hv, h⟩ := exists_of_read h
        cases h
        obtain ⟨hresolved, single'⟩ := single.replace_nil hdst
        refine ⟨single'.shift v, fun ρ regs => ?_⟩
        rw [value_shift, value_eq_address hresolved hsp, single.value_eq hdst hsp]
        show t.offset.toUInt64 + Function.update regs dst (ρ.value text) dst =
          t.base.getD 0 + t.offset.toUInt64 + v.toUInt64
        rw [Function.update_self, ρ.agrees hv, single.base hdst]
        simp
      | register source =>
        cases h
        obtain ⟨hsp', hsource, hoffset, single'⟩ := single.replace_one hdst hsp
        refine ⟨single', fun ρ regs => ?_⟩
        rw [single.value_eq hdst hsp', single'.value_eq hsource hsp, hoffset]
        show t.offset.toUInt64 + Function.update regs dst (regs source) dst = _
        rw [Function.update_self]
    · rw [if_neg hdst] at h
      cases h
      exact ⟨single, fun ρ regs => value_update hdst hsp regs _⟩
  | add dst lhs rhs subtract =>
    rw [hop] at plain h
    simp only at h
    cases rhs with
    | register => cases plain
    | immediate text =>
      by_cases hdst : dst ∈ t.pending
      · rw [if_pos hdst] at h
        obtain ⟨v, hv, h⟩ := exists_of_read h
        cases h
        -- what is added, or taken away, as one amount
        have hexecute (ρ : Reading) (regs : RegisterFile) :
            (Operation.add dst lhs (.immediate text) subtract).execute ρ regs =
              Function.update regs dst (regs lhs + (if subtract then -v else v).toUInt64) := by
          cases subtract with
          | true => simp [Operation.execute, Operand.value, ρ.agrees hv, sub_eq_add_neg]
          | false => simp [Operation.execute, Operand.value, ρ.agrees hv]
        by_cases hlhs : dst = lhs
        · rw [if_pos hlhs] at hsp ⊢
          refine ⟨single.shift _, fun ρ regs => ?_⟩
          rw [hexecute, value_shift, single.value_eq hdst hsp, single.value_eq hdst hsp,
            Function.update_self, hlhs, add_assoc]
        · rw [if_neg hlhs] at hsp ⊢
          obtain ⟨hsp', hsource, hoffset, single'⟩ := single.replace_one hdst hsp
          refine ⟨single'.shift _, fun ρ regs => ?_⟩
          rw [hexecute, value_shift, single.value_eq hdst hsp', single'.value_eq hsource hsp, hoffset,
            Function.update_self, add_assoc]
      · rw [if_neg hdst] at h
        cases h
        exact ⟨single, fun ρ regs => value_update hdst hsp regs _⟩
  | page dst text =>
    rw [hop] at h
    simp only at h
    by_cases hdst : dst ∈ t.pending
    · rw [if_pos hdst] at h
      obtain ⟨v, hv, h⟩ := exists_of_read h
      cases h
      obtain ⟨hresolved, single'⟩ := single.replace_nil hdst
      have hresolved' : ({ t.replace dst [] with base := some v.toUInt64 } : Tracker).isResolved :=
        hresolved
      refine ⟨⟨single'.one, fun hx => ?_⟩, fun ρ regs => ?_⟩
      · rw [isResolved_iff.1 hresolved'] at hx
        exact absurd hx (OrderedSet.not_mem_empty _)
      · rw [value_eq_address hresolved' hsp, single.value_eq hdst hsp]
        show t.offset.toUInt64 + Function.update regs dst (ρ.value text) dst =
          v.toUInt64 + t.offset.toUInt64
        rw [Function.update_self, ρ.agrees hv, add_comm]
    · rw [if_neg hdst] at h
      cases h
      exact ⟨single, fun ρ regs => value_update hdst hsp regs _⟩

/-! ### Walking backwards through a node -/

/-- Tracking a register never takes a use of the stack back. -/
lemma stackUses_le_track (t : Tracker) (r : Register) : t.stackUses ≤ (t.track r).stackUses := by
  unfold track
  split
  · exact Nat.le_succ _
  · exact Nat.le_refl _

/-- Nor does tracking several. -/
lemma stackUses_le_foldl_track (t : Tracker) (sources : List Register) :
    t.stackUses ≤ (sources.foldl track t).stackUses := by
  induction sources generalizing t with
  | nil => exact Nat.le_refl _
  | cons r sources ih => exact (t.stackUses_le_track r).trans (ih _)

/-- The stack pointer does not leave an address that it has entered. -/
lemma stackUses_le_step {i : Instruction} (h : t.step i = .ok t') : t.stackUses ≤ t'.stackUses := by
  have replaced (r : Register) (sources : List Register) :
      t.stackUses ≤ (t.replace r sources).stackUses :=
    stackUses_le_foldl_track { t with pending := t.pending.erase r } sources
  unfold Tracker.step at h
  split at h
  · split at h
    · split at h
      · obtain ⟨v, _, h⟩ := exists_of_read h
        cases h
        exact replaced _ _
      · cases h
        exact replaced _ _
    · cases h
      exact Nat.le_refl _
  · split at h
    · split at h
      · obtain ⟨v, _, h⟩ := exists_of_read h
        cases h
        show t.stackUses ≤ (if _ then t else t.replace _ _).stackUses
        split
        · exact Nat.le_refl _
        · exact replaced _ _
      · split at h
        · cases h
        · cases h
          exact replaced _ _
    · cases h
      exact Nat.le_refl _
  · split at h
    · obtain ⟨v, _, h⟩ := exists_of_read h
      cases h
      exact replaced _ _
    · cases h
      exact Nat.le_refl _
  · split at h
    · split at h
      · obtain ⟨v, _, h⟩ := exists_of_read h
        cases h
        exact Nat.le_refl _
      · cases h
        exact Nat.le_refl _
    · cases h
      exact Nat.le_refl _
  · cases h
    exact Nat.le_refl _
  · cases h
    exact Nat.le_refl _

/-- What a step of the walk does. -/
lemma stepAt_eq_ok {i : Instruction} {height : StackHeight} (h : t.stepAt i height = .ok t') :
    t.isResolved = true ∧ t' = t ∨ ∃ t₁, t.step i = .ok t₁ ∧
      (t' = t₁ ∨ t' = { t₁ with stackHeight := height }) := by
  unfold stepAt at h
  split at h
  · rename_i hresolved
    cases h
    exact .inl ⟨hresolved, rfl⟩
  · right
    cases hstep : t.step i with
    | error => simp [hstep, Except.map] at h
    | ok t₁ =>
      refine ⟨t₁, rfl, ?_⟩
      simp only [hstep, Except.map, Except.ok.injEq] at h
      split at h
      · exact .inr h.symm
      · exact .inl h.symm

/-- Nor does a step at a known height. -/
lemma stackUses_le_stepAt {i : Instruction} {height : StackHeight}
    (h : t.stepAt i height = .ok t') : t.stackUses ≤ t'.stackUses := by
  obtain ⟨_, rfl⟩ | ⟨t₁, hstep, heq⟩ := stepAt_eq_ok h
  · exact Nat.le_refl _
  · have hle := stackUses_le_step hstep
    obtain rfl | rfl := heq <;> exact hle

/-- A step over a plain instruction keeps the value, and one pending register at most. -/
lemma Single.stepAt (single : t.Single) {i : Instruction} {height : StackHeight}
    (plain : i.operation.isPlain = true) (h : t.stepAt i height = .ok t') (hsp : t'.stackUses = 0) :
    t'.Single ∧ ∀ (ρ : Reading) (regs : RegisterFile),
      t.value (i.operation.execute ρ regs) = t'.value regs := by
  obtain ⟨hresolved, rfl⟩ | ⟨t₁, hstep, heq⟩ := stepAt_eq_ok h
  · refine ⟨single, fun ρ regs => ?_⟩
    rw [value_eq_address hresolved hsp, value_eq_address hresolved hsp]
  · obtain rfl | rfl := heq
    · exact single.step plain hstep hsp
    · obtain ⟨single', hvalue⟩ := single.step plain hstep hsp
      exact ⟨⟨single'.one, single'.base⟩, hvalue⟩

variable {before : Address} {code : List (Instruction × StackHeight)}

/-- The walk takes the last instruction first, if it lies below the access. -/
lemma exists_of_scan_cons {e : Instruction × StackHeight} (h : t.scan before (e :: code) = .ok t') :
    ∃ t₁, (if e.1.address < before then t.stepAt e.1 e.2 else .ok t) = .ok t₁ ∧
      t₁.scan before code = .ok t' := by
  rw [scan, List.foldlM_cons] at h
  cases hstep : (if e.1.address < before then t.stepAt e.1 e.2 else .ok t) with
  | error =>
    rw [hstep] at h
    cases h
  | ok t₁ =>
    rw [hstep] at h
    exact ⟨t₁, rfl, h⟩

/-- Nor does a whole scan. -/
lemma stackUses_le_scan (h : t.scan before code = .ok t') : t.stackUses ≤ t'.stackUses := by
  induction code generalizing t with
  | nil =>
    cases h
    exact Nat.le_refl _
  | cons e code ih =>
    obtain ⟨t₁, hstep, hscan⟩ := exists_of_scan_cons h
    split at hstep
    · exact (stackUses_le_stepAt hstep).trans (ih hscan)
    · cases hstep
      exact ih hscan

/-- Walking backwards through a node, the tracker follows one register at most and keeps the address
that it stands for, as far as the instructions lie below the access. -/
lemma Single.scan (single : t.Single) (plain : ∀ e ∈ code, e.1.operation.isPlain = true)
    (h : t.scan before code = .ok t') (hsp : t'.stackUses = 0) :
    t'.Single ∧ ∀ (ρ : Reading) (regs : RegisterFile),
      t.value (ρ.run regs ((code.map Prod.fst).reverse.filter (·.address < before))) =
        t'.value regs := by
  induction code generalizing t with
  | nil =>
    cases h
    exact ⟨single, fun _ _ => rfl⟩
  | cons e code ih =>
    rw [List.forall_mem_cons] at plain
    obtain ⟨t₁, hstep, hscan⟩ := exists_of_scan_cons h
    simp only [List.map_cons, List.reverse_cons, List.filter_append]
    by_cases below : e.1.address < before
    · rw [if_pos below] at hstep
      have hsp₁ : t₁.stackUses = 0 := Nat.le_zero.1 (hsp ▸ stackUses_le_scan hscan)
      obtain ⟨single₁, hvalue₁⟩ := single.stepAt plain.1 hstep hsp₁
      obtain ⟨single', hvalue'⟩ := ih single₁ plain.2 hscan
      refine ⟨single', fun ρ regs => ?_⟩
      have hkeep : [e.1].filter (fun i => decide (i.address < before)) = [e.1] := by simp [below]
      rw [hkeep, ρ.run_append]
      exact (hvalue₁ ρ _).trans (hvalue' ρ regs)
    · rw [if_neg below] at hstep
      cases hstep
      have hdrop : [e.1].filter (fun i => decide (i.address < before)) = [] := by simp [below]
      rw [hdrop, List.append_nil]
      exact ih single plain.2 hscan

end Tracker

end CacheVerdict
