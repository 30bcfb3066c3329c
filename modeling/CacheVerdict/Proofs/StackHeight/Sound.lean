import Mathlib.Data.List.Perm.Subperm
import CacheVerdict.Proofs.Flow.Equations
import CacheVerdict.Proofs.Procedure.Paths
import CacheVerdict.StackHeight.Flow

/-!
# Stack heights describe the stack pointer

What instructions do to the stack pointer, and what a height says of it. A visit of the iteration
only ever raises a height, from unreached to known to unknown, and each node changes at most twice;
so the visits that the iteration is given suffice, and in the end every node that a path leads to
satisfies its equation. Main statement: on every path through a procedure the heights describe the
stack pointer (`Procedure.Arrives.describes`).
-/

namespace CacheVerdict

/-! ### Instructions -/

namespace StackHeight

variable {h h' k k' : StackHeight} {base sp sp' : Address}

/-- What a height says of the stack pointer, which was `base` on entry. -/
def Describes (base sp : Address) : StackHeight → Prop
  | .unreached => False
  | .known distance => sp = base + distance.toUInt64
  | .unknown => True

/-- What the left height describes, both together describe. -/
lemma describes_join_left (hd : h.Describes base sp) : (h.join k).Describes base sp := by
  cases h with
  | unreached => exact absurd hd id
  | unknown => cases k <;> trivial
  | known a =>
    cases k with
    | unreached => exact hd
    | unknown => trivial
    | known b =>
      show Describes base sp (if a = b then known a else unknown)
      split
      · exact hd
      · trivial

/-- What the right height describes, both together describe. -/
lemma describes_join_right (hd : k.Describes base sp) : (h.join k).Describes base sp := by
  cases h with
  | unreached => exact hd
  | unknown => cases k <;> trivial
  | known a =>
    cases k with
    | unreached => exact absurd hd id
    | unknown => trivial
    | known b =>
      show Describes base sp (if a = b then known a else unknown)
      split
      · rename_i heq
        exact heq ▸ hd
      · trivial

/-- What joining keeps and one of the heights has, their join has. -/
lemma foldl_join {P : StackHeight → Prop} (left : ∀ h k : StackHeight, P h → P (h.join k))
    (right : ∀ h k : StackHeight, P k → P (h.join k)) {g : Nat → StackHeight} {qs : List Nat}
    (hP : P h ∨ ∃ q ∈ qs, P (g q)) : P (qs.foldl (fun h q => h.join (g q)) h) := by
  induction qs generalizing h with
  | nil =>
    rcases hP with hP | ⟨q, hq, _⟩
    · exact hP
    · cases hq
  | cons q qs ih =>
    apply ih
    rcases hP with hP | ⟨q', hq', hP⟩
    · exact .inl (left _ _ hP)
    · rcases List.mem_cons.1 hq' with rfl | hq'
      · exact .inl (right _ _ hP)
      · exact .inr ⟨q', hq', hP⟩

end StackHeight

/-- What an instruction may do to the stack pointer: it moves it by the distance by which the height
moves, or anywhere at all if the height is lost. -/
def Instruction.Moves (i : Instruction) (sp sp' : Address) : Prop :=
  match (StackHeight.known 0).after i with
  | .known distance => sp' = sp + distance.toUInt64
  | _ => True

/-- What straight-line code may do to the stack pointer. -/
def MovesAll : List Instruction → Address → Address → Prop
  | [], sp, sp' => sp' = sp
  | i :: rest, sp, sp' => ∃ mid, i.Moves sp mid ∧ MovesAll rest mid sp'

namespace StackHeight

variable {h h' k k' : StackHeight} {base sp sp' : Address} {i : Instruction}

/-- The three ways in which an instruction acts on heights. -/
lemma after_cases (i : Instruction) :
    (∀ h : StackHeight, h.after i = h) ∨ (∃ amount, ∀ h : StackHeight, h.after i = h.shift amount) ∨
      ∀ h : StackHeight, h.after i = .unknown := by
  have shiftBy (text : String) (negate : Bool) :
      (∀ h : StackHeight, h.shiftBy text negate = h) ∨
        (∃ amount, ∀ h : StackHeight, h.shiftBy text negate = h.shift amount) ∨
          ∀ h : StackHeight, h.shiftBy text negate = .unknown := by
    unfold StackHeight.shiftBy
    cases Immediate.value? text with
    | none => exact .inr (.inr fun _ => rfl)
    | some v => exact .inr (.inl ⟨_, fun _ => rfl⟩)
  unfold after
  cases i.operation with
  | move dst src =>
    cases hdst : dst.isStackPointer with
    | true => exact .inr (.inr fun _ => by simp [hdst])
    | false => exact .inl fun _ => by simp [hdst]
  | page dst target =>
    cases hdst : dst.isStackPointer with
    | true => exact .inr (.inr fun _ => by simp [hdst])
    | false => exact .inl fun _ => by simp [hdst]
  | branch => exact .inl fun _ => rfl
  | other => exact .inl fun _ => rfl
  | add dst lhs rhs subtract =>
    cases hdst : dst.isStackPointer with
    | false => exact .inl fun _ => by simp [hdst]
    | true =>
      cases hlhs : lhs.isStackPointer with
      | false => exact .inr (.inr fun _ => by simp [hdst, hlhs])
      | true =>
        cases rhs with
        | immediate text => simpa [hdst, hlhs] using shiftBy text subtract
        | register r => exact .inr (.inr fun _ => by simp [hdst, hlhs])
  | access access =>
    cases htargets : access.targets with
    | nil => exact .inl fun _ => by simp [htargets]
    | cons first rest =>
      cases hwriteback : access.writeback with
      | none => exact .inl fun _ => by simp [htargets, hwriteback]
      | some text =>
        cases hfirst : first.isStackPointer with
        | false => exact .inl fun _ => by simp [htargets, hwriteback, hfirst]
        | true => simpa [htargets, hwriteback, hfirst] using shiftBy text false

/-- A height that describes the stack pointer does so behind an instruction. -/
lemma Describes.after (hd : h.Describes base sp) (moves : i.Moves sp sp') :
    (h.after i).Describes base sp' := by
  unfold Instruction.Moves at moves
  rcases after_cases i with hsame | ⟨amount, hshift⟩ | hlost
  · rw [hsame] at moves ⊢
    have heq : sp' = sp := by simpa [show Int64.toUInt64 0 = 0 from rfl] using moves
    exact heq ▸ hd
  · rw [hshift] at moves ⊢
    cases h with
    | unreached => exact absurd hd id
    | unknown => trivial
    | known distance =>
      have heq : sp' = sp + amount.toUInt64 := by simpa [shift] using moves
      have hsp : sp = base + distance.toUInt64 := hd
      show sp' = base + (distance + amount).toUInt64
      rw [heq, hsp, Int64.toUInt64_add, UInt64.add_assoc]
  · rw [hlost]
    trivial

/-- A height that describes the stack pointer does so after any code. -/
lemma Describes.afterAll {code : List Instruction} (hd : h.Describes base sp)
    (moves : MovesAll code sp sp') : (h.afterAll code).Describes base sp' := by
  induction code generalizing h sp with
  | nil =>
    cases moves
    exact hd
  | cons i code ih =>
    obtain ⟨mid, hfirst, hrest⟩ := moves
    exact ih (hd.after hfirst) hrest

/-! ### The order of heights -/

/-- Unreached lies below known, and known below unknown. -/
def Below (h k : StackHeight) : Prop :=
  h = .unreached ∨ h = k ∨ k = .unknown

/-- A height is below itself. -/
lemma Below.refl (h : StackHeight) : h.Below h := .inr (.inl rfl)

/-- The unreached height is below all others. -/
lemma unreached_below (h : StackHeight) : Below .unreached h := .inl rfl

/-- Being below is transitive. -/
lemma Below.trans {l : StackHeight} (hk : h.Below k) (hl : k.Below l) : h.Below l := by
  unfold Below at *
  grind

/-- Joining heights is monotone. -/
lemma Below.join (hh : h.Below h') (hk : k.Below k') : (h.join k).Below (h'.join k') := by
  unfold Below at *
  unfold StackHeight.join
  grind

/-- Shifting heights is monotone. -/
lemma Below.shift (hh : h.Below h') (amount : Int64) : (h.shift amount).Below (h'.shift amount) := by
  rcases hh with rfl | rfl | rfl
  · exact unreached_below _
  · exact .refl _
  · exact .inr (.inr rfl)

/-- An instruction is monotone in heights. -/
lemma Below.after (hh : h.Below h') (i : Instruction) : (h.after i).Below (h'.after i) := by
  rcases after_cases i with hsame | ⟨amount, hshift⟩ | hlost
  · rw [hsame, hsame]
    exact hh
  · rw [hshift, hshift]
    exact hh.shift amount
  · rw [hlost, hlost]
    exact .refl _

/-- Code is monotone in heights. -/
lemma Below.afterAll (hh : h.Below h') (code : List Instruction) :
    (h.afterAll code).Below (h'.afterAll code) := by
  induction code generalizing h h' with
  | nil => exact hh
  | cons i code ih => exact ih (hh.after i)

/-- How often a height can still change. -/
def changesLeft : StackHeight → Nat
  | .unreached => 2
  | .known _ => 1
  | .unknown => 0

/-- A height that rises has fewer changes left. -/
lemma Below.changesLeft_lt (hh : h.Below k) (hne : k ≠ h) : k.changesLeft < h.changesLeft := by
  unfold Below at hh
  cases h <;> cases k <;> simp_all [changesLeft]

end StackHeight

/-! ### The iteration -/

namespace HeightFlow

open StackHeight (Below)

variable {p : Procedure} {f f' : HeightFlow} {m n : Nat}

/-- Setting the height of a node leaves the others. -/
lemma heightOf_set {queue : List Nat} {h : StackHeight} (hn : n < f.entry.length) :
    heightOf { entry := f.entry.set n h, queue } m = if m = n then h else f.heightOf m := by
  unfold heightOf
  simp only
  by_cases heq : m = n
  · rw [if_pos heq, heq, List.getElem?_set_self hn, Option.getD_some]
  · rw [if_neg heq, List.getElem?_set_ne fun h => heq h.symm]

/-- The meet rises with the heights. -/
lemma meet_below (h : ∀ q, (f.heightOf q).Below (f'.heightOf q)) (n : Nat) :
    (meet p f n).Below (meet p f' n) := by
  unfold meet
  simp only
  generalize (if n ∈ p.entries then StackHeight.known 0 else .unreached) = start
  suffices ∀ (qs : List Nat) (low high : StackHeight), low.Below high →
      (qs.foldl (fun h q => h.join ((f.heightOf q).afterAll (p.codeOf q))) low).Below
        (qs.foldl (fun h q => h.join ((f'.heightOf q).afterAll (p.codeOf q))) high) from
    this _ _ _ (.refl start)
  intro qs
  induction qs with
  | nil => exact fun _ _ hle => hle
  | cons q qs ih => exact fun low high hle => ih _ _ (hle.join ((h q).afterAll _))

/-- The meet of a node hangs only on its predecessors. -/
lemma meet_congr (h : ∀ q ∈ p.predecessors n, f.heightOf q = f'.heightOf q) :
    meet p f n = meet p f' n := by
  unfold meet
  simp only
  generalize (if n ∈ p.entries then StackHeight.known 0 else .unreached) = start
  generalize p.predecessors n = qs at h
  induction qs generalizing start with
  | nil => rfl
  | cons q qs ih =>
    rw [List.foldl_cons, List.foldl_cons, h q List.mem_cons_self]
    exact ih _ fun q hq => h q (List.mem_cons_of_mem _ hq)

/-- What one of the heights describes, the fold of all of them describes. -/
lemma describes_foldl {base sp : Address} {g : Nat → StackHeight} {qs : List Nat} {h : StackHeight}
    (hd : h.Describes base sp ∨ ∃ q ∈ qs, (g q).Describes base sp) :
    (qs.foldl (fun h q => h.join (g q)) h).Describes base sp :=
  StackHeight.foldl_join (fun _ _ => StackHeight.describes_join_left)
    (fun _ _ => StackHeight.describes_join_right) hd

/-- At an entry the meet describes the stack pointer on entry. -/
lemma describes_meet_entry {base : Address} (hn : n ∈ p.entries) :
    (meet p f n).Describes base base := by
  refine describes_foldl (.inl ?_)
  rw [if_pos hn]
  exact (UInt64.add_zero base).symm

/-- Behind a predecessor the meet describes what its code makes of the stack pointer. -/
lemma describes_meet_edge {base sp sp' : Address} (hm : m ∈ p.predecessors n)
    (hd : (f.heightOf m).Describes base sp) (moves : MovesAll (p.codeOf m) sp sp') :
    (meet p f n).Describes base sp' :=
  describes_foldl (.inr ⟨m, hm, hd.afterAll moves⟩)

/-- The invariant of the iteration: heights lie below what the predecessors have, and a node that is
an entry or behind a node that is reached waits or satisfies its equation. -/
structure Climbing (p : Procedure) (f : HeightFlow) : Prop where
  length : f.entry.length = p.nodes.length
  queue : ∀ n ∈ f.queue, n < p.nodes.length
  le : ∀ n, (f.heightOf n).Below (meet p f n)
  settled : ∀ n, (n ∈ p.entries ∨ ∃ q ∈ p.predecessors n, f.heightOf q ≠ .unreached) →
    n ∈ f.queue ∨ f.heightOf n = meet p f n

/-- The visits that may still come: of those who wait, and of those whom changes of heights let
wait. -/
def pending (p : Procedure) (f : HeightFlow) : Nat :=
  f.queue.length +
    ((List.range p.nodes.length).map fun n =>
      (f.heightOf n).changesLeft * (p.successors n).length).sum

/-- Queueing nodes adds at most that many. -/
lemma length_enqueueAll_le (queue nodes : List Nat) :
    (enqueueAll queue nodes).length ≤ queue.length + nodes.length := by
  induction nodes generalizing queue with
  | nil => exact le_rfl
  | cons n nodes ih =>
    have hone : (enqueue queue n).length ≤ queue.length + 1 := by
      unfold enqueue
      split <;> simp
    have hrest := ih (enqueue queue n)
    rw [List.length_cons]
    exact hrest.trans (by omega)

/-- A visit gives its node the meet as its height. -/
lemma heightOf_visit (p : Procedure) (rest : List Nat) (hn : n < f.entry.length) (m : Nat) :
    (visit p { f with queue := rest } n).heightOf m =
      if m = n then meet p f n else f.heightOf m := by
  unfold visit
  simp only
  split
  · rename_i heq
    split
    · rename_i hm
      exact hm ▸ heq.symm
    · rfl
  · exact heightOf_set hn

/-- The successors of a node wait if a visit changes its height. -/
lemma queue_visit (p : Procedure) (f : HeightFlow) (n : Nat) (rest : List Nat) :
    meet p f n = f.heightOf n ∧ (visit p { f with queue := rest } n).queue = rest ∨
      meet p f n ≠ f.heightOf n ∧
        (visit p { f with queue := rest } n).queue = enqueueAll rest (p.successors n) := by
  by_cases h : meet p f n = f.heightOf n
  · exact .inl ⟨h, congrArg queue (if_pos h)⟩
  · exact .inr ⟨h, congrArg queue (if_neg h)⟩

/-- A visit keeps the number of nodes. -/
lemma length_visit {rest : List Nat} :
    (visit p { f with queue := rest } n).entry.length = f.entry.length := by
  unfold visit
  simp only
  split
  · rfl
  · exact List.length_set

/-- A visit keeps the nodes that wait. -/
lemma mem_queue_visit {rest : List Nat} (h : m ∈ rest) :
    m ∈ (visit p { f with queue := rest } n).queue := by
  rcases queue_visit p f n rest with ⟨_, hqueue⟩ | ⟨_, hqueue⟩
  · rwa [hqueue]
  · rw [hqueue]
    exact mem_enqueueAll.2 (.inl h)

/-- A visit keeps the invariant. -/
lemma Climbing.visit (edges : ∀ e ∈ p.edges, p.hasEnds e = true) {rest : List Nat}
    (h : Climbing p f) (hq : f.queue = n :: rest) :
    Climbing p (HeightFlow.visit p { f with queue := rest } n) := by
  have hn : n < p.nodes.length := h.queue n (by rw [hq]; exact List.mem_cons_self)
  have hrest : ∀ m ∈ rest, m < p.nodes.length := fun m hm =>
    h.queue m (by rw [hq]; exact List.mem_cons_of_mem _ hm)
  have hheight := heightOf_visit p rest (h.length ▸ hn)
  have hraised (m : Nat) :
      (f.heightOf m).Below ((HeightFlow.visit p { f with queue := rest } n).heightOf m) := by
    rw [hheight]
    split
    · rename_i heq
      exact heq ▸ h.le n
    · exact .refl _
  constructor
  · exact length_visit.trans h.length
  · intro m hm
    rcases queue_visit p f n rest with ⟨_, hqueue⟩ | ⟨_, hqueue⟩
    · exact hrest m (hqueue ▸ hm)
    · rcases mem_enqueueAll.1 (hqueue ▸ hm) with hm | hm
      · exact hrest m hm
      · exact Procedure.target_lt edges hm
  · intro m
    refine Below.trans ?_ (meet_below hraised m)
    rw [hheight]
    split
    · rename_i heq
      exact heq ▸ .refl _
    · exact h.le m
  · intro m hm
    by_cases hwait : m ∈ (HeightFlow.visit p { f with queue := rest } n).queue
    · exact .inl hwait
    -- what does not wait is not behind a node whose height has changed
    · have hpred : ∀ q ∈ p.predecessors m,
          (HeightFlow.visit p { f with queue := rest } n).heightOf q = f.heightOf q := by
        intro q hqm
        rw [hheight]
        split
        · rename_i heq
          rcases queue_visit p f n rest with ⟨hsame, _⟩ | ⟨_, hqueue⟩
          · rw [heq, hsame]
          · refine absurd ?_ hwait
            rw [hqueue]
            exact mem_enqueueAll.2 (.inr (Procedure.mem_successors_iff.2 (heq ▸ hqm)))
        · rfl
      rw [meet_congr hpred, hheight]
      split
      · rename_i heq
        exact .inr (heq ▸ rfl)
      · rename_i hne
        have hbefore : m ∈ p.entries ∨ ∃ q ∈ p.predecessors m, f.heightOf q ≠ .unreached :=
          hm.imp_right fun ⟨q, hqm, hreached⟩ => ⟨q, hqm, hpred q hqm ▸ hreached⟩
        rcases h.settled m hbefore with hwait' | hsettled
        · rw [hq, List.mem_cons] at hwait'
          exact absurd (mem_queue_visit (hwait'.resolve_left hne)) hwait
        · exact .inr hsettled

/-- Sums that differ by so much at one place differ by so much. -/
lemma sum_add_le_sum {l : List Nat} {a b : Nat → Nat} {n d : Nat} (hn : n ∈ l)
    (hle : ∀ m ∈ l, a m ≤ b m) (hd : a n + d ≤ b n) : (l.map a).sum + d ≤ (l.map b).sum := by
  induction l with
  | nil => cases hn
  | cons m l ih =>
    rw [List.map_cons, List.sum_cons, List.map_cons, List.sum_cons]
    have hrest : (l.map a).sum ≤ (l.map b).sum :=
      List.sum_le_sum fun m hm => hle m (List.mem_cons_of_mem _ hm)
    rcases List.mem_cons.1 hn with rfl | hn
    · omega
    · have := ih hn fun m hm => hle m (List.mem_cons_of_mem _ hm)
      have := hle m List.mem_cons_self
      omega

/-- A visit leaves fewer visits to come. -/
lemma Climbing.pending_visit_lt {rest : List Nat} (h : Climbing p f) (hq : f.queue = n :: rest) :
    pending p (HeightFlow.visit p { f with queue := rest } n) < pending p f := by
  have hn : n < p.nodes.length := h.queue n (by rw [hq]; exact List.mem_cons_self)
  have hheight := heightOf_visit p rest (h.length ▸ hn)
  unfold pending
  rw [hq, List.length_cons]
  rcases queue_visit p f n rest with ⟨hsame, hqueue⟩ | ⟨hne, hqueue⟩
  · have heq (m : Nat) :
        (HeightFlow.visit p { f with queue := rest } n).heightOf m = f.heightOf m := by
      rw [hheight]
      split
      · rename_i hm
        rw [hm, hsame]
      · rfl
    simp only [hqueue, heq]
    omega
  · have hlt := (h.le n).changesLeft_lt hne
    have hsum := sum_add_le_sum (l := List.range p.nodes.length) (n := n)
      (a := fun m => ((HeightFlow.visit p { f with queue := rest } n).heightOf m).changesLeft *
        (p.successors m).length)
      (b := fun m => (f.heightOf m).changesLeft * (p.successors m).length)
      (d := (p.successors n).length) (List.mem_range.2 hn)
      (fun m _ => by
        rw [hheight]
        split
        · rename_i hm
          rw [hm]
          exact Nat.mul_le_mul_right _ hlt.le
        · exact le_rfl)
      (by
        rw [hheight, if_pos rfl, ← Nat.succ_mul]
        exact Nat.mul_le_mul_right _ hlt)
    have hlength := length_enqueueAll_le rest (p.successors n)
    rw [hqueue]
    omega

/-- With as many visits as may come, the iteration ends. -/
lemma Climbing.run (edges : ∀ e ∈ p.edges, p.hasEnds e = true) {fuel : Nat} (h : Climbing p f)
    (hfuel : pending p f ≤ fuel) :
    Climbing p (HeightFlow.run p fuel f) ∧ (HeightFlow.run p fuel f).queue = [] := by
  induction fuel generalizing f with
  | zero =>
    have hqueue : f.queue.length = 0 := by
      unfold pending at hfuel
      omega
    exact ⟨h, List.length_eq_zero_iff.1 hqueue⟩
  | succ fuel ih =>
    rw [HeightFlow.run]
    split
    · rename_i hq
      exact ⟨h, hq⟩
    · rename_i n rest hq
      apply ih (h.visit edges hq)
      have hlt := h.pending_visit_lt hq
      omega

/-- All nodes start unreached. -/
lemma heightOf_start (p : Procedure) (n : Nat) : (start p).heightOf n = .unreached := by
  unfold heightOf start
  simp only
  rw [List.getElem?_map]
  cases p.nodes[n]? <;> rfl

/-- The iteration starts to climb. -/
lemma climbing_start (edges : ∀ e ∈ p.edges, p.hasEnds e = true) : Climbing p (start p) := by
  constructor
  · exact List.length_map _
  · intro n hn
    exact Procedure.entry_lt edges hn
  · intro n
    rw [heightOf_start]
    exact StackHeight.unreached_below _
  · rintro n (hn | ⟨q, _, hreached⟩)
    · exact .inl hn
    · exact absurd (heightOf_start p q) hreached

/-- The visits that the iteration is given suffice. -/
lemma pending_start_le (edges : ∀ e ∈ p.edges, p.hasEnds e = true) :
    pending p (start p) ≤ p.nodes.length + 2 * p.edges.length := by
  have hentries : p.entries.length ≤ p.nodes.length := by
    have hsub : p.entries ⊆ List.range p.nodes.length := fun n hn =>
      List.mem_range.2 (Procedure.entry_lt edges hn)
    have hlength := (List.subperm_of_subset (Procedure.nodup_entries p) hsub).length_le
    rwa [List.length_range] at hlength
  have hsum : ((List.range p.nodes.length).map fun n =>
      ((start p).heightOf n).changesLeft * (p.successors n).length).sum ≤ 2 * p.edges.length := by
    simp only [heightOf_start, StackHeight.changesLeft]
    rw [List.sum_map_mul_left]
    exact Nat.mul_le_mul_left 2 p.sum_successors_le
  exact Nat.add_le_add hentries hsum

end HeightFlow

/-! ### Paths -/

/-- The iteration over a procedure when it has ended. -/
def Procedure.heightFlow (p : Procedure) : HeightFlow :=
  HeightFlow.run p (p.nodes.length + 2 * p.edges.length) (HeightFlow.start p)

/-- Heights on entry are those that the iteration ends with. -/
lemma Procedure.atEntry_eq (p : Procedure) (n : Nat) :
    p.stackHeights.atEntry n = p.heightFlow.heightOf n := rfl

/-- Then a node that is an entry or behind a node that is reached satisfies its equation. -/
lemma Procedure.heightOf_heightFlow {p : Procedure} (edges : ∀ e ∈ p.edges, p.hasEnds e = true)
    {n : Nat} (hn : n ∈ p.entries ∨ ∃ m ∈ p.predecessors n, p.heightFlow.heightOf m ≠ .unreached) :
    p.heightFlow.heightOf n = HeightFlow.meet p p.heightFlow n := by
  obtain ⟨climbing, hqueue⟩ :=
    (HeightFlow.climbing_start edges).run edges (HeightFlow.pending_start_le edges)
  have hwait : n ∉ p.heightFlow.queue := by
    rw [heightFlow, hqueue]
    exact List.not_mem_nil
  exact (climbing.settled n hn).resolve_left hwait

/-- The nodes that paths through a procedure lead to, with the stack pointer there, which was `base`
on entry to the procedure. -/
inductive Procedure.Arrives (p : Procedure) (base : Address) : Nat → Address → Prop where
  | enter {n : Nat} : n ∈ p.entries → p.Arrives base n base
  | edge {m n : Nat} {sp sp' : Address} :
    p.Arrives base m sp → n ∈ p.successors m → MovesAll (p.codeOf m) sp sp' → p.Arrives base n sp'

/-- On every path the heights describe the stack pointer. -/
theorem Procedure.Arrives.describes {p : Procedure} {base sp : Address} {n : Nat}
    (edges : ∀ e ∈ p.edges, p.hasEnds e = true) (h : p.Arrives base n sp) :
    (p.stackHeights.atEntry n).Describes base sp := by
  rw [atEntry_eq]
  induction h with
  | enter hn =>
    rw [heightOf_heightFlow edges (.inl hn)]
    exact HeightFlow.describes_meet_entry hn
  | @edge m n sp sp' _ hsucc moves ih =>
    have hpred : m ∈ p.predecessors n := Procedure.mem_successors_iff.1 hsucc
    have hreached : p.heightFlow.heightOf m ≠ .unreached := by
      intro hunreached
      rw [hunreached] at ih
      exact ih
    rw [heightOf_heightFlow edges (.inr ⟨m, hpred, hreached⟩)]
    exact HeightFlow.describes_meet_edge hpred ih moves

end CacheVerdict
