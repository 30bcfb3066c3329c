import CacheVerdict.Proofs.Resolution.Walks

/-!
# How searches end

A search scans predecessors as long as a register is pending, and on a cycle it would never run out
of them; only the count of its visits stops it. How it ends is said by rules, with a budget or without
one (`Tracker.Ends`). Every search with a budget ends (`Tracker.ends_search`), in one way
(`Tracker.Ends.unique`). A larger budget changes nothing but a search that was given up
(`Tracker.Ends.raise`), and where a search runs out of predecessors it has scanned the end of every
walk back from the waiting nodes (`Tracker.Ends.unfolded`).
-/

namespace CacheVerdict

/-! ### Walks back -/

/-- The ends of the walks of `k` steps back from the given nodes, once for each walk. -/
def walkEnds (predecessors : Nat → List Nat) (starts : List Nat) : Nat → List Nat
  | 0 => starts
  | k + 1 => (walkEnds predecessors starts k).flatMap predecessors

section

variable (predecessors : Nat → List Nat)

/-- The ends of walks from two lists of nodes are those from each of them. -/
lemma walkEnds_append (starts starts' : List Nat) (k : Nat) :
    walkEnds predecessors (starts ++ starts') k =
      walkEnds predecessors starts k ++ walkEnds predecessors starts' k := by
  induction k with
  | zero => rfl
  | succ k ih => rw [walkEnds, ih, List.flatMap_append, walkEnds, walkEnds]

/-- The first step of a walk may be taken apart from the others. -/
lemma walkEnds_flatMap (starts : List Nat) (k : Nat) :
    walkEnds predecessors (starts.flatMap predecessors) k = walkEnds predecessors starts (k + 1) := by
  induction k with
  | zero => rfl
  | succ k ih => rw [walkEnds, ih, ← walkEnds]

/-- All walks from a row of nodes, the shorter ones first: those from the first node are moved behind
the others of their length. -/
lemma flatMap_walkEnds_cons (n : Nat) (waiting : List Nat) (depth : Nat) :
    n :: (List.range depth).flatMap (walkEnds predecessors (waiting ++ predecessors n)) ++
        walkEnds predecessors waiting depth =
      (List.range (depth + 1)).flatMap (walkEnds predecessors (n :: waiting)) := by
  have hsplit (k : Nat) : walkEnds predecessors (n :: waiting) k =
      walkEnds predecessors [n] k ++ walkEnds predecessors waiting k :=
    walkEnds_append predecessors [n] waiting k
  have hstep (k : Nat) : walkEnds predecessors (waiting ++ predecessors n) k =
      walkEnds predecessors waiting k ++ walkEnds predecessors [n] (k + 1) := by
    rw [walkEnds_append, ← walkEnds_flatMap, List.flatMap_singleton]
  induction depth with
  | zero => simp [walkEnds]
  | succ depth ih =>
    rw [List.range_succ (n := depth + 1), List.flatMap_append, ← ih, List.range_succ,
      List.flatMap_append]
    simp [hsplit, hstep]

end

namespace Tracker

variable {m : SearchMap} {before : Address} {budget : Option Nat} {waiting nodes nodes' : List Nat}
  {t t' : Tracker} {r r' : Except ResolveFault Tracker} {B : Nat}

/-! ### How searches end -/

/-- How a search ends that stands at a tracker, with nodes waiting: the nodes that it scans, and what
it comes to. A node is scanned only if the count of visits has not passed the budget, if there is
one. -/
inductive Ends (m : SearchMap) (before : Address) (budget : Option Nat) :
    List Nat → Tracker → List Nat → Except ResolveFault Tracker → Prop where
  | resolved {waiting : List Nat} {t : Tracker} : t.isResolved = true →
    Ends m before budget waiting t [] (.ok t)
  | ranOut {t : Tracker} : t.isResolved = false →
    Ends m before budget [] t [] (.error (.unresolved (t.pending.toList.map Register.name)))
  | spent {n B : Nat} {waiting : List Nat} {t : Tracker} : t.isResolved = false →
    budget = some B → B < t.visited →
    Ends m before budget (n :: waiting) t [] (.error (.budget B))
  | stopped {n : Nat} {waiting : List Nat} {t : Tracker} {fault : ResolveFault} :
    t.isResolved = false → (∀ B ∈ budget, t.visited ≤ B) →
    t.scan before (m.node n).code = .error fault →
    Ends m before budget (n :: waiting) t [n] (.error fault)
  | visit {n : Nat} {waiting nodes : List Nat} {t t' : Tracker} {r : Except ResolveFault Tracker} :
    t.isResolved = false → (∀ B ∈ budget, t.visited ≤ B) →
    t.scan before (m.node n).code = .ok t' →
    Ends m before budget (waiting ++ (m.node n).predecessors) (t'.withVisits (t'.visited + 1)) nodes r →
    Ends m before budget (n :: waiting) t (n :: nodes) r

/-- A scan counts no visit. -/
lemma visited_of_scan {code : List (Instruction × StackHeight)} (h : t.scan before code = .ok t') :
    t'.visited = t.visited := by
  have hsame : t.scan before code = (t.scan before code).map (·.withVisits t.visited) :=
    withVisits_scan t.visited code
  rw [h] at hsame
  have hkeep : t' = t'.withVisits t.visited := Except.ok.inj hsame
  rw [hkeep]
  rfl

/-- A number that cannot be read, or a sum that is none, is found at an instruction; other faults are
found by the search. -/
inductive Local : ResolveFault → Prop where
  | immediate (text : String) : Local (.immediate text)
  | nonLinear (text : String) : Local (.nonLinear text)

/-- A fault in an immediate is not one of the search. -/
lemma local_of_read {text : String} {fault : ResolveFault} (h : Immediate.read text = .error fault) :
    Local fault := by
  unfold Immediate.read at h
  split at h
  · cases h
  · cases h
    exact .immediate text

/-- A fault in a step is not one of the search. -/
lemma local_of_step {i : Instruction} {fault : ResolveFault} (h : t.step i = .error fault) :
    Local fault := by
  have hread {text : String} {f : Int64 → Tracker}
      (h : (Immediate.read text >>= fun v => pure (f v)) = .error fault) : Local fault := by
    cases htext : Immediate.read text with
    | ok v =>
      rw [htext] at h
      cases h
    | error fault' =>
      rw [htext] at h
      cases h
      exact local_of_read htext
  unfold step at h
  cases hop : i.operation with
  | branch | other =>
    rw [hop] at h
    cases h
  | move dst src =>
    simp only [hop] at h
    split at h
    · cases src with
      | immediate text => exact hread h
      | register source => cases h
    · cases h
  | add dst lhs rhs subtract =>
    simp only [hop] at h
    split at h
    · cases rhs with
      | immediate text => exact hread h
      | register source =>
        cases subtract with
        | false => cases h
        | true =>
          cases h
          exact .nonLinear i.text
    · cases h
  | page dst text =>
    simp only [hop] at h
    split at h
    · exact hread h
    · cases h
  | access access =>
    simp only [hop] at h
    split at h
    · split at h
      · exact hread h
      · cases h
    · cases h

/-- A fault in a step at a known height is not one of the search. -/
lemma local_of_stepAt {i : Instruction} {height : StackHeight} {fault : ResolveFault}
    (h : t.stepAt i height = .error fault) : Local fault := by
  unfold stepAt at h
  split at h
  · cases h
  · cases hstep : t.step i with
    | ok t₁ =>
      rw [hstep] at h
      cases h
    | error fault' =>
      rw [hstep] at h
      cases h
      exact local_of_step hstep

/-- A scan stops at an instruction. -/
lemma local_of_scan {code : List (Instruction × StackHeight)} {fault : ResolveFault}
    (h : t.scan before code = .error fault) : Local fault := by
  induction code generalizing t with
  | nil => cases h
  | cons e code ih =>
    rw [scan, List.foldlM_cons] at h
    cases hfirst : (if e.1.address < before then t.stepAt e.1 e.2 else .ok t) with
    | ok t₁ =>
      rw [hfirst] at h
      exact ih h
    | error fault' =>
      rw [hfirst] at h
      obtain rfl : fault' = fault := Except.error.inj h
      split at hfirst
      · exact local_of_stepAt hfirst
      · cases hfirst

/-- A search ends by the rules. Its count of visits and the visits that are left to it make up the
budget and one more. -/
lemma ends_search {queue : Queue Nat} {left : Nat} (hleft : t.visited + left = B + 1) :
    Ends m before (some B) queue.toList t (t.searched m before left queue)
      (t.search m before B left queue) := by
  induction left generalizing queue t with
  | zero =>
    unfold search searched
    by_cases hresolved : t.isResolved = true
    · rw [if_pos hresolved, if_pos hresolved]
      exact .resolved hresolved
    · rw [if_neg hresolved, if_neg hresolved]
      have hresolved := Bool.eq_false_of_not_eq_true hresolved
      cases hpop : queue.pop? with
      | none =>
        rw [Queue.pop?_eq_none.1 hpop]
        exact .ranOut hresolved
      | some next =>
        obtain ⟨n, rest⟩ := next
        rw [Queue.toList_of_pop? hpop]
        exact .spent hresolved rfl (by omega)
  | succ left ih =>
    unfold search searched
    by_cases hresolved : t.isResolved = true
    · rw [if_pos hresolved, if_pos hresolved]
      exact .resolved hresolved
    · rw [if_neg hresolved, if_neg hresolved]
      have hresolved := Bool.eq_false_of_not_eq_true hresolved
      have hwithin : ∀ B' ∈ some B, t.visited ≤ B' := by
        rintro B' ⟨⟩
        omega
      cases hpop : queue.pop? with
      | none =>
        rw [Queue.pop?_eq_none.1 hpop]
        exact .ranOut hresolved
      | some next =>
        obtain ⟨n, rest⟩ := next
        rw [Queue.toList_of_pop? hpop]
        cases hscan : t.scan before (m.node n).code with
        | error fault =>
          simp only [hscan]
          exact .stopped hresolved hwithin hscan
        | ok t₁ =>
          simp only [hscan]
          refine .visit hresolved hwithin hscan ?_
          by_cases hdone : t₁.isResolved = true
          · have hstop (queue : Queue Nat) :
                Ends m before (some B) (rest.toList ++ (m.node n).predecessors)
                  (t₁.withVisits (t₁.visited + 1))
                  ((t₁.withVisits (t₁.visited + 1)).searched m before left queue)
                  ((t₁.withVisits (t₁.visited + 1)).search m before B left queue) := by
              have hdone : (t₁.withVisits (t₁.visited + 1)).isResolved = true := hdone
              unfold search searched
              rw [if_pos hdone, if_pos hdone]
              exact .resolved hdone
            exact hstop _
          · have hvisited := visited_of_scan hscan
            have hrest : (t₁.withVisits (t₁.visited + 1)).visited + left = B + 1 := by
              show t₁.visited + 1 + left = B + 1
              omega
            rw [← Queue.toList_pushAll]
            simp only [Except.bind, if_neg hdone]
            exact ih hrest

namespace Ends

/-- A search ends in one way. -/
lemma unique (h : Ends m before budget waiting t nodes r)
    (h' : Ends m before budget waiting t nodes' r') : nodes = nodes' ∧ r = r' := by
  induction h generalizing nodes' r' with
  | resolved hresolved =>
    cases h' with
    | resolved => exact ⟨rfl, rfl⟩
    | ranOut hpending | spent hpending | stopped hpending | visit hpending =>
      rw [hresolved] at hpending
      cases hpending
  | ranOut hpending =>
    cases h' with
    | resolved hresolved =>
      rw [hresolved] at hpending
      cases hpending
    | ranOut => exact ⟨rfl, rfl⟩
  | @spent n B waiting t hpending hbudget hspent =>
    have hnot : ¬ ∀ B' ∈ budget, t.visited ≤ B' := fun hwithin => by
      have hle := hwithin B hbudget
      omega
    cases h' with
    | resolved hresolved =>
      rw [hresolved] at hpending
      cases hpending
    | spent _ hbudget' =>
      cases hbudget.symm.trans hbudget'
      exact ⟨rfl, rfl⟩
    | stopped _ hwithin | visit _ hwithin => exact absurd hwithin hnot
  | stopped hpending hwithin hscan =>
    cases h' with
    | resolved hresolved =>
      rw [hresolved] at hpending
      cases hpending
    | spent _ hbudget hspent =>
      have hle := hwithin _ hbudget
      omega
    | stopped _ _ hscan' =>
      cases hscan.symm.trans hscan'
      exact ⟨rfl, rfl⟩
    | visit _ _ hscan' => cases hscan.symm.trans hscan'
  | visit hpending hwithin hscan _ ih =>
    cases h' with
    | resolved hresolved =>
      rw [hresolved] at hpending
      cases hpending
    | spent _ hbudget hspent =>
      have hle := hwithin _ hbudget
      omega
    | stopped _ _ hscan' => cases hscan.symm.trans hscan'
    | visit _ _ hscan' hrest' =>
      cases hscan.symm.trans hscan'
      obtain ⟨rfl, rfl⟩ := ih hrest'
      exact ⟨rfl, rfl⟩

/-- A search that is not given up ends alike with every larger budget, and with none. -/
lemma raise (h : Ends m before (some B) waiting t nodes r) (hkept : r ≠ .error (.budget B))
    (hle : ∀ B' ∈ budget, B ≤ B') : Ends m before budget waiting t nodes r := by
  have hwithin {t : Tracker} (hwithin : ∀ B' ∈ some B, t.visited ≤ B') :
      ∀ B' ∈ budget, t.visited ≤ B' :=
    fun B' hB' => (hwithin B rfl).trans (hle B' hB')
  induction h with
  | resolved hresolved => exact .resolved hresolved
  | ranOut hpending => exact .ranOut hpending
  | spent _ hbudget =>
    cases hbudget
    exact absurd rfl hkept
  | stopped hpending hvisited hscan => exact .stopped hpending (hwithin hvisited) hscan
  | visit hpending hvisited hscan _ ih => exact .visit hpending (hwithin hvisited) hscan (ih hkept)

/-- A search that scans no more nodes than a budget and one more ends alike with that budget. -/
lemma limit (h : Ends m before none waiting t nodes r) (hle : t.visited + nodes.length ≤ B + 1) :
    Ends m before (some B) waiting t nodes r := by
  induction h with
  | resolved hresolved => exact .resolved hresolved
  | ranOut hpending => exact .ranOut hpending
  | spent _ hbudget => cases hbudget
  | stopped hpending _ hscan =>
    refine .stopped hpending ?_ hscan
    rintro B' ⟨⟩
    simpa using hle
  | visit hpending _ hscan _ ih =>
    have hvisited := visited_of_scan hscan
    rw [List.length_cons] at hle
    refine .visit hpending ?_ hscan (ih ?_)
    · rintro B' ⟨⟩
      omega
    · show _ + 1 + _ ≤ B + 1
      omega

/-- Without a budget, no search is given up. -/
lemma ne_budget (h : Ends m before none waiting t nodes r) (B : Nat) : r ≠ .error (.budget B) := by
  induction h with
  | resolved | ranOut => nofun
  | spent _ hbudget => cases hbudget
  | stopped _ _ hscan =>
    rintro ⟨⟩
    cases local_of_scan hscan
  | visit _ _ _ _ ih => exact ih

/-- Every scanned node is counted. -/
lemma visited_eq (h : Ends m before budget waiting t nodes (.ok t')) :
    t'.visited = t.visited + nodes.length := by
  generalize hr : (.ok t' : Except ResolveFault Tracker) = r at h
  induction h with
  | resolved =>
    cases hr
    rfl
  | ranOut | spent | stopped => cases hr
  | @visit n waiting nodes t t₁ r _ _ hscan _ ih =>
    have hvisited := visited_of_scan hscan
    have hrest : t'.visited = t₁.visited + 1 + nodes.length := ih hr
    rw [List.length_cons]
    omega

/-- The count of visits passes the budget by one at most. -/
lemma visited_add_length_le (h : Ends m before (some B) waiting t nodes r)
    (hle : t.visited ≤ B + 1) : t.visited + nodes.length ≤ B + 1 := by
  induction h with
  | resolved | ranOut | spent => exact hle
  | stopped _ hwithin =>
    have hvisited := hwithin B rfl
    rw [List.length_singleton]
    omega
  | @visit n waiting nodes t t₁ r _ hwithin hscan _ ih =>
    have hbefore := hwithin B rfl
    have hvisited := visited_of_scan hscan
    have hrest : t₁.visited + 1 + nodes.length ≤ B + 1 := ih (by show t₁.visited + 1 ≤ B + 1; omega)
    rw [List.length_cons]
    omega

/-- A search is given up when the count of visits has passed the budget. -/
lemma lt_of_budget (h : Ends m before (some B) waiting t nodes (.error (.budget B))) :
    B < t.visited + nodes.length := by
  generalize hr : (.error (.budget B) : Except ResolveFault Tracker) = r at h
  induction h with
  | resolved | ranOut => cases hr
  | spent _ hbudget hspent =>
    cases hbudget
    exact hspent
  | stopped _ _ hscan =>
    cases hr
    cases local_of_scan hscan
  | @visit n waiting nodes t t₁ r _ _ hscan _ ih =>
    have hvisited := visited_of_scan hscan
    have hrest : B < t₁.visited + 1 + nodes.length := ih hr
    rw [List.length_cons]
    omega

/-- What is found has no register pending. -/
lemma isResolved (h : Ends m before budget waiting t nodes (.ok t')) : t'.isResolved = true := by
  generalize hr : (.ok t' : Except ResolveFault Tracker) = r at h
  induction h with
  | resolved hresolved =>
    cases hr
    exact hresolved
  | ranOut | spent | stopped => cases hr
  | visit _ _ _ _ ih => exact ih hr

/-- Where the search runs out of predecessors, walks back from the waiting nodes do not go on for
ever, and the search has scanned the ends of all of them, those of the shorter ones first. -/
lemma unfolded {registers : List String}
    (h : Ends m before budget waiting t nodes (.error (.unresolved registers))) :
    ∃ depth, walkEnds (fun n => (m.node n).predecessors) waiting depth = [] ∧
      nodes = (List.range depth).flatMap (walkEnds (fun n => (m.node n).predecessors) waiting) := by
  generalize hr : (.error (.unresolved registers) : Except ResolveFault Tracker) = r at h
  induction h with
  | resolved | spent => cases hr
  | ranOut => exact ⟨0, rfl, rfl⟩
  | stopped _ _ hscan =>
    cases hr
    cases local_of_scan hscan
  | @visit n waiting nodes t t₁ r _ _ hscan _ ih =>
    obtain ⟨depth, hnone, rfl⟩ := ih hr
    rw [walkEnds_append, List.append_eq_nil_iff] at hnone
    refine ⟨depth + 1, ?_, ?_⟩
    · rw [← List.singleton_append, walkEnds_append, ← walkEnds_flatMap, List.flatMap_singleton, hnone.2,
        List.nil_append, walkEnds, hnone.1]
      rfl
    · rw [← flatMap_walkEnds_cons, hnone.1, List.append_nil]

end Ends

end Tracker

end CacheVerdict
