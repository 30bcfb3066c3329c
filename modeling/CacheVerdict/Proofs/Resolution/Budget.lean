import CacheVerdict.Proofs.Resolution.Chains
import CacheVerdict.Proofs.Resolution.Endings

/-!
# Search budgets

The search for the address of an access ends by the rules for searches (`Tracker.Backtracks`). A larger
budget gives the same answer, unless the search was given up (`Procedure.tracked_of_budget_le`).

The count of visits is compared with the budget before a node is scanned and raised behind it. So a
search is given up when it needs more than one node beyond its budget, and not already when it needs
one (`Tracker.backtrack_budget_iff`, `Tracker.backtrack_uncapped_spinning`).
-/

namespace CacheVerdict

namespace Tracker

variable {m : SearchMap} {budget : Option Nat} {nodes nodes' : List Nat} {t : Tracker}
  {r r' : Except ResolveFault Tracker} {B : Nat}
  {s : Settings} {n : Nat} {i : Instruction}

/-- The tracker of an access in front of its own node. -/
def approach (s : Settings) (m : SearchMap) (n : Nat) (i : Instruction) :
    Except ResolveFault Tracker :=
  match i.operation with
  | .access access => do
    let t ← ofAccess s m n i.address access
    t.scan i.address (m.node n).code
  | _ => .error (.nonLinear i.text)

/-- How the search for the address of an instruction ends, with a budget or without one: the
predecessors that it scans, and what it comes to. -/
inductive Backtracks (s : Settings) (m : SearchMap) (n : Nat) (i : Instruction)
    (budget : Option Nat) : List Nat → Except ResolveFault Tracker → Prop where
  | stopped {fault : ResolveFault} : approach s m n i = .error fault →
    Backtracks s m n i budget [] (.error fault)
  | searched {t : Tracker} {nodes : List Nat} {r : Except ResolveFault Tracker} :
    approach s m n i = .ok t → Ends m i.address budget (m.node n).predecessors t nodes r →
    Backtracks s m n i budget nodes r

/-- Tracking backwards looks at the node of the access and then searches the nodes before it. -/
lemma backtrack_eq : backtrack s m n i = (approach s m n i).bind fun t =>
    t.search m i.address s.nodeBudget (s.nodeBudget + 1) (.ofList (m.node n).predecessors) := by
  unfold backtrack approach
  cases i.operation with
  | access access => exact (bind_assoc (ofAccess s m n i.address access) _ _).symm
  | move | add | page | branch | other => rfl

/-- A tracker starts before all visits. -/
lemma visited_start (targets : List Register) (offset : Int64) (isRange : Bool) :
    (start targets offset isRange).visited = 0 := by
  have fold (t : Tracker) : (targets.foldl track t).visited = t.visited := by
    induction targets generalizing t with
    | nil => rfl
    | cons target targets ih =>
      rw [List.foldl_cons, ih, track]
      split <;> rfl
  exact fold _

/-- In front of its own node, no predecessor is counted. -/
lemma visited_of_approach (h : approach s m n i = .ok t) : t.visited = 0 := by
  unfold approach at h
  split at h
  · rename_i access _
    cases hstart : ofAccess s m n i.address access with
    | error =>
      rw [hstart] at h
      cases h
    | ok t₀ =>
      rw [hstart] at h
      obtain ⟨v, isRange, -, heq, -⟩ := exists_of_ofAccess hstart
      rw [visited_of_scan h, heq]
      exact visited_start _ _ _
  · cases h

/-- A fault in the node of the access does not come from the search. -/
lemma local_of_approach {fault : ResolveFault} (h : approach s m n i = .error fault) :
    Local fault := by
  unfold approach at h
  split at h
  · rename_i access _
    cases hstart : ofAccess s m n i.address access with
    | ok t₀ =>
      rw [hstart] at h
      exact local_of_scan h
    | error fault' =>
      rw [hstart] at h
      cases h
      unfold ofAccess at hstart
      cases htext : access.offset with
      | none =>
        rw [htext] at hstart
        cases hstart
      | some text =>
        rw [htext] at hstart
        cases hread : Immediate.read text with
        | ok v => simp [hread] at hstart
        | error fault' =>
          simp only [Option.map_some, Option.getD_some, hread] at hstart
          cases hstart
          exact local_of_read hread
  · cases h
    exact .nonLinear i.text

/-- Every search ends by the rules, whatever its budget is. -/
lemma exists_backtracks (s : Settings) (m : SearchMap) (n : Nat) (i : Instruction) (B : Nat) :
    ∃ nodes, Backtracks s m n i (some B) nodes (backtrack { s with nodeBudget := B } m n i) := by
  have heq : backtrack { s with nodeBudget := B } m n i = (approach s m n i).bind fun t =>
      t.search m i.address B (B + 1) (.ofList (m.node n).predecessors) := backtrack_eq
  cases hstart : approach s m n i with
  | error fault =>
    rw [hstart] at heq
    rw [heq]
    exact ⟨[], .stopped hstart⟩
  | ok t =>
    rw [hstart] at heq
    rw [heq]
    refine ⟨t.searched m i.address (B + 1) (.ofList (m.node n).predecessors), .searched hstart ?_⟩
    nth_rewrite 1 [← Queue.toList_ofList (m.node n).predecessors]
    exact ends_search (by rw [visited_of_approach hstart, Nat.zero_add])

namespace Backtracks

/-- A search has one course and one result. -/
lemma unique (h : Backtracks s m n i budget nodes r) (h' : Backtracks s m n i budget nodes' r') :
    nodes = nodes' ∧ r = r' := by
  cases h with
  | stopped hstart =>
    cases h' with
    | stopped hstart' =>
      cases hstart.symm.trans hstart'
      exact ⟨rfl, rfl⟩
    | searched hstart' => cases hstart.symm.trans hstart'
  | searched hstart ends =>
    cases h' with
    | stopped hstart' => cases hstart.symm.trans hstart'
    | searched hstart' ends' =>
      cases hstart.symm.trans hstart'
      exact ends.unique ends'

/-- A result that is not for want of budget stays under a larger one. -/
lemma raise (h : Backtracks s m n i (some B) nodes r) (hkept : r ≠ .error (.budget B))
    (hle : ∀ B' ∈ budget, B ≤ B') : Backtracks s m n i budget nodes r := by
  cases h with
  | stopped hstart => exact .stopped hstart
  | searched hstart ends => exact .searched hstart (ends.raise hkept hle)

/-- A course that is short enough is the course under a budget. -/
lemma limit (h : Backtracks s m n i none nodes r) (hle : nodes.length ≤ B + 1) :
    Backtracks s m n i (some B) nodes r := by
  cases h with
  | stopped hstart => exact .stopped hstart
  | searched hstart ends =>
    refine .searched hstart (ends.limit ?_)
    rwa [visited_of_approach hstart, Nat.zero_add]

/-- Without a budget none is exceeded. -/
lemma ne_budget (h : Backtracks s m n i none nodes r) (B : Nat) : r ≠ .error (.budget B) := by
  cases h with
  | stopped hstart =>
    rintro ⟨⟩
    cases local_of_approach hstart
  | searched _ ends => exact ends.ne_budget B

/-- The visits are counted. -/
lemma visited_eq (h : Backtracks s m n i budget nodes (.ok t)) : t.visited = nodes.length := by
  cases h with
  | searched hstart ends =>
    rw [ends.visited_eq, visited_of_approach hstart, Nat.zero_add]

/-- A budget admits one visit more than it says. -/
lemma length_le (h : Backtracks s m n i (some B) nodes r) : nodes.length ≤ B + 1 := by
  cases h with
  | stopped => exact Nat.zero_le _
  | searched hstart ends =>
    have hvisited := visited_of_approach hstart
    have hle := ends.visited_add_length_le (by omega)
    omega

/-- A search that exceeds its budget has made more visits than it says. -/
lemma lt_of_budget (h : Backtracks s m n i (some B) nodes (.error (.budget B))) :
    B < nodes.length := by
  cases h with
  | stopped hstart => cases local_of_approach hstart
  | searched hstart ends =>
    have hvisited := visited_of_approach hstart
    have hlt := ends.lt_of_budget
    omega

/-- A search that succeeds has resolved all registers. -/
lemma isResolved (h : Backtracks s m n i budget nodes (.ok t)) : t.isResolved = true := by
  cases h with
  | searched _ ends => exact ends.isResolved

/-- Where the search runs out of predecessors, it has scanned the end of every walk back from its
node. -/
lemma unfolded {registers : List String}
    (h : Backtracks s m n i budget nodes (.error (.unresolved registers))) :
    ∃ depth, walkEnds (fun n => (m.node n).predecessors) [n] depth = [] ∧
      n :: nodes = (List.range depth).flatMap (walkEnds (fun n => (m.node n).predecessors) [n]) := by
  cases h with
  | stopped hstart => cases local_of_approach hstart
  | searched _ ends =>
    obtain ⟨depth, hnone, rfl⟩ := ends.unfolded
    have hshift (k : Nat) := walkEnds_flatMap (fun n => (m.node n).predecessors) [n] k
    simp only [List.flatMap_singleton] at hshift
    refine ⟨depth + 1, ?_, ?_⟩
    · rw [← hshift, hnone]
    · rw [List.range_succ_eq_map, List.flatMap_cons, List.flatMap_map]
      simp only [← hshift]
      rfl

end Backtracks

/-- Without a budget, the search scans more than `k` predecessors, or does not end. -/
def NeedsMore (s : Settings) (m : SearchMap) (n : Nat) (i : Instruction) (k : Nat) : Prop :=
  ∀ nodes r, Backtracks s m n i none nodes r → k < nodes.length

/-- The budget bounds the search: nothing is found behind more predecessors than that, and a search
that needs more of them is given up. -/
structure Capped (s : Settings) (m : SearchMap) (n : Nat) (i : Instruction) : Prop where
  found : ∀ t, backtrack s m n i = .ok t → t.visited ≤ s.nodeBudget
  givenUp : NeedsMore s m n i s.nodeBudget → backtrack s m n i = .error (.budget s.nodeBudget)

section

variable (hends : Backtracks s m n i (some s.nodeBudget) nodes (backtrack s m n i))

include hends

/-- A search is given up if it needs more predecessors than its budget and one more. -/
lemma backtrack_eq_budget_iff : backtrack s m n i = .error (.budget s.nodeBudget) ↔
    NeedsMore s m n i (s.nodeBudget + 1) := by
  constructor
  · intro hbudget nodes' r' hfree
    by_contra hle
    have hsame := (hends.unique (hfree.limit (Nat.le_of_not_lt hle))).2
    exact hfree.ne_budget _ (hsame.symm.trans hbudget)
  · intro hneeds
    by_contra hkept
    have hfree : Backtracks s m n i none nodes (backtrack s m n i) := hends.raise hkept nofun
    have hlt := hneeds _ _ hfree
    have hle := hends.length_le
    omega

/-- A search scans no more predecessors than its budget if it needs no more. -/
lemma length_le_budget_iff : nodes.length ≤ s.nodeBudget ↔ ¬ NeedsMore s m n i s.nodeBudget := by
  constructor
  · intro hle hneeds
    by_cases hbudget : backtrack s m n i = .error (.budget s.nodeBudget)
    · rw [hbudget] at hends
      exact Nat.not_lt.2 hle hends.lt_of_budget
    · have hfree : Backtracks s m n i none nodes (backtrack s m n i) := hends.raise hbudget nofun
      exact Nat.not_lt.2 hle (hneeds _ _ hfree)
  · intro hneeds
    unfold NeedsMore at hneeds
    push Not at hneeds
    obtain ⟨nodes', r, hfree, hle⟩ := hneeds
    obtain ⟨rfl, -⟩ := hends.unique (hfree.limit (hle.trans (Nat.le_succ _)))
    exact hle

/-- The budget bounds every search but those that need exactly one predecessor more. -/
lemma capped_iff : Capped s m n i ↔
    ∀ nodes r, Backtracks s m n i none nodes r → nodes.length ≠ s.nodeBudget + 1 := by
  constructor
  · intro capped nodes' r hfree hexact
    have hneeds : NeedsMore s m n i s.nodeBudget := by
      intro nodes'' r'' hfree'
      rw [← (hfree.unique hfree').1, hexact]
      exact Nat.lt_succ_self _
    have hsame := (hends.unique (hfree.limit hexact.le)).2
    exact hfree.ne_budget _ (hsame.symm.trans (capped.givenUp hneeds))
  · intro hnever
    refine ⟨fun t found => ?_, fun hneeds => ?_⟩
    · rw [found] at hends
      have hfree : Backtracks s m n i none nodes (.ok t) := hends.raise nofun nofun
      have hle := hends.length_le
      have hne := hnever _ _ hfree
      rw [hends.visited_eq]
      omega
    · refine (backtrack_eq_budget_iff hends).2 fun nodes' r hfree => ?_
      have hlt := hneeds nodes' r hfree
      have hne := hnever nodes' r hfree
      omega

end

end Tracker

/-- What the search for the address of an instruction comes to, with a budget of predecessors. -/
def Procedure.tracked (p : Procedure) (s : Settings) (n : Nat) (i : Instruction) (budget : Nat) :
    Except ResolveFault Tracker :=
  Tracker.backtrack { s with nodeBudget := budget } (p.searchMap p.stackHeights) n i

/-- A larger budget makes a difference only to a search that is given up. Every search ends; what is
found has no register pending; and a search runs out of predecessors only once it has scanned the end
of every walk back from its node. -/
theorem Procedure.tracked_of_budget_le (p : Procedure)
    (edges : ∀ e ∈ p.edges, p.hasEnds e = true) (s : Settings) (n : Nat) (i : Instruction)
    (B B' : Nat) (hle : B ≤ B') :
    (∀ budget, ∃ nodes, Tracker.Backtracks s (p.searchMap p.stackHeights) n i (some budget) nodes
      (p.tracked s n i budget)) ∧
    (p.tracked s n i B ≠ .error (.budget B) → p.tracked s n i B' = p.tracked s n i B) ∧
    (∀ t, p.tracked s n i B = .ok t → t.pending = {}) ∧
    ∀ registers, p.tracked s n i B = .error (.unresolved registers) →
      ∃ depth nodes, Tracker.Backtracks s (p.searchMap p.stackHeights) n i (some B) nodes
          (.error (.unresolved registers)) ∧
        walkEnds p.predecessors [n] depth = [] ∧
        n :: nodes = (List.range depth).flatMap (walkEnds p.predecessors [n]) := by
  have hends (budget : Nat) : ∃ nodes, Tracker.Backtracks s (p.searchMap p.stackHeights) n i
      (some budget) nodes (p.tracked s n i budget) := Tracker.exists_backtracks s _ n i budget
  obtain ⟨nodes, hB⟩ := hends B
  refine ⟨hends, fun hkept => ?_, fun t found => ?_, fun registers hnone => ?_⟩
  · obtain ⟨nodes', hB'⟩ := hends B'
    have hraised : Tracker.Backtracks s (p.searchMap p.stackHeights) n i (some B') nodes
        (p.tracked s n i B) := by
      refine hB.raise hkept ?_
      rintro _ ⟨⟩
      exact hle
    exact (hB'.unique hraised).2
  · rw [found] at hB
    exact Tracker.isResolved_iff.1 hB.isResolved
  · rw [hnone] at hB
    obtain ⟨depth, hempty, hnodes⟩ := hB.unfolded
    simp only [predecessors_node edges] at hempty hnodes
    exact ⟨depth, nodes, hB, hempty, hnodes⟩

/-- The load behind the loop of `spinning`. -/
def spinningLoad : Instruction :=
  ⟨0x1004, .access (loadAt "x1"), "ldr x0, [x1]"⟩

/-- A node that loops to itself loads from a page that is set up in front of it. -/
def spinning : Procedure where
  name := "main"
  nodes :=
    [⟨"enter", .straight [⟨0x1000, .page ⟨"x1"⟩ "0x2000", "adrp x1, 2000"⟩]⟩,
     ⟨"spin", .loopHead [spinningLoad]⟩]
  edges := [⟨none, 0⟩, ⟨some 1, 1⟩, ⟨some 0, 1⟩]

/-- The search goes round the loop once and then finds the page; from there on, the budget makes no
difference. -/
theorem Procedure.tracked_of_budget_le_spinning :
    spinning.tracked {} 1 spinningLoad 1 = .ok { base := some 0x2000, visited := 2 } ∧
      spinning.tracked {} 1 spinningLoad 100 = .ok { base := some 0x2000, visited := 2 } := by
  have hfound : spinning.tracked {} 1 spinningLoad 1 = .ok { base := some 0x2000, visited := 2 } := by
    decide +kernel
  obtain ⟨-, hsame, -⟩ := tracked_of_budget_le spinning (by decide) {} 1 spinningLoad 1 100 (by decide)
  exact ⟨hfound, (hsame (by rw [hfound]; nofun)).trans hfound⟩

namespace Tracker

/-- A search scans up to one predecessor more than its budget. It scans no more than its budget
exactly if it needs no more, it is given up exactly if it needs more than one beyond the budget, and
the budget bounds it unless it needs exactly one beyond. -/
theorem backtrack_budget_iff (s : Settings) (m : SearchMap) (n : Nat) (i : Instruction) :
    ∃ nodes, Backtracks s m n i (some s.nodeBudget) nodes (backtrack s m n i) ∧
      nodes.length ≤ s.nodeBudget + 1 ∧
      (∀ t, backtrack s m n i = .ok t → t.visited = nodes.length) ∧
      (nodes.length ≤ s.nodeBudget ↔ ¬ NeedsMore s m n i s.nodeBudget) ∧
      (backtrack s m n i = .error (.budget s.nodeBudget) ↔ NeedsMore s m n i (s.nodeBudget + 1)) ∧
      (Capped s m n i ↔
        ∀ nodes r, Backtracks s m n i none nodes r → nodes.length ≠ s.nodeBudget + 1) := by
  obtain ⟨nodes, hends⟩ := exists_backtracks s m n i s.nodeBudget
  have hends : Backtracks s m n i (some s.nodeBudget) nodes (backtrack s m n i) := hends
  refine ⟨nodes, hends, hends.length_le, fun t found => ?_, length_le_budget_iff hends,
    backtrack_eq_budget_iff hends, capped_iff hends⟩
  rw [found] at hends
  exact hends.visited_eq

/-- With a budget of one node, the page is found in the second one that is scanned. -/
theorem backtrack_uncapped_spinning :
    backtrack { nodeBudget := 1 } (spinning.searchMap spinning.stackHeights) 1 spinningLoad =
        .ok { base := some 0x2000, visited := 2 } ∧
      ¬ Capped { nodeBudget := 1 } (spinning.searchMap spinning.stackHeights) 1 spinningLoad := by
  have hfound : backtrack { nodeBudget := 1 } (spinning.searchMap spinning.stackHeights) 1
      spinningLoad = .ok { base := some 0x2000, visited := 2 } := by decide +kernel
  refine ⟨hfound, fun capped => ?_⟩
  have hle : 2 ≤ 1 := capped.found _ hfound
  omega

end Tracker

end CacheVerdict
