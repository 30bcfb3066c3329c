import CacheVerdict.Proofs.Resolution.Registers

/-!
# Walks and searches

A search hands one tracker from node to node, in breadth-first order. It comes to what walking
backwards through these nodes, one after the other, comes to (`Tracker.exists_of_backtrack`), and of
such a walk only the nodes count whose code changes the tracker (`Tracker.walk_eq_of_changers`).
-/

namespace CacheVerdict

namespace Tracker

variable {m : SearchMap} {before : Address} {t t' : Tracker}

/-- Walks backwards through nodes, one after the other. -/
def walk (m : SearchMap) (before : Address) (nodes : List Nat) (t : Tracker) :
    Except ResolveFault Tracker :=
  nodes.foldlM (fun t n => t.scan before (m.node n).code) t

/-- A walk scans its first node and walks on. -/
lemma exists_of_walk_cons {n : Nat} {nodes : List Nat}
    (h : t.walk m before (n :: nodes) = .ok t') :
    ∃ t₁, t.scan before (m.node n).code = .ok t₁ ∧ t₁.walk m before nodes = .ok t' := by
  rw [walk, List.foldlM_cons] at h
  cases hscan : t.scan before (m.node n).code with
  | error =>
    rw [hscan] at h
    cases h
  | ok t₁ =>
    rw [hscan] at h
    exact ⟨t₁, rfl, h⟩

/-- A walk goes on from what the scan of its first node left. -/
lemma walk_cons {n : Nat} {nodes : List Nat} {t₁ : Tracker}
    (h : t.scan before (m.node n).code = .ok t₁) :
    t.walk m before (n :: nodes) = t₁.walk m before nodes := by
  rw [walk, List.foldlM_cons, h]
  rfl

/-- A walk never takes a use of the stack back. -/
lemma stackUses_le_walk {nodes : List Nat} (h : t.walk m before nodes = .ok t') :
    t.stackUses ≤ t'.stackUses := by
  induction nodes generalizing t with
  | nil =>
    cases h
    exact le_rfl
  | cons n nodes ih =>
    obtain ⟨t₁, hscan, hwalk⟩ := exists_of_walk_cons h
    exact (stackUses_le_scan hscan).trans (ih hwalk)

/-- Code in two parts is scanned one part after the other. -/
lemma exists_of_scan_append {code code' : List (Instruction × StackHeight)}
    (h : t.scan before (code ++ code') = .ok t') :
    ∃ t₁, t.scan before code = .ok t₁ ∧ t₁.scan before code' = .ok t' := by
  induction code generalizing t with
  | nil => exact ⟨t, rfl, h⟩
  | cons e code ih =>
    obtain ⟨t₁, hstep, hrest⟩ := exists_of_scan_cons h
    obtain ⟨t₂, hscan, hscan'⟩ := ih hrest
    refine ⟨t₂, ?_, hscan'⟩
    rw [scan, List.foldlM_cons, hstep]
    exact hscan

/-- A walk through code that does not lie below the access changes nothing. -/
lemma scan_of_not_below {code : List (Instruction × StackHeight)}
    (h : ∀ e ∈ code, ¬ e.1.address < before) : t.scan before code = .ok t := by
  induction code with
  | nil => rfl
  | cons e code ih =>
    rw [List.forall_mem_cons] at h
    rw [scan, List.foldlM_cons, if_neg h.1]
    exact ih h.2

/-- A resolved tracker is not changed by scanning. -/
lemma scan_of_resolved (hresolved : t.isResolved = true)
    (code : List (Instruction × StackHeight)) : t.scan before code = .ok t := by
  induction code with
  | nil => rfl
  | cons e code ih =>
    have hstep : (if e.1.address < before then t.stepAt e.1 e.2 else .ok t) = .ok t := by
      split
      · rw [Tracker.stepAt, if_pos hresolved]
      · rfl
    rw [scan, List.foldlM_cons, hstep]
    exact ih

/-- Once no register is pending, it does not matter how far the walk goes on. -/
lemma walk_of_initial {nodes nodes' : List Nat} (hinitial : nodes <+: nodes')
    (h : t.walk m before nodes = .ok t') (hresolved : t'.isResolved = true) :
    t.walk m before nodes' = .ok t' := by
  obtain ⟨rest, rfl⟩ := hinitial
  have hrest : t'.walk m before rest = .ok t' := by
    clear h
    induction rest with
    | nil => rfl
    | cons n rest ih =>
      rw [walk_cons (scan_of_resolved hresolved _)]
      exact ih
  have happend : t.walk m before (nodes ++ rest) =
      (t.walk m before nodes).bind fun t => t.walk m before rest := List.foldlM_append
  rw [happend, h]
  exact hrest

/-- The nodes whose code changes the tracker, or stops the walk, in a walk backwards. -/
def changers (m : SearchMap) (before : Address) : List Nat → Tracker → List Nat
  | [], _ => []
  | n :: nodes, t =>
    match t.scan before (m.node n).code with
    | .ok t' => if t' = t then changers m before nodes t else n :: changers m before nodes t'
    | .error _ => [n]

/-- A walk comes to what the walk through its changers alone comes to. -/
lemma walk_changers_iff {nodes : List Nat} :
    t.walk m before (t.changers m before nodes) = .ok t' ↔ t.walk m before nodes = .ok t' := by
  induction nodes generalizing t with
  | nil => rfl
  | cons n nodes ih =>
    cases hscan : t.scan before (m.node n).code with
    | error fault =>
      have hone : t.changers m before (n :: nodes) = [n] := by simp only [changers, hscan]
      rw [hone]
      constructor
      · intro h
        obtain ⟨t₁, hscan', _⟩ := exists_of_walk_cons h
        rw [hscan] at hscan'
        cases hscan'
      · intro h
        obtain ⟨t₁, hscan', _⟩ := exists_of_walk_cons h
        rw [hscan] at hscan'
        cases hscan'
    | ok t₁ =>
      rw [walk_cons hscan]
      by_cases heq : t₁ = t
      · have hskip : t.changers m before (n :: nodes) = t.changers m before nodes := by
          simp only [changers, hscan, if_pos heq]
        rw [hskip, heq]
        exact ih
      · have hkeep : t.changers m before (n :: nodes) = n :: t₁.changers m before nodes := by
          simp only [changers, hscan, if_neg heq]
        rw [hkeep, walk_cons hscan]
        exact ih

/-- So walks with the same changers come to the same. -/
lemma walk_eq_of_changers {nodes nodes' : List Nat}
    (h : t.changers m before nodes = t.changers m before nodes')
    (hwalk : t.walk m before nodes' = .ok t') : t.walk m before nodes = .ok t' := by
  rw [← walk_changers_iff, h, walk_changers_iff]
  exact hwalk

/-! ### The count of visits -/

/-- The tracker with another count of visits. -/
def withVisits (t : Tracker) (visits : Nat) : Tracker :=
  { t with visited := visits }

/-- Counting visits commutes with tracking a register. -/
lemma withVisits_track (visits : Nat) (r : Register) :
    (t.withVisits visits).track r = (t.track r).withVisits visits := by
  unfold track
  split <;> rfl

/-- Counting visits commutes with replacing a register. -/
lemma withVisits_replace (visits : Nat) (r : Register) (sources : List Register) :
    (t.withVisits visits).replace r sources = (t.replace r sources).withVisits visits := by
  have fold (t : Tracker) (sources : List Register) :
      sources.foldl track (t.withVisits visits) = (sources.foldl track t).withVisits visits := by
    induction sources generalizing t with
    | nil => rfl
    | cons r sources ih => rw [List.foldl_cons, withVisits_track, ih, List.foldl_cons]
  exact fold { t with pending := t.pending.erase r } sources

/-- How many nodes have been visited does not matter for a step. -/
lemma withVisits_step (visits : Nat) (i : Instruction) :
    (t.withVisits visits).step i = (t.step i).map (·.withVisits visits) := by
  have hpending : (t.withVisits visits).pending = t.pending := rfl
  cases hop : i.operation with
  | branch | other => simp only [step, hop, Except.map]
  | move dst src =>
    simp only [step, hop, hpending]
    split
    · cases src with
      | immediate text =>
        simp only [withVisits_replace]
        cases Immediate.read text <;> rfl
      | register source =>
        simp only [withVisits_replace]
        rfl
    · rfl
  | add dst lhs rhs subtract =>
    simp only [step, hop, hpending]
    split
    · cases rhs with
      | immediate text =>
        simp only [withVisits_replace]
        cases Immediate.read text with
        | error => rfl
        | ok v =>
          by_cases hlhs : dst = lhs
          · simp only [if_pos hlhs]
            rfl
          · simp only [if_neg hlhs]
            rfl
      | register source =>
        simp only [withVisits_replace]
        cases subtract <;> rfl
    · rfl
  | page dst text =>
    simp only [step, hop, hpending]
    split
    · rw [withVisits_replace]
      cases Immediate.read text <;> rfl
    · rfl
  | access a =>
    simp only [step, hop, hpending]
    split
    · split
      · cases Immediate.read _ <;> rfl
      · rfl
    · rfl

/-- Counting visits commutes with a step. -/
lemma withVisits_stepAt (visits : Nat) (i : Instruction) (height : StackHeight) :
    (t.withVisits visits).stepAt i height = (t.stepAt i height).map (·.withVisits visits) := by
  have hresolved : (t.withVisits visits).isResolved = t.isResolved := rfl
  unfold stepAt
  rw [hresolved]
  split
  · rfl
  · rw [withVisits_step]
    cases t.step i with
    | error => rfl
    | ok t₁ =>
      show Except.ok (if t.stackUses < t₁.stackUses then _ else _) =
        Except.ok (Tracker.withVisits (if t.stackUses < t₁.stackUses then _ else _) visits)
      split <;> rfl

/-- Counting visits commutes with a scan. -/
lemma withVisits_scan (visits : Nat) (code : List (Instruction × StackHeight)) :
    (t.withVisits visits).scan before code = (t.scan before code).map (·.withVisits visits) := by
  induction code generalizing t with
  | nil => rfl
  | cons e code ih =>
    have hstep : (if e.1.address < before then (t.withVisits visits).stepAt e.1 e.2
        else .ok (t.withVisits visits)) =
          (if e.1.address < before then t.stepAt e.1 e.2 else .ok t).map (·.withVisits visits) := by
      split
      · exact withVisits_stepAt visits e.1 e.2
      · rfl
    rw [scan, List.foldlM_cons, hstep, scan, List.foldlM_cons]
    cases (if e.1.address < before then t.stepAt e.1 e.2 else .ok t) with
    | error => rfl
    | ok t₁ => exact ih

/-- Counting visits commutes with a walk. -/
lemma withVisits_walk (visits : Nat) (nodes : List Nat) :
    (t.withVisits visits).walk m before nodes =
      (t.walk m before nodes).map (·.withVisits visits) := by
  induction nodes generalizing t with
  | nil => rfl
  | cons n nodes ih =>
    rw [walk, List.foldlM_cons, withVisits_scan, walk, List.foldlM_cons]
    cases t.scan before (m.node n).code with
    | error => rfl
    | ok t₁ => exact ih

/-! ### Searches -/

/-- The nodes that a search walks back through, in order. -/
def searched (m : SearchMap) (before : Address) : Nat → Queue Nat → Tracker → List Nat
  | left, queue, t =>
    if t.isResolved then []
    else
      match queue.pop? with
      | none => []
      | some (n, rest) =>
        match left with
        | 0 => []
        | left + 1 =>
          n :: match t.scan before (m.node n).code with
            | .ok t =>
              let queue := if t.isResolved then rest else rest.pushAll (m.node n).predecessors
              searched m before left queue { t with visited := t.visited + 1 }
            | .error _ => []

/-- A search comes to what the walk back through its nodes comes to, apart from the count of
visits, and then follows no register any more. -/
lemma walk_searched {budget left : Nat} {queue : Queue Nat}
    (h : t.search m before budget left queue = .ok t') :
    t'.isResolved = true ∧ ∃ visits,
      t.walk m before (t.searched m before left queue) = .ok (t'.withVisits visits) := by
  induction left generalizing queue t with
  | zero =>
    unfold search at h
    unfold searched
    by_cases hresolved : t.isResolved = true
    · rw [if_pos hresolved] at h ⊢
      cases h
      exact ⟨hresolved, t'.visited, rfl⟩
    · rw [if_neg hresolved] at h
      split at h <;> cases h
  | succ left ih =>
    unfold search at h
    unfold searched
    by_cases hresolved : t.isResolved = true
    · rw [if_pos hresolved] at h ⊢
      cases h
      exact ⟨hresolved, t'.visited, rfl⟩
    · rw [if_neg hresolved] at h ⊢
      cases hpop : queue.pop? with
      | none =>
        rw [hpop] at h
        cases h
      | some next =>
        obtain ⟨n, rest⟩ := next
        simp only [hpop] at h ⊢
        cases hscan : t.scan before (m.node n).code with
        | error =>
          rw [hscan] at h
          cases h
        | ok t₁ =>
          rw [hscan] at h
          obtain ⟨hresolved', visits, hwalk⟩ := ih h
          refine ⟨hresolved', t₁.visited, ?_⟩
          simp only
          rw [walk_cons hscan]
          -- the walk goes on as the search does, but counts no visit
          have hvisits := congrArg (Except.map (·.withVisits t₁.visited)) hwalk
          rw [← withVisits_walk] at hvisits
          exact hvisits

/-- The nodes that the search for the address of an access walks back through, its own node first. -/
def route (s : Settings) (m : SearchMap) (n : Nat) (i : Instruction) (t : Tracker) : List Nat :=
  n :: match t.scan i.address (m.node n).code with
    | .ok t => t.searched m i.address (s.nodeBudget + 1) (.ofList (m.node n).predecessors)
    | .error _ => []

/-- The search for the address of an access comes to what the walk along its route comes to. -/
lemma exists_of_backtrack {s : Settings} {n : Nat} {i : Instruction} {access : MemoryAccess}
    (haccess : i.operation = .access access) (h : backtrack s m n i = .ok t) :
    t.isResolved = true ∧ ∃ t₀ visits, ofAccess s m n i.address access = .ok t₀ ∧
      t₀.walk m i.address (t₀.route s m n i) = .ok (t.withVisits visits) := by
  simp only [backtrack, haccess] at h
  cases hstart : ofAccess s m n i.address access with
  | error =>
    rw [hstart] at h
    cases h
  | ok t₀ =>
    rw [hstart] at h
    have h : (t₀.scan i.address (m.node n).code).bind (fun t =>
        t.search m i.address s.nodeBudget (s.nodeBudget + 1) (.ofList (m.node n).predecessors)) =
          .ok t := h
    cases hscan : t₀.scan i.address (m.node n).code with
    | error =>
      rw [hscan] at h
      cases h
    | ok t₁ =>
      rw [hscan] at h
      obtain ⟨hresolved, visits, hwalk⟩ := walk_searched h
      refine ⟨hresolved, t₀, visits, rfl, ?_⟩
      simp only [route, hscan]
      rw [walk_cons hscan]
      exact hwalk

end Tracker

end CacheVerdict
