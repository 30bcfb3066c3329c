import CacheVerdict.Proofs.Program.CalleesFirst

/-!
# Calls that close a cycle

The search for the call order as a machine that keeps a stack of the procedures being visited and
makes one move at a time (`CallMachine.next?`). Without any bound on its stack the machine comes to
an end, with the call order (`CallMachine.runs_start`). While it runs, procedures on the stack are
finished from the top down, and no move changes which of two procedures will be finished first; so a
call that is recorded goes to a procedure that is not listed before its caller
(`CallMachine.Ordered.next`). Main statement: the call order is a permutation of the procedures, and
the recorded calls are those whose callee does not come before the caller; there are none exactly if
no procedure reaches itself through calls (`Program.callOrder_marks_cycles`).
-/

namespace CacheVerdict

open Relation (ReflTransGen TransGen)

/-- The search for the call order, one move at a time: besides what is finished, the procedures being
visited, the innermost first, each with the callees that are still to be followed, and the procedures
that the search is still to start from. -/
structure CallMachine extends CallOrder where
  stack : List (Nat × List Nat) := []
  starts : List Nat

namespace CallMachine

/-- The procedures being visited. -/
def active (m : CallMachine) : List Nat :=
  m.stack.map Prod.fst

/-- The callees of a procedure in the order in which they are followed. -/
def calleesFrom (p : Program) (i : Nat) : List Nat :=
  (p.calleesOf i).toList.reverse

/-- One move, if there is anything left to do: the next start is skipped or visited; the innermost
procedure is listed, if it has no callee left; or its next callee is recorded as being visited,
skipped as finished, or visited. -/
def next? (p : Program) (m : CallMachine) : Option CallMachine :=
  match m.stack with
  | [] =>
    match m.starts with
    | [] => none
    | i :: starts =>
      if i ∈ m.order then some { m with starts }
      else some { m with stack := [(i, calleesFrom p i)], starts }
  | (i, []) :: stack => some { m with order := m.order ++ [i], stack }
  | (i, c :: callees) :: stack =>
    if c ∈ m.active then
      some { m with recursive := m.recursive.insert ⟨i, c⟩, stack := (i, callees) :: stack }
    else if c ∈ m.order then some { m with stack := (i, callees) :: stack }
    else some { m with stack := (c, calleesFrom p c) :: (i, callees) :: stack }

/-- The machine goes from one state to another in any number of moves. -/
def Runs (p : Program) : CallMachine → CallMachine → Prop :=
  ReflTransGen fun m m' => m.next? p = some m'

/-- Nothing is visited yet, and the search is to start from the roots, then from every procedure. -/
def start (p : Program) : CallMachine :=
  { starts := p.roots ++ List.range p.procedures.length }

/-! ### The machine finds the call order -/

section

variable {p : Program} {fuel i : Nat} {starts : List Nat}

/-- The machine goes through a visit of a procedure that is neither finished nor being visited, and
is back at the stack below it. -/
def RunsVisit (p : Program) (fuel : Nat) (s : CallSearch) (i : Nat) : Prop :=
  ∀ stack starts, stack.map Prod.fst = s.active →
    Runs p ⟨s.toCallOrder, (i, calleesFrom p i) :: stack, starts⟩
      ⟨(CallSearch.visit p fuel s i).toCallOrder, stack, starts⟩

/-- If it goes through the visits of callees, it goes through all callees of a procedure. -/
lemma runs_foldl_follow {stack : List (Nat × List Nat)} (cs : List Nat) (t : CallSearch)
    (visits : ∀ (t : CallSearch) (c : Nat), t.active = i :: stack.map Prod.fst → p.Calls i c →
      c ∉ t.active → c ∉ t.order → RunsVisit p fuel t c)
    (hcs : ∀ c ∈ cs, p.Calls i c) (ht : t.active = i :: stack.map Prod.fst) :
    Runs p ⟨t.toCallOrder, (i, cs) :: stack, starts⟩
      ⟨(cs.foldl (CallSearch.follow p fuel i) t).toCallOrder, (i, []) :: stack, starts⟩ := by
  induction cs generalizing t with
  | nil => exact .refl
  | cons c cs ih =>
    rw [List.forall_mem_cons] at hcs
    have hactive : (⟨t.toCallOrder, (i, c :: cs) :: stack, starts⟩ : CallMachine).active =
        t.active := ht.symm
    rw [List.foldl_cons]
    by_cases hpath : c ∈ t.active
    · have hfollow : CallSearch.follow p fuel i t c =
          { t with recursive := t.recursive.insert ⟨i, c⟩ } := if_pos hpath
      refine .head ?_ (ih _ hcs.2 (by rw [hfollow]; exact ht))
      rw [hfollow]
      simp only [next?, hactive, if_pos hpath]
    · by_cases hlisted : c ∈ t.order
      · have hfollow : CallSearch.follow p fuel i t c = t := by
          rw [CallSearch.follow, if_neg hpath, if_pos hlisted]
        refine .head ?_ (ih _ hcs.2 (by rw [hfollow]; exact ht))
        rw [hfollow]
        simp only [next?, hactive, if_neg hpath, if_pos hlisted]
      · have hfollow : CallSearch.follow p fuel i t c = CallSearch.visit p fuel t c := by
          rw [CallSearch.follow, if_neg hpath, if_neg hlisted]
        have hkept : (CallSearch.visit p fuel t c).active = i :: stack.map Prod.fst :=
          (CallSearch.extends_visit p fuel hpath hlisted).active.trans ht
        rw [hfollow]
        refine .head ?_ ((visits t c ht hcs.1 hpath hlisted ((i, cs) :: stack) starts ht.symm).trans
          (ih _ hcs.2 hkept))
        simp only [next?, hactive, if_neg hpath, if_neg hlisted]

/-- The machine goes through every visit. The stack has room for it, so the bound on nested visits
is never met. -/
lemma runsVisit {s : CallSearch} (room : CallSearch.Roomy p fuel s) (hi : i < p.procedures.length)
    (hactive : i ∉ s.active) : RunsVisit p fuel s i := by
  induction fuel generalizing s i with
  | zero =>
    obtain ⟨_, hfuel, _⟩ := room.exists_succ hi hactive
    cases hfuel
  | succ fuel ih =>
    obtain ⟨fuel', hfuel, room'⟩ := room.exists_succ hi hactive
    cases hfuel
    intro stack starts hstack
    have visits (t : CallSearch) (c : Nat) (ht : t.active = i :: stack.map Prod.fst)
        (hc : p.Calls i c) (hpath : c ∉ t.active) (_ : c ∉ t.order) : RunsVisit p fuel t c := by
      rw [hstack] at ht
      refine ih ⟨ht ▸ room'.nodup, ht ▸ room'.lt, ?_⟩ hc.lt hpath
      rw [ht]
      exact room'.room
    refine (runs_foldl_follow (calleesFrom p i) { s with active := i :: s.active } visits
      (fun c hc => List.mem_reverse.1 hc) (congrArg (i :: ·) hstack.symm)).tail ?_
    rw [CallSearch.visit_succ]
    rfl

/-- The machine goes through the visits from all starts. -/
lemma runs_searchFrom {s : CallSearch} (hstarts : ∀ i ∈ starts, i < p.procedures.length)
    (hs : s.active = []) :
    Runs p ⟨s.toCallOrder, [], starts⟩
      ⟨(p.searchFrom p.procedures.length starts s).toCallOrder, [], []⟩ := by
  induction starts generalizing s with
  | nil => exact .refl
  | cons i starts ih =>
    rw [List.forall_mem_cons] at hstarts
    have hstep : p.searchFrom p.procedures.length (i :: starts) s =
        p.searchFrom p.procedures.length starts
          (if i ∈ s.order then s else CallSearch.visit p p.procedures.length s i) := rfl
    rw [hstep]
    by_cases hlisted : i ∈ s.order
    · rw [if_pos hlisted]
      refine .head ?_ (ih hstarts.2 hs)
      simp only [next?, if_pos hlisted]
    · rw [if_neg hlisted]
      have hactive : i ∉ s.active := by
        rw [hs]
        exact List.not_mem_nil
      have hkept := (CallSearch.extends_visit p p.procedures.length hactive hlisted).active.trans hs
      have visit := runsVisit (CallSearch.roomy_of_active hs) hstarts.1 hactive [] starts hs.symm
      refine .head ?_ (visit.trans (ih hstarts.2 hkept))
      simp only [next?, if_neg hlisted]

end

/-! ### What the moves keep -/

/-- The procedures in the order in which they have been or will be finished, as far as they have been
entered. -/
def finishing (m : CallMachine) : List Nat :=
  m.order ++ m.active

/-- The invariant of the machine: procedures and pending calls are those of the program, and the
caller of a recorded call is finished before the callee, if it is not the callee itself. -/
structure Ordered (p : Program) (m : CallMachine) : Prop where
  lt : ∀ i ∈ m.finishing, i < p.procedures.length
  starts : ∀ i ∈ m.starts, i < p.procedures.length
  callees : ∀ frame ∈ m.stack, ∀ c ∈ frame.2, p.Calls frame.1 c
  recorded : ∀ e ∈ m.recursive, e.caller = e.callee ∨ [e.caller, e.callee].Sublist m.finishing

section

variable {p : Program} {m m' : CallMachine}

/-- The callees to follow are called. -/
lemma calls_of_mem_calleesFrom {i c : Nat} (h : c ∈ calleesFrom p i) : p.Calls i c :=
  List.mem_reverse.1 h

/-- A procedure that is entered goes in between those that are finished and those being visited. -/
lemma Ordered.enter (h : Ordered p m) {i : Nat} (hi : i < p.procedures.length)
    {stack : List (Nat × List Nat)} {starts : List Nat} (hstack : stack.map Prod.fst = m.active)
    (hcallees : ∀ frame ∈ stack, ∀ c ∈ frame.2, p.Calls frame.1 c)
    (hstarts : ∀ i ∈ starts, i < p.procedures.length) :
    Ordered p { m with stack := (i, calleesFrom p i) :: stack, starts } := by
  have hfinishing : ({ m with stack := (i, calleesFrom p i) :: stack, starts } : CallMachine).finishing =
      m.order ++ i :: m.active := by
    rw [← hstack]
    rfl
  constructor
  · rw [hfinishing]
    intro x hx
    rcases List.mem_append.1 hx with hx | hx
    · exact h.lt x (List.mem_append_left _ hx)
    · rcases List.mem_cons.1 hx with rfl | hx
      · exact hi
      · exact h.lt x (List.mem_append_right _ hx)
  · exact hstarts
  · exact List.forall_mem_cons.2 ⟨fun c hc => calls_of_mem_calleesFrom hc, hcallees⟩
  · rw [hfinishing]
    intro e he
    refine (h.recorded e he).imp_right fun hbefore => hbefore.trans ?_
    exact (List.Sublist.refl _).append (List.sublist_cons_self i _)

/-- No move changes which of two procedures is finished first. -/
lemma Ordered.next (h : Ordered p m) (hnext : m.next? p = some m') : Ordered p m' := by
  obtain ⟨⟨order, recursive⟩, stack, starts⟩ := m
  unfold next? at hnext
  cases stack with
  | nil =>
    cases starts with
    | nil => cases hnext
    | cons i starts =>
      obtain ⟨hi, hstarts⟩ := List.forall_mem_cons.1 h.starts
      simp only at hnext
      split at hnext
      · cases hnext
        exact ⟨h.lt, hstarts, h.callees, h.recorded⟩
      · cases hnext
        exact h.enter hi rfl nofun hstarts
  | cons frame stack =>
    obtain ⟨i, callees⟩ := frame
    obtain ⟨hcallees, hbelow⟩ := List.forall_mem_cons.1 h.callees
    cases callees with
    | nil =>
      cases hnext
      -- the innermost procedure is the next to be finished
      have hfinishing : (⟨⟨order ++ [i], recursive⟩, stack, starts⟩ : CallMachine).finishing =
          (⟨⟨order, recursive⟩, (i, []) :: stack, starts⟩ : CallMachine).finishing :=
        List.append_assoc order [i] _
      exact ⟨hfinishing ▸ h.lt, h.starts, hbelow, hfinishing ▸ h.recorded⟩
    | cons c callees =>
      obtain ⟨hc, hrest⟩ := List.forall_mem_cons.1 hcallees
      have hpending : ∀ frame ∈ (i, callees) :: stack, ∀ c ∈ frame.2, p.Calls frame.1 c :=
        List.forall_mem_cons.2 ⟨hrest, hbelow⟩
      simp only at hnext
      split at hnext
      · rename_i hactive
        cases hnext
        refine ⟨h.lt, h.starts, hpending, fun e he => ?_⟩
        rcases OrderedSet.mem_insert.1 he with rfl | he
        · rcases List.mem_cons.1 hactive with rfl | hactive
          · exact .inl rfl
          · refine .inr (List.Sublist.trans ?_ (List.sublist_append_right _ _))
            exact (List.singleton_sublist.2 hactive).cons_cons i
        · exact h.recorded e he
      · split at hnext
        · cases hnext
          exact ⟨h.lt, h.starts, hpending, h.recorded⟩
        · cases hnext
          exact h.enter hc.lt rfl hpending h.starts

/-- A machine that runs on stays in order. -/
lemma Ordered.runs (h : Ordered p m) (hruns : Runs p m m') : Ordered p m' := by
  induction hruns with
  | refl => exact h
  | tail _ hnext ih => exact ih.next hnext

end

end CallMachine

/-! ### Positions in the call order -/

/-- Of two members of a list without repetitions, the one that comes first has the smaller position. -/
lemma idxOf_lt_idxOf_of_sublist {l : List Nat} {a b : Nat} (hnodup : l.Nodup)
    (h : [a, b].Sublist l) : l.idxOf a < l.idxOf b := by
  obtain ⟨front, rest, rfl, ha, hb⟩ := List.cons_sublist_iff.1 h
  have hb : b ∈ rest := List.singleton_sublist.1 hb
  have hfront : b ∉ front := fun hmem => (List.nodup_append.1 hnodup).2.2 b hmem b hb rfl
  rw [List.idxOf_append_of_mem ha, List.idxOf_append_of_notMem hfront]
  exact Nat.lt_add_right _ (List.idxOf_lt_length_of_mem ha)

namespace Program

variable {p : Program} {i c : Nat}

/-- A procedure calls the procedures that the names at its call nodes stand for. -/
lemma calls_iff : p.Calls i c ↔ ∃ q, p.procedures[i]? = some q ∧ ∃ node ∈ q.nodes, ∃ name,
    node.body = .call name ∧ p.procedureNamed? name = some c := by
  have hcallee (node : Node) (name : String) : node.callee? = some name ↔ node.body = .call name := by
    obtain ⟨_, body⟩ := node
    cases body <;> simp [Node.callee?, NodeBody.callee?]
  unfold Calls calleesOf
  cases p.procedures[i]? with
  | none => simp
  | some q =>
    simp only [OrderedSet.mem_ofList, List.mem_filterMap, Procedure.callees, hcallee, Option.some.injEq,
      exists_eq_left']
    constructor
    · rintro ⟨name, ⟨node, hnode, hbody⟩, hc⟩
      exact ⟨node, hnode, name, hbody, hc⟩
    · rintro ⟨node, hnode, name, hbody, hc⟩
      exact ⟨name, ⟨node, hnode, hbody⟩, hc⟩

/-- Only procedures of the program call. -/
lemma Calls.caller_lt (h : p.Calls i c) : i < p.procedures.length := by
  obtain ⟨_, hq, _⟩ := calls_iff.1 h
  exact (List.getElem?_eq_some_iff.1 hq).1

/-- The machine comes to an end, with the call order. -/
lemma runs_callOrder (p : Program) :
    CallMachine.Runs p (.start p) ⟨p.callOrder, [], []⟩ := by
  rw [callOrder_eq]
  exact CallMachine.runs_searchFrom (s := {}) (fun i hi => lt_of_mem_starts hi) rfl

/-- So its invariant holds of the call order. -/
lemma ordered_callOrder (p : Program) : CallMachine.Ordered p ⟨p.callOrder, [], []⟩ := by
  have ordered : CallMachine.Ordered p (.start p) := by
    refine ⟨nofun, fun i hi => lt_of_mem_starts hi, nofun, fun e he => ?_⟩
    exact absurd he (OrderedSet.not_mem_empty e)
  exact ordered.runs p.runs_callOrder

/-- The procedures of the program, in another order. -/
lemma perm_callOrder (p : Program) :
    p.callOrder.order.Perm (List.range p.procedures.length) := by
  refine (List.perm_ext_iff_of_nodup p.nodup_callOrder List.nodup_range).2 fun i => ?_
  rw [List.mem_range]
  exact ⟨fun hi => p.ordered_callOrder.lt i (List.mem_append_left _ hi), mem_callOrder⟩

/-- A call that is not recorded leads to a procedure that comes before its caller. -/
lemma Calls.idxOf_lt (h : p.Calls i c) (hrecorded : ⟨i, c⟩ ∉ p.callOrder.recursive) :
    p.callOrder.order.idxOf c < p.callOrder.order.idxOf i := by
  obtain ⟨front, rest, horder⟩ := List.append_of_mem (mem_callOrder h.caller_lt)
  have hfront : c ∈ front := (calleesFirst_callOrder horder h).resolve_right hrecorded
  refine idxOf_lt_idxOf_of_sublist p.nodup_callOrder ?_
  rw [horder]
  exact (List.singleton_sublist.2 hfront).append (List.singleton_sublist.2 List.mem_cons_self)

/-- A call that is recorded does not. -/
lemma not_idxOf_lt_of_mem_recursive {e : CallEdge} (he : e ∈ p.callOrder.recursive) :
    ¬ p.callOrder.order.idxOf e.callee < p.callOrder.order.idxOf e.caller := by
  rcases p.ordered_callOrder.recorded e he with heq | hbefore
  · rw [heq]
    exact Nat.lt_irrefl _
  · have hsublist : [e.caller, e.callee].Sublist p.callOrder.order := by
      simpa [CallMachine.finishing, CallMachine.active] using hbefore
    exact Nat.lt_asymm (idxOf_lt_idxOf_of_sublist p.nodup_callOrder hsublist)

/-- Where no call is recorded, no procedure reaches itself: positions fall along calls. -/
lemma not_transGen_of_recursive (h : p.callOrder.recursive = {}) (i : Nat) :
    ¬ TransGen p.Calls i i := by
  have falls {i j : Nat} (hcalls : TransGen p.Calls i j) :
      p.callOrder.order.idxOf j < p.callOrder.order.idxOf i := by
    have call {i c : Nat} (hc : p.Calls i c) :
        p.callOrder.order.idxOf c < p.callOrder.order.idxOf i :=
      hc.idxOf_lt (h ▸ OrderedSet.not_mem_empty _)
    induction hcalls with
    | single hc => exact call hc
    | tail _ hc ih => exact Nat.lt_trans (call hc) ih
  exact fun hcycle => Nat.lt_irrefl _ (falls hcycle)

/-- The search for the call order ends with a permutation of the procedures. It records exactly the
calls whose callee does not come before the caller, these close cycles, and nothing is recorded
exactly if no procedure reaches itself. -/
theorem callOrder_marks_cycles (p : Program) :
    (∃ m, CallMachine.Runs p (.start p) m ∧ m.next? p = none ∧ m.toCallOrder = p.callOrder) ∧
    p.callOrder.order.Perm (List.range p.procedures.length) ∧
    (∀ i c, p.Calls i c ↔ ∃ q, p.procedures[i]? = some q ∧ ∃ node ∈ q.nodes, ∃ name,
      node.body = .call name ∧ p.procedureNamed? name = some c) ∧
    (∀ i c, p.Calls i c → (⟨i, c⟩ ∈ p.callOrder.recursive ↔
      ¬ p.callOrder.order.idxOf c < p.callOrder.order.idxOf i)) ∧
    (∀ e ∈ p.callOrder.recursive,
      p.Calls e.caller e.callee ∧ ReflTransGen p.Calls e.callee e.caller) ∧
    (p.callOrder.recursive = {} ↔ ∀ i, ¬ TransGen p.Calls i i) := by
  refine ⟨⟨_, p.runs_callOrder, rfl, rfl⟩, p.perm_callOrder, fun i c => calls_iff, ?_, ?_, ?_⟩
  · intro i c hc
    refine ⟨not_idxOf_lt_of_mem_recursive, fun hnot => ?_⟩
    by_contra hrecorded
    exact hnot (hc.idxOf_lt hrecorded)
  · intro e he
    exact cyclic_of_mem_recursive he
  · refine ⟨not_transGen_of_recursive, fun acyclic => OrderedSet.ext_mem fun e => ?_⟩
    refine ⟨fun he => ?_, fun he => absurd he (OrderedSet.not_mem_empty e)⟩
    obtain ⟨hcall, hreach⟩ := cyclic_of_mem_recursive he
    exact absurd (TransGen.head' hcall hreach) (acyclic e.caller)

end Program

/-! ### Procedures that call each other -/

/-- A procedure that consists of calls. -/
def Procedure.calling (name : String) (callees : List String) : Procedure where
  name := name
  nodes := callees.map fun callee => ⟨callee, .call callee⟩

/-- Two procedures that call each other, below two that do not. -/
def mutualCalls : Program where
  procedures := [.calling "main" ["f", "g"], .calling "f" ["g"], .calling "g" ["h"],
    .calling "h" ["g"]]

/-- Of the two calls between `g` and `h` the one from `h` is recorded, because `h` is listed first. -/
theorem Program.callOrder_marks_cycles_mutualCalls :
    mutualCalls.callOrder.order = [3, 2, 1, 0] ∧ ⟨3, 2⟩ ∈ mutualCalls.callOrder.recursive ∧
      ⟨2, 3⟩ ∉ mutualCalls.callOrder.recursive ∧ ReflTransGen mutualCalls.Calls 2 3 ∧
      ¬ ∀ i, ¬ TransGen mutualCalls.Calls i i := by
  have horder : mutualCalls.callOrder.order = [3, 2, 1, 0] := by decide +kernel
  have hback : 2 ∈ mutualCalls.calleesOf 3 := by decide +kernel
  have hforth : 3 ∈ mutualCalls.calleesOf 2 := by decide +kernel
  obtain ⟨-, -, -, recorded, cyclic, acyclic⟩ := callOrder_marks_cycles mutualCalls
  rw [horder] at recorded
  have hlast : ⟨3, 2⟩ ∈ mutualCalls.callOrder.recursive := (recorded 3 2 hback).2 (by decide)
  refine ⟨horder, hlast, fun hfirst => ?_, (cyclic _ hlast).2, fun hnone => ?_⟩
  · exact (recorded 2 3 hforth).1 hfirst (by decide)
  · rw [acyclic.2 hnone] at hlast
    exact OrderedSet.not_mem_empty _ hlast

end CacheVerdict
