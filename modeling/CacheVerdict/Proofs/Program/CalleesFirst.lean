import Mathlib.Data.List.Perm.Subperm
import Mathlib.Logic.Relation
import CacheVerdict.Proofs.Program.CallOrder

/-!
# Callees come first

A visit follows every call of its procedure before it lists the procedure itself: the callee is on
the path of procedures being visited, and the call is recorded as one that closes a cycle, or it is
listed by then. Visits are never nested deeper than there are procedures, because no procedure is
twice on the path. Main statements: in the call order callees come before their callers, recorded
calls apart (`calleesFirst_callOrder`), which gives an induction from callees to callers
(`calls_induction`), and every recorded call closes a cycle (`cyclic_of_mem_recursive`).
-/

namespace CacheVerdict

namespace Program

variable {p : Program} {i c : Nat}

/-- A name leads to a procedure of the program. -/
lemma procedureNamed?_lt {name : String} (h : p.procedureNamed? name = some i) :
    i < p.procedures.length := by
  obtain ⟨⟨q, j⟩, hmem, heq⟩ := List.exists_of_findSome?_eq_some h
  simp only at heq
  split at heq
  · cases heq
    exact (List.mem_zipIdx' (List.mem_reverse.1 hmem)).1
  · cases heq

/-- One procedure calls another. -/
def Calls (p : Program) (i c : Nat) : Prop :=
  c ∈ p.calleesOf i

/-- Only procedures of the program are called. -/
lemma Calls.lt (h : p.Calls i c) : c < p.procedures.length := by
  unfold Calls calleesOf at h
  split at h
  · obtain ⟨name, _, hname⟩ := List.mem_filterMap.1 (OrderedSet.mem_ofList.1 h)
    exact procedureNamed?_lt hname
  · exact absurd h (OrderedSet.not_mem_empty c)

/-- A call that closes a cycle. -/
def Cyclic (p : Program) (e : CallEdge) : Prop :=
  p.Calls e.caller e.callee ∧ Relation.ReflTransGen p.Calls e.callee e.caller

end Program

namespace CallSearch

variable {p : Program} {fuel i c : Nat} {s t u : CallSearch}

/-- Callees are listed before their callers, unless the call closes a cycle. -/
def CalleesFirst (p : Program) (s : CallSearch) : Prop :=
  ∀ front q rest, s.order = front ++ q :: rest → ∀ c, p.Calls q c →
    c ∈ front ∨ ⟨q, c⟩ ∈ s.recursive

/-- A procedure may be listed once its callees are. -/
lemma CalleesFirst.concat (h : CalleesFirst p s) {active : List Nat}
    (followed : ∀ c, p.Calls i c → c ∈ s.order ∨ ⟨i, c⟩ ∈ s.recursive) :
    CalleesFirst p { s with order := s.order ++ [i], active } := by
  intro front q rest horder c hc
  rcases List.eq_nil_or_concat rest with rfl | ⟨rest, last, rfl⟩
  · obtain ⟨hfront, hq⟩ := List.append_inj' horder rfl
    cases hq
    rw [← hfront]
    exact followed c hc
  · rw [List.concat_eq_append, ← List.cons_append, ← List.append_assoc] at horder
    exact h front q rest (List.append_inj' horder rfl).1 c hc

/-- The procedures being visited are different ones, and there is room for the others. -/
structure Roomy (p : Program) (fuel : Nat) (s : CallSearch) : Prop where
  nodup : s.active.Nodup
  lt : ∀ x ∈ s.active, x < p.procedures.length
  room : p.procedures.length ≤ fuel + s.active.length

/-- A procedure that is not on the path can be visited. -/
lemma Roomy.exists_succ (h : Roomy p fuel s) (hi : i < p.procedures.length)
    (hactive : i ∉ s.active) :
    ∃ fuel', fuel = fuel' + 1 ∧ Roomy p fuel' { s with active := i :: s.active } := by
  have hnodup : (i :: s.active).Nodup := List.nodup_cons.2 ⟨hactive, h.nodup⟩
  have hlt : ∀ x ∈ i :: s.active, x < p.procedures.length :=
    List.forall_mem_cons.2 ⟨hi, h.lt⟩
  have hlength : (i :: s.active).length ≤ p.procedures.length := by
    have hsub : i :: s.active ⊆ List.range p.procedures.length := fun x hx =>
      List.mem_range.2 (hlt x hx)
    have hle := (List.subperm_of_subset hnodup hsub).length_le
    rwa [List.length_range] at hle
  have hroom := h.room
  rw [List.length_cons] at hlength
  refine ⟨fuel - 1, by omega, hnodup, hlt, ?_⟩
  show p.procedures.length ≤ fuel - 1 + (i :: s.active).length
  rw [List.length_cons]
  omega

/-- Where no procedure is being visited, there is room for all. -/
lemma roomy_of_active (hs : s.active = []) : Roomy p p.procedures.length s := by
  refine ⟨hs ▸ List.nodup_nil, ?_, Nat.le_add_right _ _⟩
  rw [hs]
  exact nofun

/-- What a visit does beyond adding procedures. -/
structure Finishes (p : Program) (s t : CallSearch) : Prop extends Extends s t where
  recorded : ∀ e ∈ s.recursive, e ∈ t.recursive
  cyclic : (∀ e ∈ s.recursive, p.Cyclic e) → ∀ e ∈ t.recursive, p.Cyclic e
  first : CalleesFirst p s → CalleesFirst p t

/-- A search without steps finishes. -/
lemma Finishes.refl (s : CallSearch) : Finishes p s s :=
  ⟨.refl s, fun _ h => h, fun h => h, fun h => h⟩

/-- Searches that finish do so one after the other. -/
lemma Finishes.trans (hst : Finishes p s t) (htu : Finishes p t u) : Finishes p s u :=
  ⟨hst.toExtends.trans htu.toExtends, fun e he => htu.recorded e (hst.recorded e he),
    fun h => htu.cyclic (hst.cyclic h), fun h => htu.first (hst.first h)⟩

/-- Recording a call that closes a cycle. -/
lemma finishes_record (h : p.Cyclic ⟨i, c⟩) :
    Finishes p s { s with recursive := s.recursive.insert ⟨i, c⟩ } where
  active := rfl
  nodup h := h
  kept _ h := h
  fresh _ h := .inl h
  recorded _ he := OrderedSet.mem_insert.2 (.inr he)
  cyclic hs e he := by
    rcases OrderedSet.mem_insert.1 he with rfl | he
    · exact h
    · exact hs e he
  first hs front q rest horder c' hc' :=
    (hs front q rest horder c' hc').imp_right fun he => OrderedSet.mem_insert.2 (.inr he)

/-- A call has been followed: the callee is listed, or the call is recorded. -/
def Followed (i c : Nat) (s : CallSearch) : Prop :=
  c ∈ s.order ∨ ⟨i, c⟩ ∈ s.recursive

/-- What was followed stays so. -/
lemma Followed.mono (h : Followed i c s) (hst : Finishes p s t) : Followed i c t :=
  h.imp (hst.kept c) (hst.recorded _)

/-- A visit lists its procedure, and leaves callees before their callers. -/
lemma finishes_visit (room : Roomy p fuel s) (hi : i < p.procedures.length)
    (path : ∀ x ∈ s.active, Relation.ReflTransGen p.Calls x i) (hactive : i ∉ s.active)
    (horder : i ∉ s.order) :
    Finishes p s (visit p fuel s i) ∧ i ∈ (visit p fuel s i).order := by
  induction fuel generalizing s i with
  | zero =>
    obtain ⟨_, hfuel, _⟩ := room.exists_succ hi hactive
    cases hfuel
  | succ fuel ih =>
    obtain ⟨fuel', hfuel, room'⟩ := room.exists_succ hi hactive
    cases hfuel
    have path' : ∀ x ∈ i :: s.active, Relation.ReflTransGen p.Calls x i :=
      List.forall_mem_cons.2 ⟨.refl, path⟩
    -- one call: the callee is on the path, is listed, or is visited now
    have hfollow (t : CallSearch) (ht : t.active = i :: s.active) (c : Nat) (hc : p.Calls i c) :
        Finishes p t (follow p fuel i t c) ∧ Followed i c (follow p fuel i t c) := by
      unfold follow
      split
      · rename_i hmem
        refine ⟨finishes_record ⟨hc, path' c (ht ▸ hmem)⟩, .inr ?_⟩
        exact OrderedSet.mem_insert.2 (.inl rfl)
      · rename_i hnot
        split
        · rename_i hlisted
          exact ⟨.refl t, .inl hlisted⟩
        · rename_i hunlisted
          have roomy : Roomy p fuel t := by
            refine ⟨ht ▸ room'.nodup, ht ▸ room'.lt, ?_⟩
            rw [ht]
            exact room'.room
          have hpath : ∀ x ∈ t.active, Relation.ReflTransGen p.Calls x c := by
            rw [ht]
            exact fun x hx => (path' x hx).tail hc
          exact (ih roomy hc.lt hpath hnot hunlisted).imp_right .inl
    have hfold (cs : List Nat) (hcs : ∀ c ∈ cs, p.Calls i c) (t : CallSearch)
        (ht : t.active = i :: s.active) :
        Finishes p t (cs.foldl (follow p fuel i) t) ∧
          ∀ c ∈ cs, Followed i c (cs.foldl (follow p fuel i) t) := by
      induction cs generalizing t with
      | nil => exact ⟨.refl t, fun c hc => absurd hc List.not_mem_nil⟩
      | cons c cs ihcs =>
        obtain ⟨hstep, hc⟩ := hfollow t ht c (hcs c List.mem_cons_self)
        obtain ⟨hrest, hfollowed⟩ := ihcs (fun c hc => hcs c (List.mem_cons_of_mem _ hc))
          (follow p fuel i t c) (hstep.active.trans ht)
        exact ⟨hstep.trans hrest, List.forall_mem_cons.2 ⟨hc.mono hrest, hfollowed⟩⟩
    obtain ⟨hall, hfollowed⟩ := hfold (p.calleesOf i).toList.reverse
      (fun c hc => List.mem_reverse.1 hc) { s with active := i :: s.active } rfl
    refine ⟨⟨extends_visit p (fuel + 1) hactive horder, ?_, ?_, ?_⟩, mem_order_visit p fuel s i⟩
    · rw [visit_succ]
      exact hall.recorded
    · rw [visit_succ]
      exact hall.cyclic
    · intro h
      rw [visit_succ]
      exact (hall.first h).concat fun c hc => hfollowed c (List.mem_reverse.2 hc)

end CallSearch

namespace Program

variable {p : Program}

/-- Searching from procedures of the program finishes. -/
lemma finishes_searchFrom {starts : List Nat} (hstarts : ∀ i ∈ starts, i < p.procedures.length)
    {s : CallSearch} (hs : s.active = []) :
    CallSearch.Finishes p s (p.searchFrom p.procedures.length starts s) := by
  induction starts generalizing s with
  | nil => exact .refl s
  | cons i starts ih =>
    have step : CallSearch.Finishes p s
        (if i ∈ s.order then s else CallSearch.visit p p.procedures.length s i) := by
      split
      · exact .refl s
      · rename_i hi
        have path : ∀ x ∈ s.active, Relation.ReflTransGen p.Calls x i := by
          rw [hs]
          exact nofun
        have hactive : i ∉ s.active := by
          rw [hs]
          exact List.not_mem_nil
        exact (CallSearch.finishes_visit (CallSearch.roomy_of_active hs)
          (hstarts i List.mem_cons_self) path hactive hi).1
    exact step.trans (ih (fun i hi => hstarts i (List.mem_cons_of_mem _ hi))
      (step.active.trans hs))

/-- The search starts from procedures of the program only. -/
lemma lt_of_mem_starts {i : Nat} (hi : i ∈ p.roots ++ List.range p.procedures.length) :
    i < p.procedures.length := by
  rcases List.mem_append.1 hi with hi | hi
  · exact List.mem_range.1 (List.mem_filter.1 hi).1
  · exact List.mem_range.1 hi

/-- The whole search finishes. -/
lemma finishes_callOrder (p : Program) : CallSearch.Finishes p {}
    (p.searchFrom p.procedures.length (p.roots ++ List.range p.procedures.length) {}) :=
  finishes_searchFrom (fun _ hi => lt_of_mem_starts hi) rfl

/-- In the call order, callees come before their callers, unless the call closes a cycle. -/
theorem calleesFirst_callOrder {front rest : List Nat} {q c : Nat}
    (horder : p.callOrder.order = front ++ q :: rest) (hc : p.Calls q c) :
    c ∈ front ∨ ⟨q, c⟩ ∈ p.callOrder.recursive := by
  rw [callOrder_eq] at horder ⊢
  refine p.finishes_callOrder.first ?_ front q rest horder c hc
  intro front q rest hnil
  exact absurd hnil.symm (List.append_ne_nil_of_right_ne_nil _ (List.cons_ne_nil _ _))

/-- What a procedure has if all its callees do, calls that close a cycle apart, every procedure has. -/
theorem calls_induction {motive : Nat → Prop}
    (step : ∀ q < p.procedures.length,
      (∀ c, p.Calls q c → ⟨q, c⟩ ∉ p.callOrder.recursive → motive c) → motive q)
    {q : Nat} (hq : q < p.procedures.length) : motive q := by
  -- the induction is on what stands before the procedure in the call order
  obtain ⟨front, rest, horder⟩ := List.append_of_mem (mem_callOrder hq)
  induction hlength : front.length using Nat.strongRecOn generalizing q front rest with
  | ind length ih =>
    refine step q hq fun c hc hrecursive => ?_
    have hfront : c ∈ front := (calleesFirst_callOrder horder hc).resolve_right hrecursive
    obtain ⟨front', rest', hsplit⟩ := List.append_of_mem hfront
    have hshorter : front'.length < length := by
      rw [← hlength, hsplit, List.length_append, List.length_cons]
      omega
    refine ih _ hshorter hc.lt front' (rest' ++ q :: rest) ?_ rfl
    rw [horder, hsplit, List.append_assoc, List.cons_append]

/-- Every call that the call order records closes a cycle. -/
theorem cyclic_of_mem_recursive {e : CallEdge} (he : e ∈ p.callOrder.recursive) : p.Cyclic e := by
  rw [callOrder_eq] at he
  exact p.finishes_callOrder.cyclic (fun e he => absurd he (OrderedSet.not_mem_empty e)) e he

end Program

end CacheVerdict
