import Mathlib.Data.List.Nodup
import CacheVerdict.Program.CallOrder
import CacheVerdict.Proofs.Ordered.Set

/-!
# The call order lists every procedure once

A visit leaves the path of procedures being visited as it found it, and adds only procedures that
are not on it. So when a procedure is added it is not there yet. The search starts at every
procedure that it has not come across, so none is left out. Main statements: `nodup_callOrder` and
`mem_callOrder`.
-/

namespace CacheVerdict

namespace CallSearch

/-- What a visit may do to the search: it adds procedures that are not being visited, each once. -/
structure Extends (s t : CallSearch) : Prop where
  active : t.active = s.active
  nodup : s.order.Nodup → t.order.Nodup
  kept : ∀ x ∈ s.order, x ∈ t.order
  fresh : ∀ x ∈ t.order, x ∈ s.order ∨ x ∉ s.active

/-- A search extends itself. -/
lemma Extends.refl (s : CallSearch) : Extends s s where
  active := rfl
  nodup h := h
  kept _ h := h
  fresh _ h := .inl h

/-- Extending a search is transitive. -/
lemma Extends.trans {s t u : CallSearch} (hst : Extends s t) (htu : Extends t u) :
    Extends s u where
  active := htu.active.trans hst.active
  nodup h := htu.nodup (hst.nodup h)
  kept x hx := htu.kept x (hst.kept x hx)
  fresh x hx := by
    rcases htu.fresh x hx with hx | hx
    · exact hst.fresh x hx
    · rw [hst.active] at hx
      exact .inr hx

/-- Steps that extend a search do so one after another. -/
lemma Extends.foldl {f : CallSearch → Nat → CallSearch} (step : ∀ s c, Extends s (f s c))
    (l : List Nat) (s : CallSearch) : Extends s (l.foldl f s) := by
  induction l generalizing s with
  | nil => exact .refl s
  | cons c l ih => exact (step s c).trans (ih (f s c))

/-- What a visit of procedure `i` does with a callee. -/
def follow (p : Program) (fuel i : Nat) (s : CallSearch) (c : Nat) : CallSearch :=
  if c ∈ s.active then { s with recursive := s.recursive.insert ⟨i, c⟩ }
  else if c ∈ s.order then s
  else visit p fuel s c

/-- The search once the callees of procedure `i` are visited. -/
def followAll (p : Program) (fuel : Nat) (s : CallSearch) (i : Nat) : CallSearch :=
  (p.calleesOf i).toList.reverse.foldl (follow p fuel i) { s with active := i :: s.active }

/-- A visit follows all callees and then enters the procedure. -/
lemma visit_succ (p : Program) (fuel : Nat) (s : CallSearch) (i : Nat) :
    visit p (fuel + 1) s i = { followAll p fuel s i with
      order := (followAll p fuel s i).order ++ [i]
      active := s.active } := by
  rw [visit]
  rfl

/-- A visit of a procedure that is neither finished nor being visited. -/
lemma extends_visit (p : Program) (fuel : Nat) {s : CallSearch} {i : Nat} (hactive : i ∉ s.active)
    (horder : i ∉ s.order) : Extends s (visit p fuel s i) := by
  induction fuel generalizing s i with
  | zero => exact .refl s
  | succ fuel ih =>
    have hextends : Extends { s with active := i :: s.active } (followAll p fuel s i) := by
      apply Extends.foldl
      intro s c
      unfold follow
      split
      · exact ⟨rfl, fun h => h, fun _ h => h, fun _ h => .inl h⟩
      · split
        · exact .refl s
        · rename_i hc hc'
          exact ih hc hc'
    -- the procedure was on the path all the while, so no other visit has added it
    have hnot : i ∉ (followAll p fuel s i).order := by
      intro hi
      rcases hextends.fresh i hi with hi | hi
      · exact horder hi
      · exact hi List.mem_cons_self
    rw [visit_succ]
    constructor
    · rfl
    · intro h
      refine List.nodup_append.2 ⟨hextends.nodup h, List.nodup_singleton i, ?_⟩
      rintro x hx y hy rfl
      rw [List.mem_singleton.1 hy] at hx
      exact hnot hx
    · intro x hx
      exact List.mem_append_left _ (hextends.kept x hx)
    · intro x hx
      rcases List.mem_append.1 hx with hx | hx
      · exact (hextends.fresh x hx).imp id fun h hmem => h (List.mem_cons_of_mem _ hmem)
      · exact .inr (List.mem_singleton.1 hx ▸ hactive)

/-- A visit lists the procedure. -/
lemma mem_order_visit (p : Program) (fuel : Nat) (s : CallSearch) (i : Nat) :
    i ∈ (visit p (fuel + 1) s i).order := by
  rw [visit_succ]
  exact List.mem_append_right _ List.mem_cons_self

end CallSearch

namespace Program

/-- The search from each start that is not finished yet. -/
def searchFrom (p : Program) (fuel : Nat) (starts : List Nat) (s : CallSearch) : CallSearch :=
  starts.foldl (fun s i => if i ∈ s.order then s else CallSearch.visit p fuel s i) s

/-- The order is found by searching from the roots and from all procedures. -/
lemma callOrder_eq (p : Program) :
    p.callOrder = (p.searchFrom p.procedures.length (p.roots ++ List.range p.procedures.length)
      {}).toCallOrder := rfl

variable {p : Program} {fuel : Nat}

/-- Searching from several procedures extends the search. -/
lemma extends_searchFrom (starts : List Nat) {s : CallSearch} (hs : s.active = []) :
    CallSearch.Extends s (p.searchFrom fuel starts s) := by
  induction starts generalizing s with
  | nil => exact .refl s
  | cons i starts ih =>
    have step : CallSearch.Extends s
        (if i ∈ s.order then s else CallSearch.visit p fuel s i) := by
      split
      · exact .refl s
      · rename_i hi
        apply CallSearch.extends_visit p fuel _ hi
        rw [hs]
        exact List.not_mem_nil
    exact step.trans (ih (step.active.trans hs))

/-- The procedures that a search starts from are in order. -/
lemma mem_order_searchFrom {starts : List Nat} {s : CallSearch} (hs : s.active = []) {i : Nat}
    (hi : i ∈ starts) : i ∈ (p.searchFrom (fuel + 1) starts s).order := by
  induction starts generalizing s with
  | nil => cases hi
  | cons j starts ih =>
    have step : CallSearch.Extends s
        (if j ∈ s.order then s else CallSearch.visit p (fuel + 1) s j) :=
      extends_searchFrom [j] hs
    rcases List.mem_cons.1 hi with rfl | hi
    · apply (extends_searchFrom starts (step.active.trans hs)).kept
      split
      · assumption
      · exact CallSearch.mem_order_visit p fuel s i
    · exact ih (step.active.trans hs) hi

/-- The call order lists no procedure twice. -/
theorem nodup_callOrder (p : Program) : p.callOrder.order.Nodup := by
  rw [callOrder_eq]
  exact (extends_searchFrom _ rfl).nodup List.nodup_nil

/-- The call order lists every procedure. -/
theorem mem_callOrder {i : Nat} (hi : i < p.procedures.length) : i ∈ p.callOrder.order := by
  rw [callOrder_eq]
  obtain ⟨size, hsize⟩ : ∃ size, p.procedures.length = size + 1 :=
    Nat.exists_eq_succ_of_ne_zero (Nat.ne_of_gt (Nat.zero_lt_of_lt hi))
  rw [hsize] at hi ⊢
  exact mem_order_searchFrom rfl (List.mem_append_right _ (List.mem_range.2 hi))

end Program

end CacheVerdict
