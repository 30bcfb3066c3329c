import CacheVerdict.Program.Basic

/-!
# Call order

Procedures in an order in which callees come before their callers, found by depth-first search from
the roots. A call back into a procedure that is still being visited closes a cycle and is recorded
instead of followed.
-/

namespace CacheVerdict

open Std (TransOrd LawfulEqOrd TransCmp LawfulEqCmp)

/-- A call between procedures of a program. -/
structure CallEdge where
  caller : Nat
  callee : Nat
deriving DecidableEq, Repr

namespace CallEdge

instance : Ord CallEdge := ⟨compareLex (compareOn caller) (compareOn callee)⟩

instance : TransOrd CallEdge := inferInstanceAs (TransCmp (compareLex _ _))

instance : LawfulEqOrd CallEdge where
  eq_of_compare {a b} h := by
    obtain ⟨hcaller, hcallee⟩ := compareLex_eq_eq.1 h
    have hcaller : a.caller = b.caller := LawfulEqCmp.eq_of_compare hcaller
    have hcallee : a.callee = b.callee := LawfulEqCmp.eq_of_compare hcallee
    cases a
    cases b
    simp_all

end CallEdge

/-- An order of the procedures, and the calls that close a cycle. -/
structure CallOrder where
  order : List Nat := []
  recursive : OrderedSet CallEdge := {}
deriving DecidableEq

/-- The state of the search: what is finished, and the procedures being visited. -/
structure CallSearch extends CallOrder where
  active : List Nat := []

namespace CallSearch

/-- Visits procedure `i` after everything it calls, callees with larger positions first. At most
`fuel` visits are nested. -/
def visit (p : Program) : Nat → CallSearch → Nat → CallSearch
  | 0, s, _ => s
  | fuel + 1, s, i =>
    let entered := { s with active := i :: s.active }
    let left := (p.calleesOf i).toList.reverse.foldl (fun s c =>
      if c ∈ s.active then { s with recursive := s.recursive.insert ⟨i, c⟩ }
      else if c ∈ s.order then s
      else visit p fuel s c) entered
    { left with order := left.order ++ [i], active := s.active }

end CallSearch

/-- The call order of a program: the search starts at each root, then at what no root reaches. -/
def Program.callOrder (p : Program) : CallOrder :=
  let size := p.procedures.length
  let starts := p.roots ++ List.range size
  (starts.foldl (fun s i => if i ∈ s.order then s else CallSearch.visit p size s i) ({} : CallSearch)).toCallOrder

end CacheVerdict
