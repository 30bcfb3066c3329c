import CacheVerdict.Text.Blank

/-!
# Cache levels

The split first level (`L1I` for instruction fetches, `L1D` for data) and the unified levels behind
it, in the order in which an access meets them.
-/

namespace CacheVerdict

open Std (TransOrd LawfulEqOrd TransCmp)

/-- What a memory access is for. -/
inductive AccessKind where
  | fetch
  | data
deriving DecidableEq, Repr, Inhabited

namespace AccessKind

/-- How reports name the kind. -/
def label : AccessKind → String
  | .fetch => "INST"
  | .data => "DATA"

/-- Fetches come before data accesses. -/
def rank : AccessKind → Nat
  | .fetch => 0
  | .data => 1

instance : Ord AccessKind := ⟨compareOn rank⟩

instance : TransOrd AccessKind := inferInstanceAs (TransCmp (compareOn rank))

instance : LawfulEqOrd AccessKind where
  eq_of_compare {a b} h := by revert h; cases a <;> cases b <;> decide

end AccessKind

/-- A level of the cache hierarchy. -/
inductive Level where
  | l1i
  | l1d
  | l2
  | l3
deriving DecidableEq, Repr, Inhabited

namespace Level

/-- Every level, nearest first. -/
def all : List Level :=
  [.l1i, .l1d, .l2, .l3]

/-- How reports and options name the level. -/
def label : Level → String
  | .l1i => "L1I"
  | .l1d => "L1D"
  | .l2 => "L2"
  | .l3 => "L3"

/-- The position of the level, counted from the processor. -/
def rank : Level → Nat
  | .l1i => 0
  | .l1d => 1
  | .l2 => 2
  | .l3 => 3

instance : Ord Level := ⟨compareOn rank⟩

instance : TransOrd Level := inferInstanceAs (TransCmp (compareOn rank))

instance : LawfulEqOrd Level where
  eq_of_compare {a b} h := by revert h; cases a <;> cases b <;> decide

/-- Whether accesses of a kind go through the level. -/
def serves : Level → AccessKind → Bool
  | .l1i, kind => kind = .fetch
  | .l1d, kind => kind = .data
  | .l2, _ => true
  | .l3, _ => true

/-- The level of a name, in either case of its letters. -/
def ofName? (name : String) : Option Level :=
  all.find? fun level => level.label.toList = Text.upper name.toList

end Level

end CacheVerdict
