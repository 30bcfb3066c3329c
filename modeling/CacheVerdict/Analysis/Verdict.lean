import CacheVerdict.Cache.May
import CacheVerdict.Cache.Must

/-!
# Verdicts

What the analysis says of one access at one level: whether it reaches the level, and whether it
hits or misses there.
-/

namespace CacheVerdict

open Std (TransOrd LawfulEqOrd TransCmp LawfulEqCmp)

/-- Whether an access hits or misses. -/
inductive Classification where
  | alwaysHit
  | alwaysMiss
  /-- In its loop it misses at most once, then hits. -/
  | firstMiss
  | notClassified
deriving DecidableEq, Repr, Inhabited

namespace Classification

/-- Every classification, in the order of reports. -/
def all : List Classification :=
  [.alwaysHit, .alwaysMiss, .firstMiss, .notClassified]

/-- How reports name the classification. -/
def label : Classification → String
  | .alwaysHit => "AH"
  | .alwaysMiss => "AM"
  | .firstMiss => "FM"
  | .notClassified => "NC"

/-- The classification of a name. -/
def ofLabel? (name : String) : Option Classification :=
  all.find? (·.label = name)

end Classification

/-- The verdict on an access at a level. -/
structure Verdict where
  reach : Reach
  classification : Classification
  /-- The loop in which the classification holds. -/
  loop : Option Nat
deriving DecidableEq, Repr

namespace Verdict

/-- Whether an access reaches a level, given its verdict at the level before: it does not where it
hit or did not arrive there, and does where it arrived and missed for certain. -/
def nextReach : Option Verdict → Reach
  | none => .never
  | some v =>
    match v.reach, v.classification with
    | .never, _ => .never
    | _, .alwaysHit => .never
    | .always, .alwaysMiss => .always
    | _, _ => .uncertain

end Verdict

/-- The classification of an access from what must and what may be cached before it. -/
def Access.classify (a : Access) (must : State MustCache) (may : State MayCache) :
    Classification :=
  match a.target with
  | .unknown => .notClassified
  | .lines lines =>
    if MustCache.hits must lines then .alwaysHit
    else if MayCache.misses may lines then .alwaysMiss
    else .notClassified

namespace Site

instance : Ord Site :=
  ⟨compareLex (compareOn node) (compareLex (compareOn instruction) (compareOn kind))⟩

instance : TransOrd Site := inferInstanceAs (TransCmp (compareLex _ (compareLex _ _)))

instance : LawfulEqOrd Site where
  eq_of_compare {a b} h := by
    obtain ⟨hnode, h⟩ := compareLex_eq_eq.1 h
    obtain ⟨hinstruction, hkind⟩ := compareLex_eq_eq.1 h
    have hnode : a.node = b.node := LawfulEqCmp.eq_of_compare hnode
    have hinstruction : a.instruction = b.instruction := LawfulEqCmp.eq_of_compare hinstruction
    have hkind : a.kind = b.kind := LawfulEqCmp.eq_of_compare hkind
    cases a
    cases b
    simp_all

end Site

/-- A procedure of the program at a level. -/
structure LevelKey where
  procedure : Nat
  level : Level
deriving DecidableEq, Repr

namespace LevelKey

instance : Ord LevelKey := ⟨compareLex (compareOn procedure) (compareOn level)⟩

instance : TransOrd LevelKey := inferInstanceAs (TransCmp (compareLex _ _))

instance : LawfulEqOrd LevelKey where
  eq_of_compare {a b} h := by
    obtain ⟨hprocedure, hlevel⟩ := compareLex_eq_eq.1 h
    have hprocedure : a.procedure = b.procedure := LawfulEqCmp.eq_of_compare hprocedure
    have hlevel : a.level = b.level := LawfulEqCmp.eq_of_compare hlevel
    cases a
    cases b
    simp_all

end LevelKey

/-- An access of a procedure at a level. -/
structure AccessKey where
  procedure : Nat
  site : Site
  level : Level
deriving DecidableEq, Repr

namespace AccessKey

instance : Ord AccessKey :=
  ⟨compareLex (compareOn procedure) (compareLex (compareOn site) (compareOn level))⟩

instance : TransOrd AccessKey := inferInstanceAs (TransCmp (compareLex _ (compareLex _ _)))

instance : LawfulEqOrd AccessKey where
  eq_of_compare {a b} h := by
    obtain ⟨hprocedure, h⟩ := compareLex_eq_eq.1 h
    obtain ⟨hsite, hlevel⟩ := compareLex_eq_eq.1 h
    have hprocedure : a.procedure = b.procedure := LawfulEqCmp.eq_of_compare hprocedure
    have hsite : a.site = b.site := LawfulEqCmp.eq_of_compare hsite
    have hlevel : a.level = b.level := LawfulEqCmp.eq_of_compare hlevel
    cases a
    cases b
    simp_all

end AccessKey

end CacheVerdict
