import Mathlib.Logic.Equiv.Basic
import CacheVerdict.Proofs.Cache.Lru

/-!
# Relabelled caches

To a cache, the names of lines do not matter: what it does depends only on which lines are the same
and which lie in one set. So a cache whose lines are given other names, by a permutation that keeps
each line in its set, does the same under these names (`relabel_touchAll`). Lines that stand to one
another as others do can be given the names of those (`exists_relabelling`).
-/

namespace CacheVerdict

/-- Other names for lines: a permutation that keeps each line in its set. -/
structure Relabelling (g : Geometry) where
  toPerm : Equiv.Perm Line
  setOf_toPerm : ∀ line, g.setOf (toPerm line) = g.setOf line

namespace Relabelling

variable {g : Geometry}

instance : CoeFun (Relabelling g) fun _ => Line → Line := ⟨fun φ => φ.toPerm⟩

/-- Lines stay in their sets. -/
lemma setOf_apply (φ : Relabelling g) (line : Line) : g.setOf (φ line) = g.setOf line :=
  φ.setOf_toPerm line

/-- Different lines go by different names. -/
lemma injective (φ : Relabelling g) : Function.Injective φ :=
  φ.toPerm.injective

/-- Every line keeps its name. -/
protected def refl (g : Geometry) : Relabelling g where
  toPerm := Equiv.refl Line
  setOf_toPerm _ := rfl

/-- Afterwards, two lines of one set change names. -/
def swap (φ : Relabelling g) {x y : Line} (h : g.setOf x = g.setOf y) : Relabelling g where
  toPerm := φ.toPerm.trans (Equiv.swap x y)
  setOf_toPerm line := by
    rw [Equiv.trans_apply, Equiv.swap_apply_def]
    split
    · rename_i hx
      rw [← h, ← hx]
      exact φ.setOf_toPerm line
    · split
      · rename_i hy
        rw [h, ← hy]
        exact φ.setOf_toPerm line
      · exact φ.setOf_toPerm line

end Relabelling

/-- The first lines stand to one another as the second ones do: in the same sets, and the same where
those are. -/
def Alike (g : Geometry) (pairs : List (Line × Line)) : Prop :=
  ∀ x ∈ pairs, g.setOf x.1 = g.setOf x.2 ∧ ∀ y ∈ pairs, x.1 = y.1 ↔ x.2 = y.2

-- named instances, so that the pairs of the list are gone through and not all pairs of lines
instance (g : Geometry) (pairs : List (Line × Line)) : Decidable (Alike g pairs) :=
  have (x : Line × Line) : Decidable (∀ y ∈ pairs, x.1 = y.1 ↔ x.2 = y.2) :=
    List.decidableBAll _ pairs
  List.decidableBAll _ pairs

/-- Such lines can be given the names of one another. -/
theorem Alike.exists_relabelling {g : Geometry} {pairs : List (Line × Line)} (alike : Alike g pairs) :
    ∃ φ : Relabelling g, ∀ x ∈ pairs, φ x.1 = x.2 := by
  induction pairs with
  | nil => exact ⟨.refl g, nofun⟩
  | cons x pairs ih =>
    obtain ⟨φ, hφ⟩ := ih fun y hy => ⟨(alike y (List.mem_cons_of_mem _ hy)).1,
      fun z hz => (alike y (List.mem_cons_of_mem _ hy)).2 z (List.mem_cons_of_mem _ hz)⟩
    obtain ⟨hset, hsame⟩ := alike x List.mem_cons_self
    rcases Classical.em (∃ y ∈ pairs, x.1 = y.1) with ⟨y, hy, heq⟩ | hnew
    · -- the line has its name already
      refine ⟨φ, List.forall_mem_cons.2 ⟨?_, hφ⟩⟩
      rw [heq, hφ y hy]
      exact ((hsame y (List.mem_cons_of_mem _ hy)).1 heq).symm
    · -- the line changes names with the one that has its new name
      have hswap : g.setOf (φ x.1) = g.setOf x.2 := (φ.setOf_apply x.1).trans hset
      refine ⟨φ.swap hswap, List.forall_mem_cons.2 ⟨Equiv.swap_apply_left _ _, ?_⟩⟩
      intro y hy
      have hne : x.1 ≠ y.1 := fun heq => hnew ⟨y, hy, heq⟩
      have hold : y.2 ≠ φ x.1 := by
        rw [← hφ y hy]
        exact fun heq => hne (φ.injective heq.symm)
      have hother : y.2 ≠ x.2 := fun heq =>
        hne ((hsame y (List.mem_cons_of_mem _ hy)).2 heq.symm)
      show Equiv.swap (φ x.1) x.2 (φ y.1) = y.2
      rw [hφ y hy, Equiv.swap_apply_of_ne_of_ne hold hother]

namespace LruCache

variable {g : Geometry} {φ : Relabelling g} {c : LruCache g} {line : Line}

/-- The cache with its lines under other names. -/
def relabel (φ : Relabelling g) (c : LruCache g) : LruCache g where
  recent set := (c.recent set).map φ
  nodup set := (c.nodup set).map φ.injective
  length_le set := by
    rw [List.length_map]
    exact c.length_le set
  setOf_mem set line h := by
    obtain ⟨other, hother, rfl⟩ := List.mem_map.1 h
    rw [φ.setOf_apply]
    exact c.setOf_mem set other hother

/-- Caches that hold the same lines in the same order are the same. -/
lemma ext_recent {c d : LruCache g} (h : ∀ set, c.recent set = d.recent set) : c = d := by
  cases c
  cases d
  congr
  funext set
  exact h set

/-- Renaming an empty cache leaves it empty. -/
lemma relabel_empty : (empty g).relabel φ = empty g := rfl

/-- A line is cached if its new name is. -/
lemma mem_relabel : φ line ∈ c.relabel φ ↔ line ∈ c := by
  rw [mem_def, mem_def, φ.setOf_apply]
  exact List.mem_map_of_injective φ.injective

/-- Touching a line and renaming is renaming and touching it by its new name. -/
lemma relabel_touch : (c.touch line).relabel φ = (c.relabel φ).touch (φ line) := by
  apply ext_recent
  intro set
  show ((c.touch line).recent set).map φ = ((c.relabel φ).touch (φ line)).recent set
  unfold touch
  simp only [φ.setOf_apply]
  split
  · show _ = List.take _ (φ line :: ((c.recent set).map φ).erase (φ line))
    rw [List.map_take, List.map_cons, List.map_erase φ.injective]
  · rfl

/-- What is touched under its name is touched under the other name. -/
theorem relabel_touchAll {lines : List Line} :
    (c.touchAll lines).relabel φ = (c.relabel φ).touchAll (lines.map φ) := by
  induction lines generalizing c with
  | nil => rfl
  | cons line lines ih => rw [List.map_cons, touchAll_cons, touchAll_cons, ih, relabel_touch]

end LruCache

end CacheVerdict
