import Mathlib.Data.List.Nodup
import Mathlib.Data.List.Perm.Subperm
import CacheVerdict.Procedure.LoopNest
import CacheVerdict.Proofs.Ordered.Set

/-!
# Walks through loop nests

A parent is larger than its child (`LoopNest.size_lt_of_parent`). So the loops on the way from a loop
to the outermost one around it are different ones, and the walk is over before all loops have been
met (`LoopNest.length_ancestorsWithin_lt`).
-/

namespace CacheVerdict.LoopNest

variable {loops : List Loop} {l o fuel : Nat}

/-- The smallest of some loops is one of them. -/
lemma mem_of_smallest {candidates : List (Loop × Nat)} {x : Loop × Nat}
    (h : smallest candidates = some x) : x ∈ candidates := by
  induction candidates generalizing x with
  | nil => cases h
  | cons y rest ih =>
    unfold smallest at h
    split at h
    · cases h
      exact List.mem_cons_self
    · rename_i z hz
      split at h
      · cases h
        exact List.mem_cons_of_mem _ (ih hz)
      · cases h
        exact List.mem_cons_self

/-- The parent of a loop is a larger loop. -/
lemma size_lt_of_parent (h : (parentsOf loops)[l]?.join = some o) :
    ∃ inner outer, loops[l]? = some inner ∧ loops[o]? = some outer ∧
      inner.body.size < outer.body.size := by
  unfold parentsOf at h
  rw [List.getElem?_map, List.getElem?_zipIdx, Nat.zero_add] at h
  cases hinner : loops[l]? with
  | none =>
    rw [hinner] at h
    cases h
  | some inner =>
    rw [hinner] at h
    obtain ⟨x, hx, rfl⟩ := Option.map_eq_some_iff.1 h
    obtain ⟨hmem, hencloses⟩ := List.mem_filter.1 (mem_of_smallest hx)
    refine ⟨inner, x.1, rfl, List.mem_zipIdx_iff_getElem?.1 hmem, ?_⟩
    simp only [Loop.encloses, Bool.and_eq_true, decide_eq_true_eq] at hencloses
    exact hencloses.2.1

/-- A parent is one of the loops. -/
lemma parent_lt (h : (parentsOf loops)[l]?.join = some o) : o < loops.length := by
  obtain ⟨_, _, _, houter, _⟩ := size_lt_of_parent h
  exact (List.getElem?_eq_some_iff.1 houter).1

/-- The size of the loop at a position. -/
def sizeAt (loops : List Loop) (l : Nat) : Nat :=
  (loops[l]?.map fun loop => loop.body.size).getD 0

/-- Sizes grow along a walk, and all of it is among the loops. -/
lemma chain_ancestorsWithin (fuel : Nat) (hl : l < loops.length) :
    (l :: ancestorsWithin (parentsOf loops) fuel l).Pairwise
        (fun a b => sizeAt loops a < sizeAt loops b) ∧
      ∀ a ∈ l :: ancestorsWithin (parentsOf loops) fuel l, a < loops.length := by
  induction fuel generalizing l with
  | zero => simpa [ancestorsWithin] using hl
  | succ fuel ih =>
    unfold ancestorsWithin
    split
    · simpa using hl
    · rename_i o hparent
      obtain ⟨inner, outer, hinner, houter, hlt⟩ := size_lt_of_parent hparent
      obtain ⟨hsorted, hrange⟩ := ih (parent_lt hparent)
      have hfirst : sizeAt loops l < sizeAt loops o := by
        simpa [sizeAt, hinner, houter] using hlt
      refine ⟨List.pairwise_cons.2 ⟨?_, hsorted⟩, List.forall_mem_cons.2 ⟨hl, hrange⟩⟩
      intro a ha
      rcases List.mem_cons.1 ha with rfl | ha
      · exact hfirst
      · exact Nat.lt_trans hfirst ((List.pairwise_cons.1 hsorted).1 a ha)

/-- An ancestor is one of the loops. -/
lemma lt_of_mem_ancestorsWithin (hl : l < loops.length)
    (h : o ∈ ancestorsWithin (parentsOf loops) fuel l) : o < loops.length :=
  (chain_ancestorsWithin fuel hl).2 o (List.mem_cons_of_mem l h)

/-- A loop has fewer ancestors than there are loops. -/
theorem length_ancestorsWithin_lt (hl : l < loops.length) :
    (ancestorsWithin (parentsOf loops) fuel l).length < loops.length := by
  obtain ⟨hsorted, hrange⟩ := chain_ancestorsWithin fuel hl
  have hnodup : (l :: ancestorsWithin (parentsOf loops) fuel l).Nodup := by
    refine hsorted.imp ?_
    intro a b hlt heq
    rw [heq] at hlt
    exact Nat.lt_irrefl _ hlt
  have hsub : (l :: ancestorsWithin (parentsOf loops) fuel l) ⊆ List.range loops.length :=
    fun a ha => List.mem_range.2 (hrange a ha)
  have hle := (hnodup.subperm hsub).length_le
  rw [List.length_range, List.length_cons] at hle
  exact hle

end CacheVerdict.LoopNest
