import Mathlib.Algebra.BigOperators.Ring.List
import Mathlib.Algebra.Order.BigOperators.Group.List
import Mathlib.Algebra.Order.Group.Nat
import Mathlib.Algebra.Ring.Nat
import Mathlib.Data.List.Nodup
import Mathlib.Logic.Relation
import CacheVerdict.Procedure.Basic
import CacheVerdict.Proofs.Ordered.Set

/-!
# Edges and paths of a procedure

Predecessors and successors describe the same edges (`Procedure.mem_successors_iff`), and where every
edge has its ends in the procedure they lead to nodes. The nodes that paths from the entries lead to
are `Procedure.Reachable`.
-/

namespace CacheVerdict

/-- The predecessors and the successors of a procedure describe the same edges. -/
lemma Procedure.mem_successors_iff {q : Procedure} {m n : Nat} :
    n ∈ q.successors m ↔ m ∈ q.predecessors n := by
  unfold successors predecessors
  rw [List.mem_filterMap, List.mem_filterMap]
  refine exists_congr fun e => and_congr Iff.rfl ?_
  constructor
  · intro h
    split at h
    · rename_i hsource
      cases h
      rw [if_pos rfl, hsource]
    · cases h
  · intro h
    split at h
    · rename_i htarget
      rw [if_pos h, htarget]
    · cases h

/-- Edges between nodes of a procedure lead to nodes. -/
lemma Procedure.target_lt {q : Procedure} (edges : ∀ e ∈ q.edges, q.hasEnds e = true) {m n : Nat}
    (h : n ∈ q.successors m) : n < q.nodes.length := by
  obtain ⟨e, he, htarget⟩ := List.mem_filterMap.1 h
  have hends := edges e he
  unfold hasEnds at hends
  split at htarget
  · cases htarget
    exact of_decide_eq_true (Bool.and_eq_true_iff.1 hends).1
  · cases htarget

/-- So do the edges that enter it, and without any the first node is an entry. -/
lemma Procedure.entry_lt {q : Procedure} (edges : ∀ e ∈ q.edges, q.hasEnds e = true) {n : Nat}
    (h : n ∈ q.entries) : n < q.nodes.length := by
  unfold entries at h
  simp only at h
  split at h
  · rename_i hempty
    rw [List.mem_singleton.1 h]
    have hnodes : q.nodes ≠ [] := by simpa using (Bool.and_eq_true_iff.1 hempty).2
    exact List.length_pos_of_ne_nil hnodes
  · obtain ⟨e, he, htarget⟩ := List.mem_filterMap.1 (OrderedSet.mem_ofList.1 h)
    have hends := edges e he
    unfold hasEnds at hends
    split at htarget
    · cases htarget
      exact of_decide_eq_true (Bool.and_eq_true_iff.1 hends).1
    · cases htarget

/-- No entry is listed twice. -/
lemma Procedure.nodup_entries (q : Procedure) : q.entries.Nodup := by
  unfold entries
  simp only
  split
  · exact List.nodup_singleton 0
  · exact OrderedSet.nodup_toList _

/-- Every edge leaves at most one of different nodes. -/
lemma sum_source_le_one {l : List Nat} (hnodup : l.Nodup) (source : Option Nat) :
    (l.map fun n => if source = some n then 1 else 0).sum ≤ 1 := by
  induction l with
  | nil => exact Nat.zero_le 1
  | cons n l ih =>
    obtain ⟨hn, hnodup⟩ := List.nodup_cons.1 hnodup
    rw [List.map_cons, List.sum_cons]
    split
    · rename_i heq
      have hzero : (l.map fun m => if source = some m then 1 else 0).sum = 0 := by
        refine List.sum_eq_zero fun v hv => ?_
        obtain ⟨m, hm, rfl⟩ := List.mem_map.1 hv
        rw [heq, if_neg]
        rintro ⟨⟩
        exact hn hm
      rw [hzero]
    · rw [Nat.zero_add]
      exact ih hnodup

/-- So the nodes have no more successors together than there are edges. -/
lemma Procedure.sum_successors_le (q : Procedure) :
    ((List.range q.nodes.length).map fun n => (q.successors n).length).sum ≤ q.edges.length := by
  unfold successors
  induction q.edges with
  | nil => simp
  | cons e edges ih =>
    have hstep (n : Nat) : ((e :: edges).filterMap fun e =>
        if e.source = some n then some e.target else none).length =
          (if e.source = some n then 1 else 0) + (edges.filterMap fun e =>
            if e.source = some n then some e.target else none).length := by
      rw [List.filterMap_cons]
      split
      · rename_i hnone
        rw [if_neg fun heq => by simp [heq] at hnone, Nat.zero_add]
      · rename_i hsome
        rw [List.length_cons, if_pos (by by_contra hne; simp [hne] at hsome), Nat.add_comm]
    simp only [hstep]
    rw [List.sum_map_add, List.length_cons, Nat.add_comm]
    exact Nat.add_le_add ih (sum_source_le_one List.nodup_range e.source)

/-- A path from an entry of the procedure leads to the node. -/
inductive Procedure.Reachable (q : Procedure) : Nat → Prop where
  | entry {n : Nat} : n ∈ q.entries → q.Reachable n
  | edge {m n : Nat} : q.Reachable m → n ∈ q.successors m → q.Reachable n

/-- What a path from an entry leads to is reachable. -/
lemma Procedure.Reachable.of_path {q : Procedure} {m n : Nat} (hm : m ∈ q.entries)
    (path : Relation.ReflTransGen (fun m n => n ∈ q.successors m) m n) : q.Reachable n := by
  induction path with
  | refl => exact .entry hm
  | tail _ hn ih => exact ih.edge hn

/-- Only nodes of the procedure are reachable. -/
lemma Procedure.Reachable.lt {q : Procedure} (edges : ∀ e ∈ q.edges, q.hasEnds e = true) {n : Nat}
    (h : q.Reachable n) : n < q.nodes.length := by
  cases h with
  | entry hn => exact entry_lt edges hn
  | edge _ hn => exact target_lt edges hn

end CacheVerdict
