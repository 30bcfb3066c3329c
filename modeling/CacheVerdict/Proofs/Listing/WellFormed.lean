import Mathlib.Data.List.Nodup
import Mathlib.Data.List.Count
import CacheVerdict.Program.Basic
import CacheVerdict.Proofs.Procedure.EdgeTables
import CacheVerdict.Proofs.Procedure.LoopNest

/-!
# Well-formed programs

In a well-formed procedure names lead to nodes, edges and loops stay among them, and the two
directions of the graph agree, also by tables of its edges (`Procedure.WellFormed`). A procedure is
so from the start, and stays so whenever a node of a new name, an edge between nodes or a loop of
nodes is added.
-/

namespace CacheVerdict

/-- A loop of a procedure with so many nodes: its nodes are in increasing order, and the header is
one of them. -/
structure Loop.WellFormed (loop : Loop) (count : Nat) : Prop where
  header : loop.header ∈ loop.body
  sorted : loop.body.toList.Pairwise (· < ·)
  inRange : ∀ n ∈ loop.body, n < count

/-- A procedure whose parts fit together. -/
structure Procedure.WellFormed (p : Procedure) : Prop where
  /-- No two nodes share a name. -/
  nodup : (p.nodes.map Node.name).Nodup
  /-- A node is found by its name. -/
  named : ∀ i node, p.nodes[i]? = some node → p.nodeNamed? node.name = some i
  /-- A call carries no code. -/
  calls : ∀ node ∈ p.nodes, node.isCall = true → node.code = []
  edges : ∀ e ∈ p.edges, p.hasEnds e = true
  loops : ∀ loop ∈ p.loops, loop.WellFormed p.nodes.length
  parents : ∀ l o, p.loopNest.parent? l = some o → o < p.loops.length
  /-- A node is a successor as often as the other one is a predecessor. -/
  mirrored : ∀ u v, (p.successors u).count v = (p.predecessors v).count u
  /-- The tables of edges that are filled as the procedure is built list both. -/
  tabled : ∃ t, p.Tabled t ∧ ∀ n < p.nodes.length,
    t.predecessors? p n = some (p.predecessors n) ∧ t.successors? p n = some (p.successors n)

/-- A program of well-formed procedures of different names. -/
structure Program.WellFormed (program : Program) : Prop where
  nonempty : program.procedures ≠ []
  nodup : (program.procedures.map Procedure.name).Nodup
  procedures : ∀ q ∈ program.procedures, q.WellFormed

/-- Sets of numbers are in increasing order. -/
lemma OrderedSet.sorted_lt (s : OrderedSet Nat) : s.toList.Pairwise (· < ·) :=
  s.sorted.imp fun h => Nat.compare_eq_lt.1 h

namespace Procedure

variable {p p' : Procedure} {n : Node} {i : Nat} {name : String}

/-! ### Names -/

/-- A name leads to a node of the procedure. -/
lemma nodeNamed?_lt (h : p.nodeNamed? name = some i) : i < p.nodes.length := by
  obtain ⟨⟨node, j⟩, hmem, heq⟩ := List.exists_of_findSome?_eq_some h
  simp only at heq
  split at heq
  · cases heq
    exact (List.mem_zipIdx' (List.mem_reverse.1 hmem)).1
  · cases heq

/-- A name that leads nowhere is the name of no node. -/
lemma nodeNamed?_eq_none : p.nodeNamed? name = none ↔ name ∉ p.nodes.map Node.name := by
  unfold nodeNamed?
  rw [List.findSome?_eq_none_iff]
  constructor
  · intro h hmem
    obtain ⟨node, hnode, hname⟩ := List.mem_map.1 hmem
    obtain ⟨i, hi⟩ := List.mem_iff_getElem?.1 hnode
    have hnone := h (node, i) (List.mem_reverse.2 (List.mem_zipIdx_iff_getElem?.2 hi))
    simp [hname] at hnone
  · rintro h ⟨node, i⟩ hmem
    have hnode := List.mem_of_getElem? (List.mem_zipIdx_iff_getElem?.1 (List.mem_reverse.1 hmem))
    refine if_neg fun hname => h ?_
    exact List.mem_map.2 ⟨node, hnode, hname⟩

/-- The last node of a name is found. -/
lemma nodeNamed?_addNode : (p.addNode n).nodeNamed? name =
    if n.name = name then some p.nodes.length else p.nodeNamed? name := by
  unfold nodeNamed? addNode
  rw [List.zipIdx_append, List.reverse_append, List.findSome?_append]
  simp only [List.zipIdx_cons, List.zipIdx_nil, List.reverse_cons, List.reverse_nil, List.nil_append,
    List.findSome?_cons, List.findSome?_nil, Nat.zero_add]
  split <;> simp_all

/-! ### Building -/

/-- Edges are counted alike from both ends. -/
lemma count_successors (p : Procedure) (u v : Nat) :
    (p.successors u).count v = (p.predecessors v).count u := by
  unfold successors predecessors
  rw [List.count_filterMap, List.count_filterMap]
  refine List.countP_congr fun e _ => ?_
  by_cases hsource : e.source = some u <;> by_cases htarget : e.target = v <;> simp_all

/-- Tables that are filled as a procedure is built lead to its predecessors and successors. -/
lemma Tabled.exists_tables {t : EdgeTables} (tabled : p.Tabled t) :
    ∃ t, p.Tabled t ∧ ∀ n < p.nodes.length,
      t.predecessors? p n = some (p.predecessors n) ∧ t.successors? p n = some (p.successors n) :=
  ⟨t, tabled, fun _ hn => ⟨tabled.predecessors? hn, tabled.successors? hn⟩⟩

namespace WellFormed

/-- A procedure without nodes is well formed. -/
lemma start (name : String) : ({ name } : Procedure).WellFormed where
  nodup := List.nodup_nil
  named _ _ h := by cases h
  calls _ h := by cases h
  edges _ h := by cases h
  loops _ h := by cases h
  parents _ _ := LoopNest.parent_lt
  mirrored := count_successors _
  tabled := (Tabled.start name).exists_tables

/-- A node of a new name may be added. -/
lemma addNode (h : p.WellFormed) (fresh : p.nodeNamed? n.name = none) :
    (p.addNode n).WellFormed where
  nodup := by
    rw [Procedure.addNode, List.map_append, List.map_singleton, ← List.concat_eq_append]
    exact h.nodup.concat (nodeNamed?_eq_none.1 fresh)
  named i node hnode := by
    rw [nodeNamed?_addNode]
    rw [Procedure.addNode] at hnode
    rcases Nat.lt_or_ge i p.nodes.length with hi | hi
    · rw [List.getElem?_append_left hi] at hnode
      have hnamed := h.named i node hnode
      rw [if_neg, hnamed]
      intro heq
      rw [heq, hnamed] at fresh
      cases fresh
    · rw [List.getElem?_append_right hi] at hnode
      obtain ⟨hlt, heq⟩ := List.getElem?_eq_some_iff.1 hnode
      have hlast : i = p.nodes.length := by
        rw [List.length_singleton] at hlt
        omega
      subst hlast
      rw [List.getElem_singleton] at heq
      rw [heq, if_pos rfl]
  calls node _ := Node.code_of_isCall
  edges e he := by
    have hends := h.edges e he
    unfold hasEnds Procedure.addNode at *
    cases hsource : e.source <;> simp_all <;> omega
  loops loop hloop := by
    obtain ⟨header, sorted, inRange⟩ := h.loops loop hloop
    refine ⟨header, sorted, fun m hm => Nat.lt_of_lt_of_le (inRange m hm) ?_⟩
    rw [Procedure.addNode, List.length_append]
    exact Nat.le_add_right _ _
  parents _ _ := LoopNest.parent_lt
  mirrored := count_successors _
  tabled := by
    obtain ⟨t, tabled, _⟩ := h.tabled
    exact (tabled.addNode n).exists_tables

/-- An edge between nodes may be added. -/
lemma addEdge (h : p.WellFormed) {e : Edge} (ends : p.hasEnds e = true) :
    (p.addEdge e).WellFormed where
  nodup := h.nodup
  named := h.named
  calls := h.calls
  edges e' he' := by
    rcases List.mem_append.1 he' with he' | he'
    · exact h.edges e' he'
    · rw [List.mem_singleton.1 he']
      exact ends
  loops := h.loops
  parents _ _ := LoopNest.parent_lt
  mirrored := count_successors _
  tabled := by
    obtain ⟨t, tabled, _⟩ := h.tabled
    exact (tabled.addEdge ends).exists_tables

/-- A loop of nodes may be added. -/
lemma addLoop (h : p.WellFormed) {header : Nat} {body : List Nat} (hheader : header < p.nodes.length)
    (hbody : ∀ m ∈ body, m < p.nodes.length) : (p.addLoop header body).WellFormed where
  nodup := h.nodup
  named := h.named
  calls := h.calls
  edges := h.edges
  loops loop hloop := by
    rcases List.mem_append.1 hloop with hloop | hloop
    · exact h.loops loop hloop
    · rw [List.mem_singleton.1 hloop]
      refine ⟨OrderedSet.mem_ofList.2 (by simp), OrderedSet.sorted_lt _, fun m hm => ?_⟩
      rcases List.mem_append.1 (OrderedSet.mem_ofList.1 hm) with hm | hm
      · exact hbody m hm
      · rw [List.mem_singleton.1 hm]
        exact hheader
  parents _ _ := LoopNest.parent_lt
  mirrored := count_successors _
  tabled := by
    obtain ⟨t, tabled, _⟩ := h.tabled
    exact (tabled.addLoop header body).exists_tables

end WellFormed

end Procedure

end CacheVerdict
