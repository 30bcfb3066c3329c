import Mathlib.Data.List.Basic
import CacheVerdict.Procedure.Basic

/-!
# Tables of edges

A procedure may keep the positions of the edges into each node and of those out of it, so that the
edges of a node need not be looked for. Such tables are filled while the procedure is built: a new
node has no edges, and a new edge is entered at its ends (`Procedure.Tabled`). The edges that they
list are those of the node (`Procedure.Tabled.predecessors?`, `Procedure.Tabled.successors?`).
-/

namespace CacheVerdict

/-- A computation that succeeds on every element of a list succeeds on the list. -/
lemma mapM_of_forall {α β : Type} {m : Type → Type} [Monad m] [LawfulMonad m] {f : α → m β}
    {g : α → β} {l : List α} (h : ∀ a ∈ l, f a = pure (g a)) : l.mapM f = pure (l.map g) := by
  induction l with
  | nil => rfl
  | cons a l ih =>
    obtain ⟨ha, hl⟩ := List.forall_mem_cons.1 h
    rw [List.mapM_cons, ha, ih hl, pure_bind, pure_bind, List.map_cons]

/-- For each node, the positions of the edges into it and those of the edges out of it. -/
structure EdgeTables where
  incoming : List (List Nat) := []
  outgoing : List (List Nat) := []

namespace EdgeTables

/-- A new node has no edges. -/
def addNode (t : EdgeTables) : EdgeTables where
  incoming := t.incoming ++ [[]]
  outgoing := t.outgoing ++ [[]]

/-- Enters the position of an edge at one of its ends, if there is a node. -/
def enter (rows : List (List Nat)) (position : Nat) : Option Nat → List (List Nat)
  | none => rows
  | some n => rows.modify n (· ++ [position])

/-- The edge at a position is entered at its target, and at its source if it has one. -/
def addEdge (t : EdgeTables) (position : Nat) (e : Edge) : EdgeTables where
  incoming := enter t.incoming position (some e.target)
  outgoing := enter t.outgoing position e.source

/-- The edges that a table lists for a node: nothing comes of it if there is no row for the node, or
no edge at a position in the row. -/
def edgesOf? (rows : List (List Nat)) (edges : List Edge) (n : Nat) : Option (List Edge) :=
  rows[n]?.bind fun row => row.mapM (edges[·]?)

/-- The sources of the edges into a node. -/
def predecessors? (t : EdgeTables) (p : Procedure) (n : Nat) : Option (List Nat) :=
  (edgesOf? t.incoming p.edges n).map (List.filterMap Edge.source)

/-- The targets of the edges out of a node. -/
def successors? (t : EdgeTables) (p : Procedure) (n : Nat) : Option (List Nat) :=
  (edgesOf? t.outgoing p.edges n).map (List.map Edge.target)

/-! ### Rows -/

/-- The positions of the edges that have a node at one end. -/
def row (edges : List Edge) (endOf : Edge → Option Nat) (n : Nat) : List Nat :=
  (edges.zipIdx.filter fun (e, _) => endOf e = some n).map Prod.snd

/-- The rows of so many nodes. -/
def rows (count : Nat) (edges : List Edge) (endOf : Edge → Option Nat) : List (List Nat) :=
  (List.range count).map (row edges endOf)

variable {edges : List Edge} {endOf : Edge → Option Nat} {count n : Nat}

/-- The last edge stands last in the row of its end. -/
lemma row_concat (edges : List Edge) (e : Edge) (endOf : Edge → Option Nat) (n : Nat) :
    row (edges ++ [e]) endOf n =
      row edges endOf n ++ if endOf e = some n then [edges.length] else [] := by
  unfold row
  rw [List.zipIdx_append, List.zipIdx_singleton, List.filter_append, List.map_append, Nat.zero_add,
    List.filter_singleton]
  by_cases hend : endOf e = some n <;> simp [hend]

/-- Entering an edge at its end makes the rows with the edge. -/
lemma enter_rows (count : Nat) (edges : List Edge) (e : Edge) (endOf : Edge → Option Nat) :
    enter (rows count edges endOf) edges.length (endOf e) = rows count (edges ++ [e]) endOf := by
  have hrows : rows count (edges ++ [e]) endOf = (List.range count).map fun n =>
      row edges endOf n ++ if endOf e = some n then [edges.length] else [] :=
    List.map_congr_left fun n _ => row_concat edges e endOf n
  rw [hrows, rows]
  cases hend : endOf e with
  | none => simp [enter]
  | some m =>
    -- row by row: only that of `m` gets longer, and there may be none
    refine List.ext_getElem? fun n => ?_
    rw [enter, List.getElem?_modify, List.getElem?_map, List.getElem?_map]
    by_cases hn : n < count
    · rw [List.getElem?_range hn]
      by_cases hm : m = n <;> simp [hm]
    · rw [List.getElem?_eq_none (by simpa using hn)]
      rfl

/-- A node that no edge has at that end has an empty row. -/
lemma rows_succ (endOf : Edge → Option Nat)
    (inRange : ∀ e ∈ edges, ∀ n, endOf e = some n → n < count) :
    rows (count + 1) edges endOf = rows count edges endOf ++ [[]] := by
  have hrow : row edges endOf count = [] := by
    rw [row, List.map_eq_nil_iff, List.filter_eq_nil_iff]
    intro x hx hend
    have hmem : x.1 ∈ edges := List.mem_of_getElem? (List.mem_zipIdx_iff_getElem?.1 hx)
    exact Nat.lt_irrefl _ (inRange x.1 hmem count (of_decide_eq_true hend))
  rw [rows, rows, List.range_succ, List.map_append, List.map_singleton, hrow]

/-- A row leads to the edges that have the node at that end. -/
lemma edgesOf?_rows (hn : n < count) :
    edgesOf? (rows count edges endOf) edges n = some (edges.filter fun e => endOf e = some n) := by
  have hrow : (row edges endOf n).mapM (edges[·]?) =
      some ((edges.zipIdx.filter fun (e, _) => endOf e = some n).map Prod.fst) := by
    rw [row, List.mapM_map]
    refine mapM_of_forall fun x hx => ?_
    exact List.mem_zipIdx_iff_getElem?.1 (List.mem_of_mem_filter hx)
  have hedges : (edges.zipIdx.filter fun (e, _) => endOf e = some n).map Prod.fst =
      edges.filter fun e => endOf e = some n := by
    conv_rhs => rw [← List.zipIdx_map_fst 0 edges, List.filter_map]
    rfl
  rw [edgesOf?, rows, List.getElem?_map, List.getElem?_range hn, Option.map_some, Option.bind_some,
    hrow, hedges]

end EdgeTables

/-! ### Procedures with tables -/

namespace Procedure

/-- The tables that are filled as a procedure is built, of nodes, edges between them and loops. -/
inductive Tabled : Procedure → EdgeTables → Prop
  | start (name : String) : Tabled { name } {}
  | addNode {p : Procedure} {t : EdgeTables} (n : Node) :
    Tabled p t → Tabled (p.addNode n) t.addNode
  | addEdge {p : Procedure} {t : EdgeTables} {e : Edge} (ends : p.hasEnds e = true) :
    Tabled p t → Tabled (p.addEdge e) (t.addEdge p.edges.length e)
  | addLoop {p : Procedure} {t : EdgeTables} (header : Nat) (body : List Nat) :
    Tabled p t → Tabled (p.addLoop header body) t

namespace Tabled

variable {p : Procedure} {t : EdgeTables} {n : Nat}

/-- The ends of the edges are nodes. -/
lemma edges (tabled : p.Tabled t) : ∀ e ∈ p.edges,
    e.target < p.nodes.length ∧ ∀ n, e.source = some n → n < p.nodes.length := by
  induction tabled with
  | start => exact fun e he => (List.not_mem_nil he).elim
  | addNode n _ ih =>
    intro e he
    obtain ⟨htarget, hsource⟩ := ih e he
    rw [Procedure.addNode, List.length_append]
    exact ⟨Nat.lt_add_right _ htarget, fun n hn => Nat.lt_add_right _ (hsource n hn)⟩
  | @addEdge p t e ends _ ih =>
    intro e' he'
    rcases List.mem_append.1 he' with he' | he'
    · exact ih e' he'
    · obtain rfl := List.mem_singleton.1 he'
      obtain ⟨htarget, hsource⟩ := Bool.and_eq_true_iff.1 ends
      refine ⟨of_decide_eq_true htarget, fun n hn => ?_⟩
      rw [hn] at hsource
      exact of_decide_eq_true hsource
  | addLoop _ _ _ ih => exact ih

/-- Tables that are filled so have the rows of the edges. -/
lemma eq_rows (tabled : p.Tabled t) :
    t = ⟨EdgeTables.rows p.nodes.length p.edges fun e => some e.target,
      EdgeTables.rows p.nodes.length p.edges Edge.source⟩ := by
  induction tabled with
  | start => rfl
  | @addNode p t n tabled ih =>
    have hnodes : (p.addNode n).nodes.length = p.nodes.length + 1 := by
      rw [Procedure.addNode, List.length_append, List.length_singleton]
    rw [ih, hnodes]
    have hincoming := EdgeTables.rows_succ (fun e => some e.target)
      fun e he n hn => Option.some.inj hn ▸ (tabled.edges e he).1
    have houtgoing := EdgeTables.rows_succ Edge.source fun e he => (tabled.edges e he).2
    exact congrArg₂ EdgeTables.mk hincoming.symm houtgoing.symm
  | @addEdge p t e _ _ ih =>
    rw [ih]
    exact congrArg₂ EdgeTables.mk
      (EdgeTables.enter_rows p.nodes.length p.edges e fun e => some e.target)
      (EdgeTables.enter_rows p.nodes.length p.edges e Edge.source)
  | addLoop _ _ _ ih => exact ih

/-- The table of incoming edges leads to the predecessors. -/
theorem predecessors? (tabled : p.Tabled t) (hn : n < p.nodes.length) :
    t.predecessors? p n = some (p.predecessors n) := by
  rw [tabled.eq_rows, EdgeTables.predecessors?, EdgeTables.edgesOf?_rows hn, Option.map_some,
    List.filterMap_filter]
  simp only [predecessors, Option.some_inj, decide_eq_true_eq]

/-- The table of outgoing edges leads to the successors. -/
theorem successors? (tabled : p.Tabled t) (hn : n < p.nodes.length) :
    t.successors? p n = some (p.successors n) := by
  rw [tabled.eq_rows, EdgeTables.successors?, EdgeTables.edgesOf?_rows hn, Option.map_some,
    ← List.filterMap_eq_map, List.filterMap_filter]
  simp only [successors, decide_eq_true_eq, Function.comp_apply]

end Tabled

end Procedure

end CacheVerdict
