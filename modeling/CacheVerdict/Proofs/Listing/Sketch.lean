import Mathlib.Data.List.Forall2
import CacheVerdict.Listing.Draft
import CacheVerdict.Proofs.Listing.Outline
import CacheVerdict.Proofs.Listing.WellFormed

/-!
# Drafts of outlines

A draft without its line numbers is a sketch. A draft whose sketch is that of an outlined procedure
ends as that procedure (`Draft.finish_of_sketch`): names of nodes are looked up in the procedure
that has all of them, and there they lead to their positions.
-/

namespace CacheVerdict

/-- What a draft holds, whatever the lines that it came from. -/
structure Sketch where
  name : String
  nodes : List Node := []
  edges : List (Option String × String) := []
  loops : List (String × List String) := []

/-- The ends of an edge. -/
def DraftEdge.ends (e : DraftEdge) : Option String × String :=
  (e.source, e.target)

/-- The nodes of a loop, its header apart. -/
def DraftLoop.nodes (l : DraftLoop) : String × List String :=
  (l.header, l.body)

/-- A draft without its line numbers. -/
def Draft.sketch (d : Draft) : Sketch where
  name := d.name
  nodes := d.nodes.map DraftNode.node
  edges := d.edges.map DraftEdge.ends
  loops := d.loops.map DraftLoop.nodes

namespace Outline.Procedure

/-- The ends of an edge by their names. -/
def endNames (p : Procedure) (e : Edge p.nodes.length) : Option String × String :=
  (e.source.map fun i => (p.nameOf i).text, (p.nameOf e.target).text)

/-- The nodes of a loop by their names. -/
def loopNames (p : Procedure) (l : Loop p.nodes.length) : String × List String :=
  ((p.nameOf l.header).text, l.body.map fun i => (p.nameOf i).text)

/-- The sketch of a procedure. -/
def sketch (p : Procedure) : Sketch where
  name := p.name.text
  nodes := p.nodes.map Node.built
  edges := p.edges.map p.endNames
  loops := p.loops.map p.loopNames

end Outline.Procedure

/-- What is added to a procedure leaves its name. -/
lemma Procedure.name_foldl {α : Type} {f : Procedure → α → Procedure}
    (h : ∀ q a, (f q a).name = q.name) (l : List α) (q : Procedure) :
    (l.foldl f q).name = q.name := by
  induction l generalizing q with
  | nil => rfl
  | cons a l ih => rw [List.foldl_cons, ih, h]

/-- The procedure described has the name given. -/
lemma Outline.Procedure.name_built (p : Outline.Procedure) : p.built.name = p.name.text := by
  calc
    p.built.name = (p.edges.foldl (fun q e => q.addEdge e.built) p.withNodes).name :=
      CacheVerdict.Procedure.name_foldl (fun _ _ => by rfl) _ _
    _ = p.withNodes.name := CacheVerdict.Procedure.name_foldl (fun _ _ => by rfl) _ _
    _ = p.name.text := CacheVerdict.Procedure.name_foldl (fun _ _ => by rfl) _ _

/-! ### Folds that do not fail -/

/-- Steps that go as those of another list go through, and come to the same. -/
lemma foldlM_of_forall₂ {α β σ ε : Type} {R : α → β → Prop} {I : σ → Prop}
    {f : σ → α → Except ε σ} {g : σ → β → σ} {as : List α} {bs : List β} {s : σ}
    (h : List.Forall₂ R as bs) (hs : I s)
    (step : ∀ s a b, I s → R a b → f s a = .ok (g s b) ∧ I (g s b)) :
    as.foldlM f s = .ok (bs.foldl g s) ∧ I (bs.foldl g s) := by
  induction h generalizing s with
  | nil => exact ⟨rfl, hs⟩
  | @cons a b as bs hab _ ih =>
    obtain ⟨hstep, hnext⟩ := step s a b hs hab
    rw [List.foldlM_cons, hstep]
    exact ih hnext

/-- Lists with the same values, by elements. -/
lemma forall₂_of_map_eq {α β γ : Type} {u : α → γ} {v : β → γ} {as : List α} {bs : List β}
    (h : as.map u = bs.map v) : List.Forall₂ (fun a b => u a = v b) as bs := by
  rwa [← List.forall₂_map_right_iff, ← List.forall₂_map_left_iff, List.forall₂_eq_eq_eq]

/-! ### Nodes -/

namespace Procedure

/-- Nodes are added in order. -/
lemma nodes_foldl_addNode (nodes : List Node) (q : Procedure) :
    (nodes.foldl addNode q).nodes = q.nodes ++ nodes := by
  induction nodes generalizing q with
  | nil => exact (List.append_nil _).symm
  | cons n nodes ih => rw [List.foldl_cons, ih, addNode, List.append_assoc, List.singleton_append]

end Procedure

namespace Draft

/-- Nodes of different names are added one after another. -/
lemma foldlM_placeNode {nodes : List DraftNode} {q : Procedure} (hq : q.WellFormed)
    (h : (q.nodes.map Node.name ++ (nodes.map DraftNode.node).map Node.name).Nodup) :
    nodes.foldlM placeNode q = .ok ((nodes.map DraftNode.node).foldl Procedure.addNode q) ∧
      ((nodes.map DraftNode.node).foldl Procedure.addNode q).WellFormed := by
  induction nodes generalizing q with
  | nil => exact ⟨rfl, hq⟩
  | cons n nodes ih =>
    have hfresh : q.nodeNamed? n.node.name = none := by
      refine Procedure.nodeNamed?_eq_none.2 fun hmem => ?_
      exact (List.nodup_append.1 h).2.2 _ hmem _ List.mem_cons_self rfl
    have hplace : placeNode q n = .ok (q.addNode n.node) := by
      rw [placeNode, hfresh]
    rw [List.foldlM_cons, hplace, List.map_cons, List.foldl_cons]
    refine ih (hq.addNode hfresh) ?_
    rw [Procedure.addNode, List.map_append, List.append_assoc]
    exact h

/-! ### Edges and loops -/

/-- The names of the outlined nodes lead to their positions. -/
def Knows (p : Outline.Procedure) (q : Procedure) : Prop :=
  ∀ i, q.nodeNamed? (p.nameOf i).text = some i.val

variable {p : Outline.Procedure} {q : Procedure} {d : Draft}

/-- A procedure that knows the nodes finds them by their names. -/
lemma find_of_knows (h : Knows p q) (line : Nat) (i : Fin p.nodes.length) :
    find q line (p.nameOf i).text = .ok i.val := by
  rw [find, h i]

/-- An edge between known nodes is placed between their positions. -/
lemma placeEdge_of_knows (h : Knows p q) {draft : DraftEdge} {e : Outline.Edge p.nodes.length}
    (hends : draft.ends = p.endNames e) : placeEdge q draft = .ok (q.addEdge e.built) := by
  obtain ⟨source, target, line⟩ := draft
  obtain ⟨source', target'⟩ := e
  obtain ⟨rfl, rfl⟩ := Prod.mk.inj hends
  have htarget := find_of_knows h line target'
  cases source' with
  | none =>
    rw [placeEdge]
    simp only [Option.map_none, Option.mapM_none, htarget]
    rfl
  | some i =>
    rw [placeEdge]
    simp only [Option.map_some, Option.mapM_some, find_of_knows h line i, htarget]
    rfl

/-- A loop of known nodes is placed at their positions. -/
lemma placeLoop_of_knows (h : Knows p q) {draft : DraftLoop} {l : Outline.Loop p.nodes.length}
    (hnodes : draft.nodes = p.loopNames l) :
    placeLoop q draft = .ok (q.addLoop l.header (l.body.map Fin.val)) := by
  obtain ⟨header, body, line⟩ := draft
  obtain ⟨rfl, rfl⟩ := Prod.mk.inj hnodes
  have hbody : (l.body.map fun i => (p.nameOf i).text).mapM (find q line) =
      .ok (l.body.map Fin.val) := by
    rw [List.mapM_map]
    exact mapM_of_forall fun i _ => find_of_knows h line i
  rw [placeLoop]
  simp only [find_of_knows h line l.header, hbody]
  rfl

/-- The nodes of a sketch are placed without a fault. -/
lemma foldlM_placeNode_of_sketch (h : d.sketch = p.sketch) :
    d.nodes.foldlM placeNode { name := d.name } = .ok p.withNodes ∧ p.withNodes.WellFormed := by
  have hname : d.name = p.name.text := congrArg Sketch.name h
  have hnodes : d.nodes.map DraftNode.node = p.nodes.map Outline.Node.built :=
    congrArg Sketch.nodes h
  have hdistinct : ((d.nodes.map DraftNode.node).map Node.name).Nodup := by
    rw [hnodes, List.map_map]
    exact p.distinct
  have hplaced := foldlM_placeNode (.start d.name) hdistinct
  rw [hnodes, List.foldl_map, hname] at hplaced
  rw [hname]
  exact hplaced

/-- All nodes are there before the first name is looked up. -/
lemma knows_withNodes (h : p.withNodes.WellFormed) : Knows p p.withNodes := by
  intro i
  refine h.named i p.nodes[i].built ?_
  rw [Outline.Procedure.withNodes, ← List.foldl_map, Procedure.nodes_foldl_addNode]
  simp

/-- A draft of an outlined procedure ends as that procedure. -/
lemma finish_of_sketch (h : d.sketch = p.sketch) : d.finish = .ok p.built := by
  have hedges : d.edges.map DraftEdge.ends = p.edges.map p.endNames := congrArg Sketch.edges h
  have hloops : d.loops.map DraftLoop.nodes = p.loops.map p.loopNames := congrArg Sketch.loops h
  obtain ⟨hplaced, hformed⟩ := foldlM_placeNode_of_sketch h
  obtain ⟨hedged, hknows⟩ := foldlM_of_forall₂ (forall₂_of_map_eq hedges) (knows_withNodes hformed)
    fun q draft e hq hends => ⟨placeEdge_of_knows hq hends, hq⟩
  obtain ⟨hlooped, -⟩ := foldlM_of_forall₂ (forall₂_of_map_eq hloops) hknows
    fun q draft l hq hnodes => ⟨placeLoop_of_knows hq hnodes, hq⟩
  rw [finish, hplaced]
  change (d.edges.foldlM placeEdge p.withNodes >>= fun q => d.loops.foldlM placeLoop q) = _
  rw [hedged]
  exact hlooped

end Draft

end CacheVerdict
