import CacheVerdict.Listing.Reader
import CacheVerdict.Proofs.Listing.WellFormed
import CacheVerdict.Proofs.Text.Blank

/-!
# Reading with every step checked

A listing is read by steps that are not made for everything they could be given: a line that is not
blank has a first word, a call takes no code, an edge joins nodes of the procedure, and the walk from
a loop to those around it comes to an end. Here the reader is written down once more with these
conditions checked, so that it comes to nothing where one of them fails. Both readers are the same
(`Program.ofListingChecked_eq`): no condition ever fails.
-/

namespace CacheVerdict

/-- What comes of reading with checks: nothing, where a check fails. -/
abbrev Checked : Type → Type :=
  ExceptT ListingFault Option

/-- A step that fails no check on what comes before it. -/
lemma bind_liftM {α β : Type} {x : Except ListingFault α} {f : α → Except ListingFault β}
    {g : α → Checked β} (h : ∀ a, x = .ok a → g a = liftM (f a)) :
    ((liftM x : Checked α) >>= g) = liftM (x >>= f) := by
  cases x with
  | error => rfl
  | ok a => exact h a rfl

/-- Steps that never fail a check do not do so one after another. -/
lemma foldlM_liftM {α β : Type} (step : β → α → Except ListingFault β) (l : List α) (b : β) :
    l.foldlM (fun b a => (liftM (step b a) : Checked β)) b = liftM (l.foldlM step b) := by
  induction l generalizing b with
  | nil => rfl
  | cons a l ih => simp only [List.foldlM_cons, liftM_bind, ih]

/-! ### Procedures -/

namespace Procedure

/-- Adds a node; a call carries no code. -/
def addNode? (p : Procedure) (n : Node) : Option Procedure :=
  if n.isCall && !n.code.isEmpty then none else some (p.addNode n)

/-- Adds a loop and looks for the loops around each one: these are loops of the procedure, and
there are fewer of them. -/
def addLoop? (p : Procedure) (header : Nat) (body : List Nat) : Option Procedure :=
  let loops := (p.addLoop header body).loops
  let ends (l : Nat) : Bool :=
    let around := LoopNest.ancestorsWithin (LoopNest.parentsOf loops) loops.length l
    around.all (· < loops.length) && around.length < loops.length
  if (List.range loops.length).all ends then some (p.addLoop header body) else none

/-- The check of a node never fails, because a call has no code. -/
lemma addNode?_eq (p : Procedure) (n : Node) : p.addNode? n = some (p.addNode n) := by
  refine if_neg fun h => ?_
  obtain ⟨hcall, hcode⟩ := Bool.and_eq_true_iff.1 h
  rw [Node.code_of_isCall hcall] at hcode
  cases hcode

/-- The check of a loop never fails, because the nest is finite. -/
lemma addLoop?_eq (p : Procedure) (header : Nat) (body : List Nat) :
    p.addLoop? header body = some (p.addLoop header body) := by
  refine if_pos (List.all_eq_true.2 fun l hl => Bool.and_eq_true_iff.2 ⟨?_, decide_eq_true ?_⟩)
  · refine List.all_eq_true.2 fun o ho => decide_eq_true ?_
    exact LoopNest.lt_of_mem_ancestorsWithin (List.mem_range.1 hl) ho
  · exact LoopNest.length_ancestorsWithin_lt (List.mem_range.1 hl)

end Procedure

/-- Nodes that are no calls take instructions. -/
lemma NodeBody.exists_push? {body : NodeBody} (h : body.callee? = none) (i : Instruction) :
    ∃ body', body.push? i = some body' := by
  cases body with
  | straight | loopHead => exact ⟨_, rfl⟩
  | call => cases h

/-! ### Drafts -/

namespace Draft

variable {p : Procedure}

/-- Places a node, and checks that a call carries no code. -/
def placeNodeChecked (p : Procedure) (n : DraftNode) : Checked Procedure :=
  match p.nodeNamed? n.node.name with
  | some _ => throw (.malformed n.line (.duplicateNode n.node.name))
  | none => liftM (p.addNode? n.node)

/-- Places an edge, and checks that it joins nodes of the procedure. -/
def placeEdgeChecked (p : Procedure) (e : DraftEdge) : Checked Procedure := do
  let source ← (e.source.mapM (find p e.line) : Except ListingFault (Option Nat))
  let target ← find p e.line e.target
  liftM (p.addEdge? ⟨source, target⟩)

/-- Places a loop, and checks that the walks to the loops around end. -/
def placeLoopChecked (p : Procedure) (l : DraftLoop) : Checked Procedure := do
  let header ← find p l.line l.header
  let body ← (l.body.mapM (find p l.line) : Except ListingFault (List Nat))
  liftM (p.addLoop? header body)

/-- Ends a draft with every step checked. -/
def finishChecked (d : Draft) : Checked Procedure := do
  let p ← d.nodes.foldlM placeNodeChecked { name := d.name }
  let p ← d.edges.foldlM placeEdgeChecked p
  d.loops.foldlM placeLoopChecked p

/-- A name is found at a node of the procedure. -/
lemma find_lt {line i : Nat} {name : String} (h : find p line name = .ok i) :
    i < p.nodes.length := by
  unfold find at h
  split at h
  · rename_i hname
    cases h
    exact Procedure.nodeNamed?_lt hname
  · cases h

/-- The check of a node never fails where the draft is placed. -/
lemma placeNodeChecked_eq (p : Procedure) (n : DraftNode) :
    placeNodeChecked p n = liftM (placeNode p n) := by
  unfold placeNodeChecked placeNode
  cases p.nodeNamed? n.node.name with
  | some => rfl
  | none =>
    rw [Procedure.addNode?_eq]
    rfl

/-- The ends of an edge are looked up, so they are nodes. -/
lemma placeEdgeChecked_eq (p : Procedure) (e : DraftEdge) :
    placeEdgeChecked p e = liftM (placeEdge p e) := by
  refine bind_liftM fun source hsource => bind_liftM fun target htarget => ?_
  have hends : p.hasEnds ⟨source, target⟩ = true := by
    refine Bool.and_eq_true_iff.2 ⟨decide_eq_true (find_lt htarget), ?_⟩
    cases hname : e.source with
    | none =>
      rw [hname] at hsource
      cases hsource
      rfl
    | some name =>
      rw [hname, Option.mapM_some] at hsource
      cases hi : find p e.line name with
      | error =>
        rw [hi] at hsource
        cases hsource
      | ok i =>
        rw [hi] at hsource
        cases hsource
        exact decide_eq_true (find_lt hi)
  rw [Procedure.addEdge?, if_pos hends]
  rfl

/-- The check of a loop never fails where the draft is placed. -/
lemma placeLoopChecked_eq (p : Procedure) (l : DraftLoop) :
    placeLoopChecked p l = liftM (placeLoop p l) := by
  unfold placeLoopChecked placeLoop
  simp only [Procedure.addLoop?_eq, liftM_bind, liftM_pure]
  rfl

/-- No check fails at the end of a draft. -/
lemma finishChecked_eq (d : Draft) : d.finishChecked = liftM d.finish := by
  have hnodes : placeNodeChecked = fun p n => liftM (placeNode p n) :=
    funext fun p => funext fun n => placeNodeChecked_eq p n
  have hedges : placeEdgeChecked = fun p e => liftM (placeEdge p e) :=
    funext fun p => funext fun e => placeEdgeChecked_eq p e
  have hloops : placeLoopChecked = fun p l => liftM (placeLoop p l) :=
    funext fun p => funext fun l => placeLoopChecked_eq p l
  unfold finishChecked finish
  simp only [hnodes, hedges, hloops, foldlM_liftM, liftM_bind]

end Draft

/-! ### Lines -/

namespace Listing

/-- Reads an instruction, and checks that the last node takes it. -/
def readCodeChecked (line : Nat) (d : Draft) (s : List Char) : Checked Draft :=
  match d.nodes.getLast? with
  | none => throw (.malformed line .outsideNode)
  | some last =>
    if last.node.isCall then throw (.malformed line (.codeInCall last.node.name))
    else do
      let i ← readInstruction line s
      let body ← last.node.body.push? i
      let node : Node := { last.node with body }
      return { d with nodes := d.nodes.dropLast ++ [{ last with node }] }

/-- Reads a line of a procedure with every step checked. -/
def readInsideChecked (line : Nat) (l : Listing) (d : Draft) (s : List Char) (word : String)
    (args : List String) : Checked Listing :=
  let withDraft (d : Checked Draft) : Checked Listing :=
    (fun d => { l with draft := some d }) <$> d
  match word with
  | "NODE" => withDraft (liftM (readNode line d args))
  | "EDGE" => withDraft (liftM (readEdge line d args))
  | "LOOP" => withDraft (liftM (readLoop line d args))
  | "END" =>
    (fun p => { l with procedures := l.procedures ++ [p], draft := none }) <$> d.finishChecked
  | "SEGMENT" | "PROCEDURE" => throw (.malformed line (.insideProcedure word d.name))
  | _ => withDraft (readCodeChecked line d s)

/-- A line that is not blank has to have a first word. -/
def readLineChecked (l : Listing) (line : Nat) (raw : List Char) : Checked Listing :=
  let s := Text.trim (dropComment raw)
  if s.isEmpty then pure l
  else
    match (Text.words s).map String.ofList with
    | [] => liftM (none : Option Listing)
    | word :: args =>
      match l.draft with
      | none => liftM (readOutside line l word args)
      | some d => readInsideChecked line l d s word args

/-- Reads lines with every step checked. -/
def readLinesChecked (l : Listing) (first : Nat) : List (List Char) → Checked Listing
  | [] => pure l
  | raw :: rest => l.readLineChecked first raw >>= fun l => l.readLinesChecked (first + 1) rest

/-- Code is added to nodes that take it. -/
lemma readCodeChecked_eq (line : Nat) (d : Draft) (s : List Char) :
    readCodeChecked line d s = liftM (readCode line d s) := by
  unfold readCodeChecked readCode
  cases d.nodes.getLast? with
  | none => rfl
  | some last =>
    simp only
    split
    · rfl
    · rename_i hcall
      refine bind_liftM fun i _ => ?_
      have hcallee : last.node.body.callee? = none := by
        simpa [Node.isCall, Node.callee?] using hcall
      obtain ⟨body, hbody⟩ := NodeBody.exists_push? hcallee i
      rw [hbody]
      rfl

/-- No check fails on a line of a procedure. -/
lemma readInsideChecked_eq (line : Nat) (l : Listing) (d : Draft) (s : List Char) (word : String)
    (args : List String) :
    readInsideChecked line l d s word args = liftM (readInside line l d s word args) := by
  have hmap {α β : Type} (f : α → β) (x : Except ListingFault α) :
      f <$> (liftM x : Checked α) = liftM (x.map f) := (liftM_map f x).symm
  unfold readInsideChecked readInside
  simp only [readCodeChecked_eq, Draft.finishChecked_eq, hmap]
  split
  -- a word that is no directive begins a line of code
  case h_7 => simp only [*]
  all_goals rfl

/-- No check fails on a line. -/
lemma readLineChecked_eq (l : Listing) (line : Nat) (raw : List Char) :
    l.readLineChecked line raw = liftM (l.readLine line raw) := by
  unfold readLineChecked readLine
  simp only
  split
  · rename_i hblank
    rw [List.isEmpty_iff.1 hblank]
    rfl
  · rename_i hblank
    have hwords : Text.words (Text.trim (dropComment raw)) ≠ [] :=
      Text.words_trim_ne_nil fun hnil => hblank (List.isEmpty_iff.2 hnil)
    cases hsplit : Text.words (Text.trim (dropComment raw)) with
    | nil => exact absurd hsplit hwords
    | cons word args =>
      cases l.draft with
      | none => rfl
      | some d => exact readInsideChecked_eq ..

/-- No check fails on any of the lines. -/
lemma readLinesChecked_eq (l : Listing) (first : Nat) (lines : List (List Char)) :
    l.readLinesChecked first lines = liftM (l.readLines first lines) := by
  induction lines generalizing l first with
  | nil => rfl
  | cons raw rest ih =>
    unfold readLinesChecked readLines
    rw [readLineChecked_eq]
    exact bind_liftM fun l' _ => ih l' (first + 1)

end Listing

/-- Reads a whole listing with every step checked. -/
def Program.ofListingChecked (text : String) : Checked Program :=
  let lines := Text.lines text.toList
  ({} : Listing).readLinesChecked 1 lines >>= fun l => liftM (l.finish lines.length)

/-- No check ever fails. -/
theorem Program.ofListingChecked_eq (text : String) :
    (ofListingChecked text).run = some (ofListing text) := by
  unfold ofListingChecked ofListing
  simp only [Listing.readLinesChecked_eq]
  rw [bind_liftM fun _ _ => rfl]
  rfl

end CacheVerdict
