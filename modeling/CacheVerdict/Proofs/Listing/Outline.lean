import Mathlib.Data.List.Basic
import Mathlib.Data.List.Nodup
import Mathlib.Data.List.Infix
import CacheVerdict.Instruction.Decode
import CacheVerdict.Program.Basic
import CacheVerdict.Proofs.Text.Blank
import CacheVerdict.Proofs.Text.Numeral

/-!
# Outlines of listings

An outline says what a listing lists: segments, and procedures with their nodes, edges and loops.
It stands for a program (`Outline.program`), built by adding one part after another. There are many
ways to write it down (`Outline.Written`): parts of different kinds may come in any order, lines may
be indented, blank or commented, words may be apart by any blanks, and addresses may have a mark or
leading zeros. One of them is `Outline.render`.
-/

namespace CacheVerdict

open Text

/-- Without the mark of a comment. -/
def Uncommented (s : List Char) : Prop :=
  ¬ ['/', '/'] <:+: s

/-- Without blanks and without the mark of a comment, and not empty. -/
structure IsWord (w : List Char) : Prop extends Solid w where
  uncommented : Uncommented w

instance (s : List Char) : Decidable (Uncommented s) :=
  inferInstanceAs (Decidable (¬ _))

instance (w : List Char) : Decidable (IsWord w) :=
  decidable_of_iff (Solid w ∧ Uncommented w)
    ⟨fun h => ⟨h.1, h.2⟩, fun h => ⟨h.toSolid, h.uncommented⟩⟩

/-- A word that a listing may hold. -/
structure Word where
  text : String
  isWord : IsWord text.toList

/-- The characters of a word. -/
def Word.chars (w : Word) : List Char :=
  w.text.toList

namespace Outline

/-! ### What is listed -/

/-- The kinds of data that segments hold. -/
inductive Region where
  | bss
  | data
deriving DecidableEq

/-- The word for a kind of data. -/
def Region.word : Region → String
  | .bss => "bss"
  | .data => "data"

/-- A data segment. -/
structure Segment where
  name : Word
  flags : Word
  lower : Address
  upper : Address

/-- An instruction: its address, and its text on one line. -/
structure Code where
  address : Address
  text : String
  trimmed : trim text.toList = text.toList
  uncommented : Uncommented text.toList
  oneLine : '\n' ∉ text.toList

/-- What a node stands for. -/
inductive Body where
  | straight (code : List Code)
  | loopHead (code : List Code)
  | call (callee : Word)

/-- A named node. -/
structure Node where
  name : Word
  body : Body

/-- An edge among so many nodes; without a source it enters the procedure. -/
structure Edge (count : Nat) where
  source : Option (Fin count)
  target : Fin count

/-- A loop among so many nodes. -/
structure Loop (count : Nat) where
  header : Fin count
  body : List (Fin count)

/-- A procedure, its nodes of different names. An edge cannot come from a node named `-`. -/
structure Procedure where
  name : Word
  nodes : List Node
  edges : List (Edge nodes.length)
  loops : List (Loop nodes.length)
  distinct : (nodes.map fun n => n.name.text).Nodup
  sources : ∀ e ∈ edges, ∀ i, e.source = some i → nodes[i].name.text ≠ "-"

end Outline

/-- Segments, and one or more procedures of different names. -/
structure Outline where
  segments : Outline.Region → List Outline.Segment
  procedures : List Outline.Procedure
  nonempty : procedures ≠ []
  distinct : (procedures.map fun p => p.name.text).Nodup

namespace Outline

/-! ### The program of an outline -/

/-- The segment that is described. -/
def Segment.built (s : Segment) : CacheVerdict.Segment :=
  ⟨s.name.text, s.flags.text, s.lower, s.upper⟩

/-- The instruction that the text is decoded to. -/
def Code.decoded (c : Code) : Instruction :=
  .decode c.address c.text

/-- What the node stands for. -/
def Body.built : Body → NodeBody
  | .straight code => .straight (code.map Code.decoded)
  | .loopHead code => .loopHead (code.map Code.decoded)
  | .call callee => .call callee.text

/-- The node that is described. -/
def Node.built (n : Node) : CacheVerdict.Node :=
  ⟨n.name.text, n.body.built⟩

/-- The edge between the positions of its nodes. -/
def Edge.built {count : Nat} (e : Edge count) : CacheVerdict.Edge :=
  ⟨e.source.map Fin.val, e.target⟩

/-- The procedure with all nodes added in their order. -/
def Procedure.withNodes (p : Procedure) : CacheVerdict.Procedure :=
  p.nodes.foldl (fun q n => q.addNode n.built) { name := p.name.text }

/-- The procedure with all nodes, edges and loops added in their order. -/
def Procedure.built (p : Procedure) : CacheVerdict.Procedure :=
  let withEdges := p.edges.foldl (fun q e => q.addEdge e.built) p.withNodes
  p.loops.foldl (fun q l => q.addLoop l.header (l.body.map Fin.val)) withEdges

/-- The program that is listed. -/
def program (o : Outline) : Program where
  segments :=
    { bss := (o.segments .bss).map Segment.built
      data := (o.segments .data).map Segment.built }
  procedures := o.procedures.map Procedure.built

/-! ### Statements -/

/-- What one line of a listing says. The line of a node does not hold its code. -/
inductive Statement where
  | segment (region : Region) (s : Segment)
  | procedure (name : Word)
  | node (n : Node)
  | code (c : Code)
  | edge (source : Option Word) (target : Word)
  | loop (header : Word) (body : List Word)
  | finish

/-- The name of a node. -/
def Procedure.nameOf (p : Procedure) (i : Fin p.nodes.length) : Word :=
  p.nodes[i].name

/-- The code of a node, in program order. -/
def Body.code : Body → List Code
  | .straight code => code
  | .loopHead code => code
  | .call _ => []

/-- A node is followed by its code. -/
def Node.statements (n : Node) : List Statement :=
  .node n :: n.body.code.flatMap fun c => [.code c]

/-- A part of a procedure with so many nodes. -/
inductive Entry (count : Nat) where
  | node (n : Node)
  | edge (e : Edge count)
  | loop (l : Loop count)

namespace Entry

variable {count : Nat}

/-- The entry, if it is a node. -/
def node? : Entry count → Option Node
  | .node n => some n
  | _ => none

/-- The entry, if it is an edge. -/
def edge? : Entry count → Option (Edge count)
  | .edge e => some e
  | _ => none

/-- The entry, if it is a loop. -/
def loop? : Entry count → Option (Loop count)
  | .loop l => some l
  | _ => none

end Entry

/-- Edges and loops refer to nodes by their names. -/
def Procedure.statements (p : Procedure) : Entry p.nodes.length → List Statement
  | .node n => n.statements
  | .edge e => [.edge (e.source.map p.nameOf) (p.nameOf e.target)]
  | .loop l => [.loop (p.nameOf l.header) (l.body.map p.nameOf)]

/-- The parts of a procedure, with those of each kind in their order. -/
structure Procedure.Arranged (p : Procedure) (entries : List (Entry p.nodes.length)) : Prop where
  nodes : entries.filterMap Entry.node? = p.nodes
  edges : entries.filterMap Entry.edge? = p.edges
  loops : entries.filterMap Entry.loop? = p.loops

/-- A part of a listing. -/
inductive Part where
  | segment (region : Region) (s : Segment)
  | procedure (p : Procedure) (entries : List (Entry p.nodes.length)) (h : p.Arranged entries)

namespace Part

/-- The part, if it is a segment of the region. -/
def segment? (region : Region) : Part → Option Segment
  | .segment region' s => if region' = region then some s else none
  | .procedure .. => none

/-- The part, if it is a procedure. -/
def procedure? : Part → Option Procedure
  | .procedure p _ _ => some p
  | .segment .. => none

/-- The statements of a part, in order. -/
def statements : Part → List Statement
  | .segment region s => [.segment region s]
  | .procedure p entries _ =>
    .procedure p.name :: (entries.flatMap p.statements ++ [.finish])

end Part

/-- The parts of a listing, with those of each kind in their order. -/
structure Arranged (o : Outline) (parts : List Part) : Prop where
  segments : ∀ region, parts.filterMap (Part.segment? region) = o.segments region
  procedures : parts.filterMap Part.procedure? = o.procedures

/-! ### Written forms -/

/-- The words of a statement that is no code. -/
inductive Directive : Statement → List (List Char) → Prop where
  | segment {region : Region} {s : Segment} {lower upper : List Char} :
    Numeral.SpellsHex s.lower.toNat lower → Numeral.SpellsHex s.upper.toNat upper →
    Directive (.segment region s)
      ["SEGMENT".toList, region.word.toList, s.name.chars, s.flags.chars, lower, upper]
  | procedure {name : Word} : Directive (.procedure name) ["PROCEDURE".toList, name.chars]
  | straight {name : Word} {code : List Code} :
    Directive (.node ⟨name, .straight code⟩) ["NODE".toList, name.chars, "STRAIGHT".toList]
  | loopHead {name : Word} {code : List Code} :
    Directive (.node ⟨name, .loopHead code⟩) ["NODE".toList, name.chars, "LOOP".toList]
  | call {name callee : Word} :
    Directive (.node ⟨name, .call callee⟩)
      ["NODE".toList, name.chars, "VIRTUAL".toList, callee.chars]
  | edge {source target : Word} :
    Directive (.edge (some source) target) ["EDGE".toList, source.chars, target.chars]
  | entry {target : Word} : Directive (.edge none target) ["EDGE".toList, "-".toList, target.chars]
  | loop {header : Word} {body : List Word} :
    Directive (.loop header body) ("LOOP".toList :: header.chars :: body.map Word.chars)
  | finish : Directive .finish ["END".toList]

/-- The text of a statement. -/
inductive Shown : Statement → List Char → Prop where
  | directive {s : Statement} {ws : List (List Char)} {t : List Char} :
    Directive s ws → Spaced ws t → Shown s t
  | code {c : Code} {digits gap : List Char} :
    Numeral.SpellsHex c.address.toNat digits → Blanks gap →
    Shown (.code c) (digits ++ ':' :: (gap ++ c.text.toList))

/-- A line with a text. A comment is at least one blank away from it. -/
inductive Framed (t : List Char) : List Char → Prop where
  | bare {before after : List Char} :
    Blanks before → Blanks after → Framed t (before ++ t ++ after)
  | commented {before after comment : List Char} :
    Blanks before → Blanks after → after ≠ [] →
    Framed t (before ++ t ++ after ++ '/' :: '/' :: comment)

/-- A line without a text. -/
inductive Idle : List Char → Prop where
  | bare {blanks : List Char} : Blanks blanks → Idle blanks
  | commented {blanks comment : List Char} :
    Blanks blanks → Idle (blanks ++ '/' :: '/' :: comment)

/-- Lines that make these statements, one on a line. Lines without a text may come anywhere. -/
inductive Lines : List Statement → List (List Char) → Prop where
  | nil : Lines [] []
  | idle {ss : List Statement} {raw : List Char} {raws : List (List Char)} :
    Idle raw → Lines ss raws → Lines ss (raw :: raws)
  | line {s : Statement} {ss : List Statement} {t raw : List Char} {raws : List (List Char)} :
    Shown s t → Framed t raw → Lines ss raws → Lines (s :: ss) (raw :: raws)

/-- A text that lists what the outline says. -/
def Written (o : Outline) (text : String) : Prop :=
  ∃ parts raws, o.Arranged parts ∧ Lines (parts.flatMap Part.statements) raws ∧
    (∀ raw ∈ raws, '\n' ∉ raw) ∧ text.toList = List.intercalate ['\n'] raws

/-! ### Words of statements -/

/-- A text without slashes starts no comment. -/
lemma uncommented_of_not_mem {s : List Char} (h : '/' ∉ s) : Uncommented s :=
  fun hmark => h (hmark.subset List.mem_cons_self)

/-- A number in hexadecimal is a word. -/
lemma isWord_hex {n : Nat} {s : List Char} (h : Numeral.SpellsHex n s) : IsWord s := by
  have hsolid : Solid ('x' :: 'X' :: Numeral.hexAlphabet) := by decide
  have hmark : '/' ∉ 'x' :: 'X' :: Numeral.hexAlphabet := by decide
  refine ⟨⟨h.ne_nil, fun c hc => hsolid.solid c (h.mem c hc)⟩, uncommented_of_not_mem fun hmem => ?_⟩
  exact hmark (h.mem '/' hmem)

/-- A directive consists of words. -/
lemma Directive.isWord {s : Statement} {ws : List (List Char)} (h : Directive s ws) :
    ∀ w ∈ ws, IsWord w := by
  have hword (w : Word) : IsWord w.chars := w.isWord
  cases h with
  | @segment region _ _ _ hlower hupper =>
    simp only [List.forall_mem_cons, hword, isWord_hex hlower, isWord_hex hupper, true_and]
    cases region <;> decide
  | loop =>
    simp only [List.forall_mem_cons, List.forall_mem_map, hword, implies_true, and_true]
    decide
  | _ =>
    simp only [List.forall_mem_cons, hword, true_and]
    decide

/-- A directive has a first word. -/
lemma Directive.ne_nil {s : Statement} {ws : List (List Char)} (h : Directive s ws) : ws ≠ [] := by
  cases h <;> exact List.cons_ne_nil _ _

/-! ### A plain written form -/

/-- An address behind its mark. -/
def bound (a : Address) : List Char :=
  '0' :: 'x' :: Numeral.hexDigits a.toNat

/-- The words of a statement; code has none. -/
def Statement.words : Statement → List (List Char)
  | .segment region s =>
    ["SEGMENT".toList, region.word.toList, s.name.chars, s.flags.chars, bound s.lower,
      bound s.upper]
  | .procedure name => ["PROCEDURE".toList, name.chars]
  | .node ⟨name, .straight _⟩ => ["NODE".toList, name.chars, "STRAIGHT".toList]
  | .node ⟨name, .loopHead _⟩ => ["NODE".toList, name.chars, "LOOP".toList]
  | .node ⟨name, .call callee⟩ => ["NODE".toList, name.chars, "VIRTUAL".toList, callee.chars]
  | .code _ => []
  | .edge (some source) target => ["EDGE".toList, source.chars, target.chars]
  | .edge none target => ["EDGE".toList, "-".toList, target.chars]
  | .loop header body => "LOOP".toList :: header.chars :: body.map Word.chars
  | .finish => ["END".toList]

/-- A statement on a line of its own. -/
def Statement.render : Statement → List Char
  | .code c => Numeral.hexDigits c.address.toNat ++ ':' :: ([' '] ++ c.text.toList)
  | s => List.intercalate [' '] s.words

/-- First the nodes, then the edges, then the loops. -/
def Procedure.entries (p : Procedure) : List (Entry p.nodes.length) :=
  p.nodes.map .node ++ p.edges.map .edge ++ p.loops.map .loop

/-- The entries of a procedure are arranged as they are listed. -/
lemma Procedure.arranged_entries (p : Procedure) : p.Arranged p.entries := by
  constructor <;>
    simp [entries, List.filterMap_append, List.filterMap_map, Function.comp_def, Entry.node?,
      Entry.edge?, Entry.loop?]

/-- First the segments, then the procedures. -/
def parts (o : Outline) : List Part :=
  (o.segments .bss).map (.segment .bss) ++ (o.segments .data).map (.segment .data) ++
    o.procedures.map fun p => .procedure p p.entries p.arranged_entries

/-- The parts of an outline are arranged as they are listed. -/
lemma arranged_parts (o : Outline) : o.Arranged o.parts where
  segments region := by
    cases region <;>
      simp [parts, List.filterMap_append, List.filterMap_map, Function.comp_def, Part.segment?]
  procedures := by
    simp [parts, List.filterMap_append, List.filterMap_map, Function.comp_def, Part.procedure?]

/-- The listing without comments, each statement on a line and one blank between words. -/
def render (o : Outline) : String :=
  String.ofList (List.intercalate ['\n'] ((o.parts.flatMap Part.statements).map Statement.render))

/-- Bounds are written in hexadecimal. -/
lemma spellsHex_bound (a : Address) : Numeral.SpellsHex a.toNat (bound a) :=
  .marked (Numeral.spells_hexDigits a.toNat)

/-- A statement is code, or it is rendered word by word. -/
lemma Statement.render_forms (s : Statement) :
    (∃ c, s = .code c) ∨ Directive s s.words ∧ s.render = List.intercalate [' '] s.words := by
  cases s with
  | segment region s =>
    exact .inr ⟨.segment (spellsHex_bound s.lower) (spellsHex_bound s.upper), rfl⟩
  | procedure => exact .inr ⟨.procedure, rfl⟩
  | node n =>
    obtain ⟨name, body⟩ := n
    cases body with
    | straight => exact .inr ⟨.straight, rfl⟩
    | loopHead => exact .inr ⟨.loopHead, rfl⟩
    | call => exact .inr ⟨.call, rfl⟩
  | code c => exact .inl ⟨c, rfl⟩
  | edge source =>
    cases source with
    | none => exact .inr ⟨.entry, rfl⟩
    | some => exact .inr ⟨.edge, rfl⟩
  | loop => exact .inr ⟨.loop, rfl⟩
  | finish => exact .inr ⟨.finish, rfl⟩

/-- A rendered statement is one that may be shown. -/
lemma Statement.shown_render (s : Statement) : Shown s s.render := by
  rcases s.render_forms with ⟨c, rfl⟩ | ⟨hwords, hrender⟩
  · exact .code (.plain (Numeral.spells_hexDigits _)) (List.forall_mem_singleton.2 rfl)
  · rw [hrender]
    exact .directive hwords (spaced_intercalate hwords.ne_nil)

/-- A rendered statement takes one line. -/
lemma Statement.newline_not_mem_render (s : Statement) : '\n' ∉ s.render := by
  have hsolid {w : List Char} (hw : IsWord w) : '\n' ∉ w := by
    intro hmem
    cases hw.solid '\n' hmem
  rcases s.render_forms with ⟨c, rfl⟩ | ⟨hwords, hrender⟩
  · have hdigits := hsolid (isWord_hex (.plain (Numeral.spells_hexDigits c.address.toNat)))
    simp [Statement.render, hdigits, c.oneLine]
  · rw [hrender]
    exact not_mem_intercalate (by decide) fun w hw => hsolid (hwords.isWord w hw)

/-- Rendered statements are the lines of a text. -/
lemma lines_render (ss : List Statement) : Lines ss (ss.map Statement.render) := by
  induction ss with
  | nil => exact .nil
  | cons s ss ih =>
    have hframed : Framed s.render ([] ++ s.render ++ []) :=
      .bare (List.forall_mem_nil _) (List.forall_mem_nil _)
    rw [List.nil_append, List.append_nil] at hframed
    exact .line s.shown_render hframed ih

/-- Every outline can be written down. -/
lemma written_render (o : Outline) : o.Written o.render := by
  refine ⟨o.parts, _, o.arranged_parts, lines_render _, fun raw hraw => ?_, String.toList_ofList⟩
  obtain ⟨s, -, rfl⟩ := List.mem_map.1 hraw
  exact s.newline_not_mem_render

end Outline

end CacheVerdict
