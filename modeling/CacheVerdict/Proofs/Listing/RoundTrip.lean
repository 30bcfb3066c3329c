import CacheVerdict.Proofs.Listing.Lines
import CacheVerdict.Proofs.Listing.Sketch

/-!
# Reading back what was written

Each statement is read as what it says: inside a procedure it goes into the draft at hand
(`Drafting`), outside it goes into the listing. So whatever is read of the parts of an outline is
the outline's program, however it is written down (`Outline.ofListing_written`).
-/

namespace CacheVerdict

open Text Listing

/-! ### Addresses and instructions -/

/-- What spells an address is read as the address. -/
lemma Listing.readHex_of_spells {a : Address} {s : List Char}
    (h : Numeral.SpellsHex a.toNat s) (line : Nat) : readHex line s = .ok a := by
  cases h with
  | marked h | markedUpper h =>
    rw [readHex]
    simp only [Numeral.read64_of_spells Nat.le.refl h]
    rfl
  | plain h =>
    have hmark (c : Char) (hc : c ∉ Numeral.hexAlphabet) (rest : List Char) :
        s ≠ '0' :: c :: rest := by
      rintro rfl
      exact hc (h.mem Nat.le.refl c (List.mem_cons_of_mem _ List.mem_cons_self))
    rw [readHex, Numeral.read64_of_spells Nat.le.refl h]
    · rfl
    · exact hmark 'x' (by decide)
    · exact hmark 'X' (by decide)

namespace Outline

/-- An instruction is read at its address and without the blanks before its text. -/
lemma Code.readInstruction (c : Code) {digits gap : List Char}
    (hdigits : Numeral.SpellsHex c.address.toNat digits) (hgap : Blanks gap) (line : Nat) :
    readInstruction line (trim (digits ++ ':' :: (gap ++ c.text.toList))) = .ok c.decoded := by
  have hsolid : Solid digits := (isWord_hex hdigits).toSolid
  have hcolon : ∀ d ∈ digits, (d == ':') = false := by
    have hnone : ':' ∉ 'x' :: 'X' :: Numeral.hexAlphabet := by decide
    intro d hd
    refine beq_false_of_ne fun hcolon => hnone ?_
    rw [← hcolon]
    exact hdigits.mem d hd
  have htrim : trim (digits ++ ':' :: (gap ++ c.text.toList)) =
      digits ++ ':' :: trimEnd (gap ++ c.text.toList) := by
    rw [trim, hsolid.trimStart_append, trimEnd_append_cons _ _ (by decide)]
  have htext : trim (trimEnd (gap ++ c.text.toList)) = c.text.toList := by
    have happend := trim_append hgap c.text.toList (List.forall_mem_nil _)
    rw [List.append_nil] at happend
    rw [trim_trimEnd, happend, c.trimmed]
  rw [Listing.readInstruction, htrim, cutAt_append hcolon (by decide)]
  simp only [hsolid.trim, readHex_of_spells hdigits, htext, String.ofList_toList]
  rfl

end Outline

/-- The word in front of an instruction is no directive. -/
lemma Listing.readInside_code {word : String} (h : ':' ∈ word.toList) (line : Nat) (l : Listing)
    (d : Draft) (s : List Char) (args : List String) : readInside line l d s word args =
      (readCode line d s).map fun d => { l with draft := some d } := by
  unfold readInside
  split
  case h_7 => rfl
  all_goals exact absurd h (by decide)

namespace Outline

variable {base : Listing} {sk : Sketch}

/-- The words of a directive are read back. -/
lemma Directive.words_map {s : Statement} {ws : List (List Char)} {t : List Char}
    (h : Directive s ws) (ht : Spaced ws t) :
    (words t).map String.ofList = ws.map String.ofList := by
  rw [words_spaced ht fun w hw => (h.isWord w hw).toSolid]

/-! ### Inside a procedure -/

/-- The procedure at hand, behind what was read before it. -/
def Drafting (base : Listing) (sk : Sketch) (l : Listing) : Prop :=
  ∃ d : Draft, d.sketch = sk ∧ l = { base with draft := some d }

/-- A directive is read by its words. -/
lemma leads_inside {s : Statement} {Q : Listing → Prop} (hcode : ∀ c, s ≠ .code c)
    (h : ∀ ws word args, Directive s ws → ws.map String.ofList = word :: args →
      ∀ line d text, d.sketch = sk → ∃ l, Q l ∧
        readInside line { base with draft := some d } d text word args = .ok l) :
    Leads (Drafting base sk) [s] Q := by
  refine .single fun t raw l line hshown hframed hl => ?_
  obtain ⟨d, hd, rfl⟩ := hl
  cases hshown with
  | code => exact absurd rfl (hcode _)
  | @directive s ws t hwords hspaced =>
    obtain ⟨w, ws, rfl⟩ := List.exists_cons_of_ne_nil hwords.ne_nil
    obtain ⟨l, hl, hread⟩ := h _ _ _ hwords rfl line d (trim t) hd
    refine ⟨l, ?_, hl⟩
    rw [hframed.readLine_inside (Shown.directive hwords hspaced).uncommented rfl line
      (hwords.words_map hspaced)]
    exact hread

/-- The node's body with so much of its code. -/
def Body.holding : Body → List Code → NodeBody
  | .straight _, code => .straight (code.map Code.decoded)
  | .loopHead _, code => .loopHead (code.map Code.decoded)
  | .call callee, _ => .call callee.text

/-- A node that holds all of its code is the one described. -/
lemma Body.holding_code (b : Body) : b.holding b.code = b.built := by
  cases b <;> rfl

/-- Code goes to the end of the code that is there. -/
lemma Body.push?_holding {b : Body} {done : List Code} {c : Code} (h : done ++ [c] <+: b.code) :
    (b.holding done).push? c.decoded = some (b.holding (done ++ [c])) := by
  cases b with
  | straight | loopHead => simp [holding, NodeBody.push?]
  | call => simp [code] at h

/-- A node leads to the draft with the node. -/
lemma leads_node (n : Node) : Leads (Drafting base sk) [.node n]
    (Drafting base { sk with nodes := sk.nodes ++ [⟨n.name.text, n.body.holding []⟩] }) := by
  refine leads_inside (fun _ => nofun) fun ws word args hwords hargs line d text hd => ?_
  subst hd
  refine ⟨_, ⟨{ d with nodes := d.nodes ++ [⟨⟨n.name.text, n.body.holding []⟩, line⟩] }, ?_, rfl⟩,
    ?_⟩
  · simp [Draft.sketch]
  · cases hwords <;> obtain ⟨rfl, rfl⟩ := List.cons.inj hargs <;>
      simp [readInside, readNode, Word.chars, Body.holding, Except.map]

/-- An edge leads to the draft with the edge. -/
lemma leads_edge {source : Option Word} (hsource : ∀ name, source = some name → name.text ≠ "-")
    (target : Word) : Leads (Drafting base sk) [.edge source target]
      (Drafting base { sk with edges := sk.edges ++ [(source.map Word.text, target.text)] }) := by
  refine leads_inside (fun _ => nofun) fun ws word args hwords hargs line d text hd => ?_
  subst hd
  refine ⟨_, ⟨{ d with edges := d.edges ++ [⟨source.map Word.text, target.text, line⟩] }, ?_, rfl⟩,
    ?_⟩
  · simp [Draft.sketch, DraftEdge.ends]
  · cases hwords with
    | entry =>
      obtain ⟨rfl, rfl⟩ := List.cons.inj hargs
      simp [readInside, readEdge, Word.chars, Except.map]
    | @edge source =>
      obtain ⟨rfl, rfl⟩ := List.cons.inj hargs
      simp [readInside, readEdge, Word.chars, Except.map, hsource source rfl]

/-- A loop leads to the draft with the loop. -/
lemma leads_loop (header : Word) (body : List Word) :
    Leads (Drafting base sk) [.loop header body] (Drafting base
      { sk with loops := sk.loops ++ [(header.text, body.map Word.text)] }) := by
  refine leads_inside (fun _ => nofun) fun ws word args hwords hargs line d text hd => ?_
  subst hd
  refine ⟨_, ⟨{ d with loops := d.loops ++ [⟨header.text, body.map Word.text, line⟩] }, ?_, rfl⟩,
    ?_⟩
  · simp [Draft.sketch, DraftLoop.nodes]
  · cases hwords
    obtain ⟨rfl, rfl⟩ := List.cons.inj hargs
    simp [readInside, readLoop, Word.chars, Except.map, Function.comp_def]

/-- Code goes into the last node of the draft. -/
lemma Code.readCode (c : Code) {digits gap : List Char}
    (hdigits : Numeral.SpellsHex c.address.toNat digits) (hgap : Blanks gap) {d : Draft}
    {front : List DraftNode} {last : DraftNode} {body : NodeBody} (hd : d.nodes = front ++ [last])
    (hbody : last.node.body.push? c.decoded = some body) (line : Nat) :
    readCode line d (trim (digits ++ ':' :: (gap ++ c.text.toList))) =
      .ok { d with nodes := front ++ [⟨⟨last.node.name, body⟩, last.line⟩] } := by
  have hcall : last.node.isCall = false := by
    unfold Node.isCall Node.callee?
    cases hlast : last.node.body with
    | straight | loopHead => rfl
    | call =>
      rw [hlast] at hbody
      cases hbody
  rw [Listing.readCode, hd, List.getLast?_concat]
  simp only [hcall, c.readInstruction hdigits hgap, List.dropLast_concat]
  simp [hbody, bind, Except.bind, pure, Except.pure]

/-- The first word of an instruction goes up to the colon at least. -/
lemma Code.exists_words {n : Nat} {digits : List Char} (hdigits : Numeral.SpellsHex n digits)
    (s : List Char) : ∃ word args, (words (digits ++ ':' :: s)).map String.ofList = word :: args ∧
      ':' ∈ word.toList := by
  have hsolid : Solid (digits ++ [':']) :=
    (isWord_hex hdigits).toSolid.append (List.forall_mem_singleton.2 (by decide))
  obtain ⟨rest, ws, hwords⟩ := hsolid.words_append s
  rw [List.append_assoc, List.singleton_append] at hwords
  exact ⟨_, _, by rw [hwords, List.map_cons], by simp⟩

/-- An instruction leads to the draft with the instruction in the last node. -/
lemma leads_code {nodes : List CacheVerdict.Node} {name : String} {body body' : NodeBody} {c : Code}
    (hbody : body.push? c.decoded = some body') :
    Leads (Drafting base { sk with nodes := nodes ++ [⟨name, body⟩] }) [.code c]
      (Drafting base { sk with nodes := nodes ++ [⟨name, body'⟩] }) := by
  refine .single fun t raw l line hshown hframed hl => ?_
  obtain ⟨d, hd, rfl⟩ := hl
  have huncommented := hshown.uncommented
  cases hshown with
  | directive hwords => cases hwords
  | @code c digits gap hdigits hgap =>
    obtain ⟨hname, hnodes, hrest⟩ := Sketch.mk.injEq .. ▸ hd
    obtain ⟨front, back, hsplit, rfl, hback⟩ := List.map_eq_append_iff.1 hnodes
    obtain ⟨⟨_, origin⟩, rfl, rfl⟩ := List.map_eq_singleton_iff.1 hback
    have hcode := c.readCode hdigits hgap hsplit hbody line
    obtain ⟨word, args, hwords, hcolon⟩ := Code.exists_words hdigits (gap ++ c.text.toList)
    refine ⟨_, ?_, { d with nodes := front ++ [⟨⟨name, body'⟩, origin⟩] }, ?_, rfl⟩
    · rw [hframed.readLine_inside huncommented rfl line hwords, readInside_code hcolon, hcode]
      rfl
    · exact (Sketch.mk.injEq ..).mpr ⟨hname, by simp, hrest⟩

/-- A node is read together with its code. -/
lemma Node.leads (n : Node) : Leads (Drafting base sk) n.statements
    (Drafting base { sk with nodes := sk.nodes ++ [n.built] }) := by
  rw [Node.statements, ← List.singleton_append]
  refine (leads_node n).append ?_
  rw [Node.built, ← n.body.holding_code]
  exact Leads.flatMap (I := fun done =>
    Drafting base { sk with nodes := sk.nodes ++ [⟨n.name.text, n.body.holding done⟩] })
    fun done c h => leads_code (Body.push?_holding h)

/-- The sketch of a procedure after some of its parts. -/
def Procedure.sketchOf (p : Procedure) (entries : List (Entry p.nodes.length)) : Sketch where
  name := p.name.text
  nodes := (entries.filterMap Entry.node?).map Node.built
  edges := (entries.filterMap Entry.edge?).map p.endNames
  loops := (entries.filterMap Entry.loop?).map p.loopNames

/-- Arranged entries sketch the procedure. -/
lemma Procedure.Arranged.sketchOf {p : Procedure} {entries : List (Entry p.nodes.length)}
    (h : p.Arranged entries) : p.sketchOf entries = p.sketch := by
  rw [Procedure.sketchOf, h.nodes, h.edges, h.loops]
  rfl

namespace Procedure

variable (p : Procedure) (done : List (Entry p.nodes.length))

/-- A node is sketched behind the others. -/
lemma sketchOf_node (n : Node) : p.sketchOf (done ++ [.node n]) =
    { p.sketchOf done with nodes := (p.sketchOf done).nodes ++ [n.built] } := by
  simp [sketchOf, List.filterMap_cons, Entry.node?, Entry.edge?, Entry.loop?]

/-- An edge is sketched behind the others. -/
lemma sketchOf_edge (e : Edge p.nodes.length) : p.sketchOf (done ++ [.edge e]) =
    { p.sketchOf done with edges := (p.sketchOf done).edges ++ [p.endNames e] } := by
  simp [sketchOf, List.filterMap_cons, Entry.node?, Entry.edge?, Entry.loop?]

/-- A loop is sketched behind the others. -/
lemma sketchOf_loop (l : Loop p.nodes.length) : p.sketchOf (done ++ [.loop l]) =
    { p.sketchOf done with loops := (p.sketchOf done).loops ++ [p.loopNames l] } := by
  simp [sketchOf, List.filterMap_cons, Entry.node?, Entry.edge?, Entry.loop?]

/-- One part of a procedure after others. -/
lemma leads_entry {entry : Entry p.nodes.length} (hentry : ∀ e, entry = .edge e → e ∈ p.edges) :
    Leads (Drafting base (p.sketchOf done)) (p.statements entry)
      (Drafting base (p.sketchOf (done ++ [entry]))) := by
  cases entry with
  | node n =>
    rw [sketchOf_node]
    exact n.leads
  | edge e =>
    have hends : p.endNames e =
        ((e.source.map p.nameOf).map Word.text, (p.nameOf e.target).text) := by
      rw [endNames, Option.map_map]
      rfl
    rw [sketchOf_edge, hends]
    refine leads_edge (fun name hname => ?_) _
    obtain ⟨i, hi, rfl⟩ := Option.map_eq_some_iff.1 hname
    exact p.sources e (hentry e rfl) i hi
  | loop l =>
    have hnodes : p.loopNames l =
        ((p.nameOf l.header).text, (l.body.map p.nameOf).map Word.text) := by
      rw [loopNames, List.map_map]
      rfl
    rw [sketchOf_loop, hnodes]
    exact leads_loop _ _

end Procedure

/-- The end of a procedure. -/
lemma leads_finish (p : Procedure) : Leads (Drafting base p.sketch) [.finish]
    (· = { base with procedures := base.procedures ++ [p.built], draft := none }) := by
  refine leads_inside (fun _ => nofun) fun ws word args hwords hargs line d text hd => ?_
  refine ⟨_, rfl, ?_⟩
  cases hwords
  obtain ⟨rfl, rfl⟩ := List.cons.inj hargs
  simp [readInside, Draft.finish_of_sketch hd, Except.map]

/-! ### Outside procedures -/

/-- A directive is read by its words. -/
lemma leads_outside {s : Statement} {Q : Listing → Prop} (hcode : ∀ c, s ≠ .code c)
    (hbase : base.draft = none)
    (h : ∀ ws word args, Directive s ws → ws.map String.ofList = word :: args →
      ∀ line, ∃ l, Q l ∧ readOutside line base word args = .ok l) :
    Leads (· = base) [s] Q := by
  refine .single fun t raw l line hshown hframed hl => ?_
  subst hl
  cases hshown with
  | code => exact absurd rfl (hcode _)
  | @directive s ws t hwords hspaced =>
    obtain ⟨w, ws, rfl⟩ := List.exists_cons_of_ne_nil hwords.ne_nil
    obtain ⟨l', hl', hread⟩ := h _ _ _ hwords rfl line
    refine ⟨l', ?_, hl'⟩
    rw [hframed.readLine_outside (Shown.directive hwords hspaced).uncommented hbase line
      (hwords.words_map hspaced)]
    exact hread

/-- The beginning of a procedure of a new name. -/
lemma leads_procedure {name : Word} (hbase : base.draft = none)
    (hnew : name.text ∉ base.procedures.map CacheVerdict.Procedure.name) :
    Leads (· = base) [.procedure name] (Drafting base { name := name.text }) := by
  refine leads_outside (fun _ => nofun) hbase fun ws word args hwords hargs line => ?_
  refine ⟨_, ⟨{ name := name.text }, rfl, rfl⟩, ?_⟩
  have hany : base.procedures.any (·.name = name.text) = false := by
    simpa using hnew
  cases hwords
  obtain ⟨rfl, rfl⟩ := List.cons.inj hargs
  simp [readOutside, readProcedure, Word.chars, hany]

/-- A procedure is read as a whole. -/
lemma Procedure.leads (p : Procedure) {entries : List (Entry p.nodes.length)}
    (h : p.Arranged entries) (hbase : base.draft = none)
    (hnew : p.name.text ∉ base.procedures.map CacheVerdict.Procedure.name) :
    Leads (· = base) (Part.procedure p entries h).statements
      (· = { base with procedures := base.procedures ++ [p.built] }) := by
  have hentries : Leads (Drafting base (p.sketchOf [])) (entries.flatMap p.statements)
      (Drafting base (p.sketchOf entries)) := by
    refine Leads.flatMap fun done entry hdone => p.leads_entry done fun e he => ?_
    rw [← h.edges, List.mem_filterMap]
    exact ⟨entry, hdone.subset (by simp), by rw [he]; rfl⟩
  rw [h.sketchOf] at hentries
  rw [Part.statements, ← List.singleton_append]
  refine (leads_procedure hbase hnew).append (hentries.append ?_)
  rw [hbase]
  exact leads_finish p

/-- What has been read after these parts. -/
def listing (parts : List Part) : Listing where
  segments :=
    { bss := (parts.filterMap (Part.segment? .bss)).map Segment.built
      data := (parts.filterMap (Part.segment? .data)).map Segment.built }
  procedures := (parts.filterMap Part.procedure?).map Procedure.built

/-- A segment leads to the listing with the segment. -/
lemma leads_segment (done : List Part) (region : Region) (s : Segment) :
    Leads (· = listing done) [.segment region s] (· = listing (done ++ [.segment region s])) := by
  refine leads_outside (fun _ => nofun) rfl fun ws word args hwords hargs line => ?_
  refine ⟨_, rfl, ?_⟩
  cases hwords with
  | segment hlower hupper =>
    obtain ⟨rfl, rfl⟩ := List.cons.inj hargs
    cases region <;>
      simp [readOutside, readSegment, readHex_of_spells hlower, readHex_of_spells hupper,
        Word.chars, Region.word, bind, Except.bind, pure, Except.pure, listing, Segment.built,
        List.filterMap_cons, Part.segment?, Part.procedure?]

/-- A procedure is listed behind the others. -/
lemma listing_procedure (done : List Part) (p : Procedure) (entries : List (Entry p.nodes.length))
    (h : p.Arranged entries) : listing (done ++ [.procedure p entries h]) =
      { listing done with procedures := (listing done).procedures ++ [p.built] } := by
  simp [listing, List.filterMap_cons, Part.segment?, Part.procedure?]

/-- A listing has the names of its procedures. -/
lemma names_listing (parts : List Part) :
    (listing parts).procedures.map CacheVerdict.Procedure.name =
      (parts.filterMap Part.procedure?).map fun p => p.name.text := by
  rw [listing, List.map_map]
  exact List.map_congr_left fun p _ => p.name_built

/-- No procedure of the name came before. -/
lemma Arranged.fresh {o : Outline} {parts done : List Part} (h : o.Arranged parts) {p : Procedure}
    {entries : List (Entry p.nodes.length)} {hp : p.Arranged entries}
    (hdone : done ++ [.procedure p entries hp] <+: parts) :
    p.name.text ∉ (listing done).procedures.map CacheVerdict.Procedure.name := by
  have hnames : (done.filterMap Part.procedure? ++ [p]).map (fun p => p.name.text) <+:
      o.procedures.map fun p => p.name.text := by
    rw [← h.procedures]
    refine List.IsPrefix.map _ ?_
    have hfiltered := hdone.filterMap Part.procedure?
    rwa [List.filterMap_append] at hfiltered
  have hnodup := o.distinct.sublist hnames.sublist
  rw [List.map_append, List.nodup_append] at hnodup
  rw [names_listing]
  exact fun hmem => hnodup.2.2 _ hmem _ (List.mem_singleton_self _) rfl

/-- The parts of an outline are read one after another. -/
lemma Arranged.leads {o : Outline} {parts : List Part} (h : o.Arranged parts) :
    Leads (· = listing []) (parts.flatMap Part.statements) (· = listing parts) := by
  refine Leads.flatMap (I := fun done l => l = listing done) fun done part hdone => ?_
  cases part with
  | segment region s => exact leads_segment done region s
  | procedure p entries hp =>
    rw [listing_procedure]
    exact p.leads hp rfl (h.fresh hdone)

/-- The listing ends as the program. -/
lemma Arranged.finish {o : Outline} {parts : List Part} (h : o.Arranged parts) (count : Nat) :
    (listing parts).finish count = .ok o.program := by
  have hprocedures : (listing parts).procedures.isEmpty = false := by
    rw [listing, h.procedures]
    simp [o.nonempty]
  rw [Listing.finish]
  simp only [hprocedures]
  rw [listing, h.segments, h.segments, h.procedures]
  rfl

/-- An outline can be written down, and whatever text it is written in is read as its program. -/
theorem ofListing_written (o : Outline) :
    o.Written o.render ∧ ∀ text, o.Written text → Program.ofListing text = .ok o.program := by
  refine ⟨o.written_render, ?_⟩
  rintro text ⟨parts, raws, hparts, hlines, hraws, htext⟩
  obtain ⟨l, hread, rfl⟩ := hparts.leads raws hlines {} 1 rfl
  rw [Program.ofListing, htext]
  simp only [readLines_lines _ _ hraws, hread]
  exact hparts.finish (Text.lines (List.intercalate ['\n'] raws)).length

/-- One procedure with a loop of one node, which is its entry. -/
def oneLoop : Outline where
  segments
    | .bss => [⟨⟨".bss", by decide⟩, ⟨"WA", by decide⟩, 0x411000, 0x411040⟩]
    | .data => []
  procedures :=
    [{ name := ⟨"main", by decide⟩
       nodes := [⟨⟨"n0", by decide⟩, .loopHead [⟨0x400580, "ldr x0, [x1]", by decide, by decide,
         by decide⟩]⟩]
       edges := [⟨none, 0⟩, ⟨some 0, 0⟩]
       loops := [⟨0, []⟩]
       distinct := by decide
       sources := by decide }]
  nonempty := by decide
  distinct := by decide

/-- Lines for it, with a comment, an indented line and a blank one. -/
def oneLoopLines : List String :=
  ["SEGMENT bss .bss WA 0x411000 0x411040", "", "PROCEDURE main // hot", "NODE n0 LOOP",
    "  400580: ldr x0, [x1]", "EDGE - n0", "EDGE n0 n0", "LOOP n0", "END", ""]

/-- A text with indentation, blanks and comments is read as the program of one loop. -/
theorem ofListing_written_oneLoop : oneLoop.Written ("\n".intercalate oneLoopLines) ∧
    Program.ofListing ("\n".intercalate oneLoopLines) = .ok oneLoop.program := by
  have hidle {ss : List Statement} {raws : List (List Char)} (h : Lines ss raws) :
      Lines ss ("".toList :: raws) := .idle (.bare (by decide)) h
  have hline {s : Statement} {ss : List Statement} {raw : List Char} {raws : List (List Char)}
      (indent : List Char) (hindent : Blanks indent)
      (hraw : raw = indent ++ s.render ++ []) (h : Lines ss raws) :
      Lines (s :: ss) (raw :: raws) := by
    rw [hraw]
    exact .line s.shown_render (.bare hindent (List.forall_mem_nil _)) h
  have hcommented {s : Statement} {ss : List Statement} {raw : List Char} {raws : List (List Char)}
      (hraw : raw = [] ++ s.render ++ [' '] ++ "// hot".toList) (h : Lines ss raws) :
      Lines (s :: ss) (raw :: raws) := by
    rw [hraw]
    refine .line s.shown_render (.commented (List.forall_mem_nil _) ?_ (by decide)) h
    exact List.forall_mem_singleton.2 rfl
  have hlines : Lines (oneLoop.parts.flatMap Part.statements) (oneLoopLines.map String.toList) :=
    hline [] (by decide) (by decide) <| hidle <| hcommented (by decide) <|
    hline [] (by decide) (by decide) <| hline [' ', ' '] (by decide) (by decide) <|
    hline [] (by decide) (by decide) <| hline [] (by decide) (by decide) <|
    hline [] (by decide) (by decide) <| hline [] (by decide) (by decide) <| hidle .nil
  have hwritten : oneLoop.Written ("\n".intercalate oneLoopLines) :=
    ⟨oneLoop.parts, _, oneLoop.arranged_parts, hlines, by decide, String.toList_intercalate⟩
  exact ⟨hwritten, (ofListing_written oneLoop).2 _ hwritten⟩

end Outline

end CacheVerdict
