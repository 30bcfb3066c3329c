import Mathlib.Order.Interval.Set.Defs
import Mathlib.Order.Nat
import CacheVerdict.Proofs.Listing.Checked

/-!
# What reading comes to

Reading gives a well-formed program, or it complains about one of the lines, or it finds no procedure
at all. For each step of the reader there is one lemma (`Reads`): what it keeps of the procedures read
so far (`Listing.Valid`), and that the line it complains about is one of the listing.
-/

namespace CacheVerdict

/-- The reading of a listing of so many lines comes to something with a property, or to a complaint
about one of the lines. -/
def Reads {α : Type} (count : Nat) (P : α → Prop) : Except ListingFault α → Prop
  | .ok a => P a
  | .error (.malformed line _) => line ∈ Set.Icc 1 count
  | .error .noProcedure => False

namespace Reads

variable {α β : Type} {count : Nat} {P : α → Prop} {Q : β → Prop} {x : Except ListingFault α}

/-- Reading goes on from what has been read. -/
lemma bind {f : α → Except ListingFault β} (hx : Reads count P x)
    (hf : ∀ a, P a → Reads count Q (f a)) : Reads count Q (x >>= f) := by
  cases x with
  | ok a => exact hf a hx
  | error fault => cases fault <;> exact hx

/-- What is read has weaker properties, too. -/
lemma imp {P' : α → Prop} (hx : Reads count P x) (h : ∀ a, P a → P' a) : Reads count P' x := by
  cases x with
  | ok a => exact h a hx
  | error fault => cases fault <;> exact hx

/-- What is read may be mapped. -/
lemma map {f : α → β} (hx : Reads count P x) (hf : ∀ a, P a → Q (f a)) :
    Reads count Q (x.map f) := by
  cases x with
  | ok a => exact hf a hx
  | error fault => cases fault <;> exact hx

/-- What is wrong with something on a line is a complaint about that line. -/
lemma mapError {ε : Type} {y : Except ε α} {fault : ε → LineFault} {line : Nat}
    (hline : line ∈ Set.Icc 1 count) :
    Reads count (fun _ => True) (y.mapError fun e => .malformed line (fault e)) := by
  cases y with
  | ok => trivial
  | error => exact hline

/-- Reading the elements of a list one after another keeps what each of them keeps. -/
lemma foldlM {step : β → α → Except ListingFault β} {l : List α} {b : β} (start : Q b)
    (next : ∀ a ∈ l, ∀ b, Q b → Reads count Q (step b a)) : Reads count Q (l.foldlM step b) := by
  induction l generalizing b with
  | nil => exact start
  | cons a l ih =>
    rw [List.foldlM_cons]
    refine (next a List.mem_cons_self b start).bind fun b' hb' => ih hb' fun a' ha' => ?_
    exact next a' (List.mem_cons_of_mem a ha')

/-- Reading each element of a list reads them all. -/
lemma mapM {f : α → Except ListingFault β} {l : List α} (h : ∀ a, Reads count Q (f a)) :
    Reads count (fun l' => ∀ b ∈ l', Q b) (l.mapM f) := by
  induction l with
  | nil => exact List.forall_mem_nil _
  | cons a l ih =>
    rw [List.mapM_cons]
    exact (h a).bind fun b hb => ih.bind fun l' hl' => List.forall_mem_cons.2 ⟨hb, hl'⟩

/-- Reading an element that may be missing reads it if it is there. -/
lemma mapM_option {f : α → Except ListingFault β} {a : Option α} (h : ∀ a, Reads count Q (f a)) :
    Reads count (fun b => ∀ c ∈ b, Q c) (a.mapM f) := by
  cases a with
  | none => exact fun c hc => by cases hc
  | some a =>
    rw [Option.mapM_some]
    exact (h a).map fun b hb c hc => Option.some.inj hc ▸ hb

end Reads

variable {count line : Nat}

/-! ### Drafts -/

namespace Draft

/-- The lines that a draft names are among the first `count`. -/
structure Within (d : Draft) (count : Nat) : Prop where
  nodes : ∀ n ∈ d.nodes, n.line ∈ Set.Icc 1 count
  edges : ∀ e ∈ d.edges, e.line ∈ Set.Icc 1 count
  loops : ∀ l ∈ d.loops, l.line ∈ Set.Icc 1 count

/-- A well-formed procedure with the name of a draft. -/
def Yields (d : Draft) (p : Procedure) : Prop :=
  p.WellFormed ∧ p.name = d.name

variable {d : Draft} {p : Procedure}

/-- A name is found at a node, or the fault names the line. -/
lemma reads_find (p : Procedure) (hline : line ∈ Set.Icc 1 count) (name : String) :
    Reads count (· < p.nodes.length) (find p line name) := by
  unfold find
  split
  · rename_i hname
    exact Procedure.nodeNamed?_lt hname
  · exact hline

/-- Placing a node keeps what the draft yields well formed. -/
lemma reads_placeNode {n : DraftNode} (hline : n.line ∈ Set.Icc 1 count) (h : d.Yields p) :
    Reads count d.Yields (placeNode p n) := by
  unfold placeNode
  split
  · exact hline
  · rename_i hfresh
    exact ⟨h.1.addNode hfresh, h.2⟩

/-- Placing an edge keeps what the draft yields well formed. -/
lemma reads_placeEdge {e : DraftEdge} (hline : e.line ∈ Set.Icc 1 count) (h : d.Yields p) :
    Reads count d.Yields (placeEdge p e) := by
  refine (Reads.mapM_option (reads_find p hline)).bind fun source hsource => ?_
  refine (reads_find p hline e.target).bind fun target htarget => ?_
  refine ⟨h.1.addEdge (Bool.and_eq_true_iff.2 ⟨decide_eq_true htarget, ?_⟩), h.2⟩
  exact (Option.all_eq_true _ _).2 fun i hi => decide_eq_true (hsource i hi)

/-- Placing a loop keeps what the draft yields well formed. -/
lemma reads_placeLoop {l : DraftLoop} (hline : l.line ∈ Set.Icc 1 count) (h : d.Yields p) :
    Reads count d.Yields (placeLoop p l) := by
  refine (reads_find p hline l.header).bind fun header hheader => ?_
  refine (Reads.mapM (reads_find p hline)).bind fun body hbody => ?_
  exact ⟨h.1.addLoop hheader hbody, h.2⟩

/-- The procedure of a draft is well formed. -/
lemma reads_finish (h : d.Within count) : Reads count d.Yields d.finish := by
  have hstart : d.Yields { name := d.name } := ⟨.start d.name, rfl⟩
  refine (Reads.foldlM hstart fun n hn p hp => ?_).bind fun p hp => ?_
  · exact reads_placeNode (h.nodes n hn) hp
  refine (Reads.foldlM hp fun e he p hp => ?_).bind fun p hp => ?_
  · exact reads_placeEdge (h.edges e he) hp
  exact Reads.foldlM hp fun l hl p hp => reads_placeLoop (h.loops l hl) hp

end Draft

/-! ### Lines -/

namespace Listing

/-- What holds between the lines of a listing: the procedures read so far are well formed and have
different names, and the one at hand is another. -/
structure Valid (l : Listing) (count : Nat) : Prop where
  nodup : (l.procedures.map Procedure.name).Nodup
  procedures : ∀ q ∈ l.procedures, q.WellFormed
  fresh : ∀ d, l.draft = some d → d.name ∉ l.procedures.map Procedure.name
  within : ∀ d, l.draft = some d → d.Within count ∧ 1 ≤ count

/-- No procedure has been begun. -/
def Untouched (l : Listing) : Prop :=
  l.procedures = [] ∧ l.draft = none

/-- The first word of a line, its comment aside. -/
def directive? (raw : List Char) : Option String :=
  ((Text.words (Text.trim (dropComment raw))).map String.ofList).head?

variable {l : Listing} {d : Draft}

/-- A number in hexadecimal is read, or the fault names the line. -/
lemma reads_readHex (hline : line ∈ Set.Icc 1 count) (s : List Char) :
    Reads count (fun _ => True) (readHex line s) :=
  Reads.mapError hline

/-- A segment may be read without beginning a procedure. -/
lemma reads_readSegment (hline : line ∈ Set.Icc 1 count) (h : l.Valid count) (args : List String) :
    Reads count (fun l' => l'.Valid count ∧ (l'.Untouched ↔ l.Untouched))
      (readSegment line l args) := by
  unfold readSegment
  split
  · refine (reads_readHex hline _).bind fun lower _ => (reads_readHex hline _).bind fun upper _ => ?_
    split
    · exact ⟨⟨h.nodup, h.procedures, h.fresh, h.within⟩, Iff.rfl⟩
    · exact ⟨⟨h.nodup, h.procedures, h.fresh, h.within⟩, Iff.rfl⟩
    · exact hline
  · exact hline

/-- A line that begins a procedure leaves a draft. -/
lemma reads_readProcedure (hline : line ∈ Set.Icc 1 count) (h : l.Valid count)
    (args : List String) :
    Reads count (fun l' => l'.Valid count ∧ ¬ l'.Untouched) (readProcedure line l args) := by
  unfold readProcedure
  split
  · split
    · exact hline
    · rename_i name hany
      refine ⟨⟨h.nodup, h.procedures, fun d hd hmem => hany ?_, fun d hd => ?_⟩, fun hu => ?_⟩
      · obtain ⟨q, hq, hname⟩ := List.mem_map.1 hmem
        cases hd
        exact List.any_eq_true.2 ⟨q, hq, decide_eq_true hname⟩
      · cases hd
        exact ⟨⟨List.forall_mem_nil _, List.forall_mem_nil _, List.forall_mem_nil _⟩,
          hline.1.trans hline.2⟩
      · cases hu.2
  · exact hline

/-- Outside procedures only one directive begins a procedure. -/
lemma reads_readOutside (hline : line ∈ Set.Icc 1 count) (h : l.Valid count) (word : String)
    (args : List String) :
    Reads count (fun l' => l'.Valid count ∧ (l'.Untouched ↔ l.Untouched ∧ word ≠ "PROCEDURE"))
      (readOutside line l word args) := by
  unfold readOutside
  split
  · exact (reads_readSegment hline h args).imp fun l' hl' => by simpa using hl'
  · exact (reads_readProcedure hline h args).imp fun l' hl' => by simpa using hl'
  all_goals exact hline

/-- Reading a node keeps the lines of the draft in range. -/
lemma reads_readNode (hline : line ∈ Set.Icc 1 count) (h : d.Within count) (args : List String) :
    Reads count (fun d' => d'.Within count ∧ d'.name = d.name) (readNode line d args) := by
  unfold readNode
  simp only
  split
  · refine ⟨⟨?_, h.edges, h.loops⟩, rfl⟩
    exact List.forall_mem_append.2 ⟨h.nodes, List.forall_mem_singleton.2 hline⟩
  · exact hline

/-- Reading an edge keeps the lines of the draft in range. -/
lemma reads_readEdge (hline : line ∈ Set.Icc 1 count) (h : d.Within count) (args : List String) :
    Reads count (fun d' => d'.Within count ∧ d'.name = d.name) (readEdge line d args) := by
  unfold readEdge
  split
  · refine ⟨⟨h.nodes, ?_, h.loops⟩, rfl⟩
    exact List.forall_mem_append.2 ⟨h.edges, List.forall_mem_singleton.2 hline⟩
  · exact hline

/-- Reading a loop keeps the lines of the draft in range. -/
lemma reads_readLoop (hline : line ∈ Set.Icc 1 count) (h : d.Within count) (args : List String) :
    Reads count (fun d' => d'.Within count ∧ d'.name = d.name) (readLoop line d args) := by
  unfold readLoop
  split
  · refine ⟨⟨h.nodes, h.edges, ?_⟩, rfl⟩
    exact List.forall_mem_append.2 ⟨h.loops, List.forall_mem_singleton.2 hline⟩
  · exact hline

/-- An instruction is read, or the fault names the line. -/
lemma reads_readInstruction (hline : line ∈ Set.Icc 1 count) (s : List Char) :
    Reads count (fun _ => True) (readInstruction line s) := by
  unfold readInstruction
  split
  · exact hline
  · exact (reads_readHex hline _).bind fun _ _ => trivial

/-- Code is added to the last node, which stays on its line. -/
lemma reads_readCode (hline : line ∈ Set.Icc 1 count) (h : d.Within count) (s : List Char) :
    Reads count (fun d' => d'.Within count ∧ d'.name = d.name) (readCode line d s) := by
  unfold readCode
  split
  · exact hline
  · rename_i last hlast
    split
    · exact hline
    · refine (reads_readInstruction hline s).bind fun i _ => ?_
      split
      · exact hline
      · refine ⟨⟨List.forall_mem_append.2 ⟨fun n hn => ?_, List.forall_mem_singleton.2 ?_⟩,
          h.edges, h.loops⟩, rfl⟩
        · exact h.nodes n (List.dropLast_subset _ hn)
        · exact h.nodes last (List.mem_of_getLast? hlast)

/-- What is read into the procedure at hand leaves those before it alone. -/
lemma Valid.withDraft (h : l.Valid count) (hd : l.draft = some d) {d' : Draft}
    (hd' : d'.Within count ∧ d'.name = d.name) :
    ({ l with draft := some d' } : Listing).Valid count where
  nodup := h.nodup
  procedures := h.procedures
  fresh d'' hd'' := by
    cases hd''
    rw [hd'.2]
    exact h.fresh d hd
  within d'' hd'' := by
    cases hd''
    exact ⟨hd'.1, (h.within d hd).2⟩

/-- A finished procedure joins those before it. -/
lemma Valid.withProcedure (h : l.Valid count) (hd : l.draft = some d) {p : Procedure}
    (hp : d.Yields p) :
    ({ l with procedures := l.procedures ++ [p], draft := none } : Listing).Valid count where
  nodup := by
    rw [List.map_append, List.map_singleton, ← List.concat_eq_append, hp.2]
    exact h.nodup.concat (h.fresh d hd)
  procedures := List.forall_mem_append.2 ⟨h.procedures, List.forall_mem_singleton.2 hp.1⟩
  fresh _ hnone := by cases hnone
  within _ hnone := by cases hnone

/-- Inside a procedure some procedure has begun. -/
lemma reads_readInside (hline : line ∈ Set.Icc 1 count) (h : l.Valid count) (hd : l.draft = some d)
    (s : List Char) (word : String) (args : List String) :
    Reads count (fun l' => l'.Valid count ∧ ¬ l'.Untouched) (readInside line l d s word args) := by
  have hwithin := (h.within d hd).1
  -- all but `END` go on with the draft
  have hdraft (d' : Draft) (hd' : d'.Within count ∧ d'.name = d.name) :
      ({ l with draft := some d' } : Listing).Valid count ∧
        ¬ ({ l with draft := some d' } : Listing).Untouched :=
    ⟨h.withDraft hd hd', fun hu => by cases hu.2⟩
  unfold readInside
  simp only
  split
  · exact (reads_readNode hline hwithin args).map hdraft
  · exact (reads_readEdge hline hwithin args).map hdraft
  · exact (reads_readLoop hline hwithin args).map hdraft
  · refine (Draft.reads_finish hwithin).map fun p hp => ⟨h.withProcedure hd hp, fun hu => ?_⟩
    exact List.append_ne_nil_of_right_ne_nil _ (List.cons_ne_nil _ _) hu.1
  · exact hline
  · exact hline
  · exact (reads_readCode hline hwithin s).map hdraft

/-- A line keeps what holds between lines, and only `PROCEDURE` begins a procedure. -/
lemma reads_readLine (hline : line ∈ Set.Icc 1 count) (h : l.Valid count) (raw : List Char) :
    Reads count (fun l' => l'.Valid count ∧
        (l'.Untouched ↔ l.Untouched ∧ directive? raw ≠ some "PROCEDURE"))
      (l.readLine line raw) := by
  unfold readLine directive?
  simp only
  cases (Text.words (Text.trim (dropComment raw))).map String.ofList with
  | nil => exact ⟨h, by simp⟩
  | cons word args =>
    cases hd : l.draft with
    | none =>
      refine (reads_readOutside hline h word args).imp fun l' hl' => ?_
      simpa using hl'
    | some d =>
      refine (reads_readInside hline h hd _ word args).imp fun l' hl' => ⟨hl'.1, ?_⟩
      refine iff_of_false hl'.2 fun hu => ?_
      rw [hu.1.2] at hd
      cases hd

/-- What holds between lines holds after all of them. -/
lemma reads_readLines {first : Nat} {lines : List (List Char)} (hfirst : 1 ≤ first)
    (hlast : first + lines.length ≤ count + 1) (h : l.Valid count) :
    Reads count (fun l' => l'.Valid count ∧
        (l'.Untouched ↔ l.Untouched ∧ ∀ raw ∈ lines, directive? raw ≠ some "PROCEDURE"))
      (l.readLines first lines) := by
  -- `count` is the number of all lines from the start, so it stays as the lines get fewer
  induction lines generalizing l first with
  | nil => exact ⟨h, by simp⟩
  | cons raw rest ih =>
    rw [List.length_cons] at hlast
    have hline : first ∈ Set.Icc 1 count := ⟨hfirst, by omega⟩
    refine (reads_readLine hline h raw).bind fun l' hl' => ?_
    refine (ih (by omega) (by omega) hl'.1).imp fun l'' hl'' => ⟨hl''.1, ?_⟩
    rw [hl''.2, hl'.2, List.forall_mem_cons, and_assoc]

/-- The empty listing is valid. -/
lemma Valid.start (count : Nat) : ({} : Listing).Valid count where
  nodup := List.nodup_nil
  procedures _ h := by cases h
  fresh _ h := by cases h
  within _ h := by cases h

/-- What is read of a whole listing. -/
lemma reads_all (lines : List (List Char)) :
    Reads lines.length (fun l => l.Valid lines.length ∧
        (l.Untouched ↔ ∀ raw ∈ lines, directive? raw ≠ some "PROCEDURE"))
      (({} : Listing).readLines 1 lines) := by
  refine (reads_readLines le_rfl (Nat.add_comm 1 _).le (.start _)).imp fun l hl => ⟨hl.1, ?_⟩
  rw [hl.2, and_iff_right ⟨rfl, rfl⟩]

/-! ### The end of a listing -/

/-- A listing has no procedure if none was begun. -/
lemma finish_eq_noProcedure : l.finish count = .error .noProcedure ↔ l.Untouched := by
  unfold finish Untouched
  cases l.draft with
  | some => simp
  | none => cases l.procedures <;> simp

/-- A valid listing ends as a well-formed program. -/
lemma Valid.program (h : l.Valid count) {program : Program} (hl : l.finish count = .ok program) :
    program.WellFormed := by
  unfold finish at hl
  split at hl
  · cases hl
  · split at hl
    · cases hl
    · rename_i hempty
      cases hl
      exact ⟨fun hnil => hempty (List.isEmpty_iff.2 hnil), h.nodup, h.procedures⟩

/-- A procedure that does not end has begun on some line. -/
lemma Valid.lastLine (h : l.Valid count) {fault : LineFault}
    (hl : l.finish count = .error (.malformed line fault)) : line ∈ Set.Icc 1 count := by
  unfold finish at hl
  split at hl
  · rename_i d hd
    cases hl
    exact ⟨(h.within d hd).2, le_rfl⟩
  · split at hl <;> cases hl

end Listing

namespace Program

/-- The reading of a text stops at one of its lines, or goes on to the end. -/
lemma ofListing_forms (text : String) :
    let lines := Text.lines text.toList
    (∃ line fault, ({} : Listing).readLines 1 lines = .error (.malformed line fault) ∧
      ofListing text = .error (.malformed line fault) ∧ line ∈ Set.Icc 1 lines.length) ∨
    (∃ l, ({} : Listing).readLines 1 lines = .ok l ∧ ofListing text = l.finish lines.length ∧
      l.Valid lines.length ∧
      (l.Untouched ↔ ∀ raw ∈ lines, Listing.directive? raw ≠ some "PROCEDURE")) := by
  intro lines
  have hreads := Listing.reads_all lines
  unfold ofListing
  cases hlines : ({} : Listing).readLines 1 lines with
  | ok l =>
    rw [hlines] at hreads
    exact .inr ⟨l, rfl, by simp only [lines, hlines]; rfl, hreads⟩
  | error fault =>
    rw [hlines] at hreads
    cases fault with
    | malformed line fault => exact .inl ⟨line, fault, rfl, by simp only [lines, hlines]; rfl, hreads⟩
    | noProcedure => exact hreads.elim

/-- Reading is safe on every text: no check fails on the way, and it comes to a well-formed program,
to a complaint about one of the lines, or to none of the lines beginning a procedure. -/
theorem ofListing_wellFormed (text : String) :
    (ofListingChecked text).run = some (ofListing text) ∧
    (∀ program, ofListing text = .ok program → program.WellFormed) ∧
    (∀ line fault, ofListing text = .error (.malformed line fault) →
      1 ≤ line ∧ line ≤ (Text.lines text.toList).length) ∧
    (ofListing text = .error .noProcedure ↔
      (∃ l, ({} : Listing).readLines 1 (Text.lines text.toList) = .ok l) ∧
        ∀ raw ∈ Text.lines text.toList, Listing.directive? raw ≠ some "PROCEDURE") := by
  refine ⟨ofListingChecked_eq text, ?_⟩
  rcases ofListing_forms text with
    ⟨line, fault, hlines, htext, hline⟩ | ⟨l, hlines, htext, hvalid, huntouched⟩
  · rw [hlines, htext]
    refine ⟨fun _ h => ?_, fun _ _ h => ?_, by simp⟩
    · cases h
    · cases h
      exact hline
  · have haccepted : ∃ l', (.ok l : Except ListingFault Listing) = .ok l' := ⟨l, rfl⟩
    rw [hlines, htext, ← huntouched]
    refine ⟨fun _ => hvalid.program, fun _ _ => hvalid.lastLine, ?_⟩
    rw [Listing.finish_eq_noProcedure, and_iff_right haccepted]

/-- A loop that calls the procedure it is in; the edge into it comes before its nodes. -/
def callingLoop : String :=
  "\n".intercalate ["PROCEDURE main // recursive", "EDGE - n0", "NODE n0 LOOP", "10: nop",
    "NODE n1 VIRTUAL main", "EDGE n0 n1", "EDGE n1 n0", "LOOP n0 n1", "END", ""]

/-- Reading the loop comes to a well-formed program. -/
theorem ofListing_wellFormed_callingLoop :
    ∃ program, ofListing callingLoop = .ok program ∧ program.WellFormed := by
  have haccepted : (ofListing callingLoop).toOption.isSome = true := by decide +kernel
  cases h : ofListing callingLoop with
  | error =>
    rw [h] at haccepted
    cases haccepted
  | ok program => exact ⟨program, rfl, (ofListing_wellFormed callingLoop).2.1 program h⟩

end Program

end CacheVerdict
