import CacheVerdict.Instruction.Decode
import CacheVerdict.Listing.Draft
import CacheVerdict.Program.Basic

/-!
# Reading listings

A listing is read line by line. Outside procedures it declares data segments; a procedure lists its
nodes with their code, its edges and its loops, up to `END`. What follows `//` is a comment.
-/

namespace CacheVerdict

/-- What has been read of a listing. -/
structure Listing where
  segments : Segments := {}
  procedures : List Procedure := []
  draft : Option Draft := none

namespace Listing

/-- Drops everything from the first `//` on. -/
def dropComment : List Char → List Char
  | [] => []
  | '/' :: '/' :: _ => []
  | c :: rest => c :: dropComment rest

/-- Reads a hexadecimal address, with or without its mark. -/
def readHex (line : Nat) (s : List Char) : Except ListingFault Address :=
  let value :=
    match s with
    | '0' :: 'x' :: digits => Numeral.read64 16 digits
    | '0' :: 'X' :: digits => Numeral.read64 16 digits
    | digits => Numeral.read64 16 digits
  value.mapError fun cause => .malformed line (.number (String.ofList s) cause)

/-- Reads what follows `SEGMENT`. The bounds are read before the region is looked at. -/
def readSegment (line : Nat) (l : Listing) : List String → Except ListingFault Listing
  | [region, name, flags, lower, upper] => do
    let lower ← readHex line lower.toList
    let upper ← readHex line upper.toList
    let segment : Segment := ⟨name, flags, lower, upper⟩
    match region with
    | "bss" => return { l with segments.bss := l.segments.bss ++ [segment] }
    | "data" => return { l with segments.data := l.segments.data ++ [segment] }
    | region => throw (.malformed line (.unknownRegion region))
  | _ => .error (.malformed line .segmentShape)

/-- Reads what follows `PROCEDURE`. -/
def readProcedure (line : Nat) (l : Listing) : List String → Except ListingFault Listing
  | [name] =>
    if l.procedures.any (·.name = name) then .error (.malformed line (.duplicateProcedure name))
    else .ok { l with draft := some { name } }
  | _ => .error (.malformed line .procedureShape)

/-- Reads what follows `NODE`. -/
def readNode (line : Nat) (d : Draft) (args : List String) : Except ListingFault Draft :=
  let node : Option Node :=
    match args with
    | [name, "STRAIGHT"] => some ⟨name, .straight []⟩
    | [name, "LOOP"] => some ⟨name, .loopHead []⟩
    | [name, "VIRTUAL", callee] => some ⟨name, .call callee⟩
    | _ => none
  match node with
  | some node => .ok { d with nodes := d.nodes ++ [⟨node, line⟩] }
  | none => .error (.malformed line .nodeShape)

/-- Reads what follows `EDGE`; a source `-` is outside the procedure. -/
def readEdge (line : Nat) (d : Draft) : List String → Except ListingFault Draft
  | [source, target] =>
    let source := if source = "-" then none else some source
    .ok { d with edges := d.edges ++ [⟨source, target, line⟩] }
  | _ => .error (.malformed line .edgeShape)

/-- Reads what follows `LOOP`. -/
def readLoop (line : Nat) (d : Draft) : List String → Except ListingFault Draft
  | header :: body => .ok { d with loops := d.loops ++ [⟨header, body, line⟩] }
  | [] => .error (.malformed line .loopShape)

/-- Reads the address and the text of an instruction. -/
def readInstruction (line : Nat) (s : List Char) : Except ListingFault Instruction :=
  match Text.cutAt (· == ':') s with
  | none => .error (.malformed line .codeShape)
  | some (address, text) => do
    let address ← readHex line (Text.trim address)
    return .decode address (String.ofList (Text.trim text))

/-- Reads an instruction into the last node of a draft. -/
def readCode (line : Nat) (d : Draft) (s : List Char) : Except ListingFault Draft :=
  match d.nodes.getLast? with
  | none => .error (.malformed line .outsideNode)
  | some last =>
    if last.node.isCall then .error (.malformed line (.codeInCall last.node.name))
    else do
      let i ← readInstruction line s
      match last.node.body.push? i with
      | none => throw (.malformed line (.codeInCall last.node.name))
      | some body =>
        let node : Node := { last.node with body }
        return { d with nodes := d.nodes.dropLast ++ [{ last with node }] }

/-- Reads a line outside procedures. -/
def readOutside (line : Nat) (l : Listing) (word : String) (args : List String) :
    Except ListingFault Listing :=
  match word with
  | "SEGMENT" => readSegment line l args
  | "PROCEDURE" => readProcedure line l args
  | "NODE" | "EDGE" | "LOOP" | "END" => .error (.malformed line (.outsideProcedure word))
  | word => .error (.malformed line (.unexpected word))

/-- Reads a line of a procedure. -/
def readInside (line : Nat) (l : Listing) (d : Draft) (s : List Char) (word : String)
    (args : List String) : Except ListingFault Listing :=
  let withDraft (d : Except ListingFault Draft) : Except ListingFault Listing :=
    d.map fun d => { l with draft := some d }
  match word with
  | "NODE" => withDraft (readNode line d args)
  | "EDGE" => withDraft (readEdge line d args)
  | "LOOP" => withDraft (readLoop line d args)
  | "END" => d.finish.map fun p => { l with procedures := l.procedures ++ [p], draft := none }
  | "SEGMENT" | "PROCEDURE" => .error (.malformed line (.insideProcedure word d.name))
  | _ => withDraft (readCode line d s)

/-- Reads one line. -/
def readLine (l : Listing) (line : Nat) (raw : List Char) : Except ListingFault Listing :=
  let s := Text.trim (dropComment raw)
  match (Text.words s).map String.ofList with
  | [] => .ok l
  | word :: args =>
    match l.draft with
    | none => readOutside line l word args
    | some d => readInside line l d s word args

/-- Reads lines, the first of which has the number `first`. -/
def readLines (l : Listing) (first : Nat) : List (List Char) → Except ListingFault Listing
  | [] => .ok l
  | raw :: rest => (l.readLine first raw).bind fun l => l.readLines (first + 1) rest

/-- The program of what was read, `count` being the number of lines. -/
def finish (l : Listing) (count : Nat) : Except ListingFault Program :=
  match l.draft with
  | some d => .error (.malformed count (.missingEnd d.name))
  | none =>
    if l.procedures.isEmpty then .error .noProcedure
    else .ok { segments := l.segments, procedures := l.procedures }

end Listing

/-- Reads a whole listing. -/
def Program.ofListing (text : String) : Except ListingFault Program :=
  let lines := Text.lines text.toList
  (({} : Listing).readLines 1 lines).bind fun l => l.finish lines.length

end CacheVerdict
