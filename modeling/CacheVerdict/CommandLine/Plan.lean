import CacheVerdict.Analysis.Run
import CacheVerdict.CommandLine.Options
import CacheVerdict.Listing.Reader
import CacheVerdict.Report.Drawing
import CacheVerdict.Report.Statistics

/-!
# Plans

What a run of the `analyze` command prints and writes, in order, as far as it gets. A plan is made
without touching any file but the listing.
-/

namespace CacheVerdict.CommandLine

/-- Something that a run does to the outside. -/
inductive Action where
  | print (text : String)
  | write (path text : String)
  | makeDirectory (path : String)
  /-- Starts a log file. A log that cannot be written stops nothing. -/
  | openLog (path : String)
deriving DecidableEq, Repr

/-- Why a run fails. -/
inductive RunFault where
  | hierarchy (fault : HierarchyFault)
  | unreadable (path : String)
  | listing (fault : ListingFault)
  | analysis (fault : AnalysisFault)
deriving DecidableEq, Repr

/-- The wording of a failure. -/
def RunFault.message : RunFault → String
  | .hierarchy fault => fault.message
  | .unreadable path => s!"cannot read `{path}`"
  | .listing fault => fault.message
  | .analysis fault => fault.message

/-- The actions of a run, and the fault that ends it, if one does. -/
structure Plan where
  actions : List Action
  fault : Option RunFault := none

namespace Options

/-- The hierarchy that the options describe. -/
def hierarchy (o : Options) : Except HierarchyFault Hierarchy := do
  let l1i ← Hierarchy.geometryAt .l1i o.l1i
  let l1d ← Hierarchy.geometryAt .l1d o.l1d
  let l2 ← if o.noL2 then pure [] else do pure [(Level.l2, ← Hierarchy.geometryAt .l2 o.l2)]
  Hierarchy.assemble ([(.l1i, l1i), (.l1d, l1d)] ++ l2)

/-- The program and its table, `listing` being the text of the listing where it can be read. -/
def analyse (o : Options) (listing : Option String) : Except RunFault (Program × Table) := do
  let hierarchy ← o.hierarchy.mapError .hierarchy
  let some text := listing | throw (.unreadable o.listing)
  let program ← (Program.ofListing text).mapError .listing
  let table ← (program.analyse hierarchy o.settings).mapError .analysis
  return (program, table)

/-- Writes to a file where one is named, else prints. -/
def output (path : Option String) (text : String) : Action :=
  match path with
  | some path => .write path text
  | none => .print text

/-- The opening of the log, if there is something to record. -/
def logActions (o : Options) (speaks : Bool) : List Action :=
  if speaks then (o.log.map Action.openLog).toList else []

/-- The statistics asked for. -/
def statistics? (o : Options) (t : Table) : Option (Except StatisticsFault (List IntervalCounts)) :=
  o.targetRange.map fun target => t.statistics target o.intervals

/-- The output of statistics. A request out of range gives none. -/
def statisticsActions (o : Options) (t : Table) : List Action :=
  match o.statistics? t with
  | some (.ok found) => [output o.outputStatistics (String.join (found.map IntervalCounts.render))]
  | _ => []

/-- Whether no statistics come of what was asked for: a request is out of range, or there are
intervals without a target. -/
def skipsStatistics (o : Options) (t : Table) : Bool :=
  match o.statistics? t with
  | none => !o.intervals.isEmpty
  | some (.error _) => true
  | some (.ok _) => false

/-- The path of a file in a directory. -/
def joinPath (directory file : String) : String :=
  if directory.isEmpty || file.startsWith "/" then file
  else if directory.endsWith "/" then directory ++ file
  else directory ++ "/" ++ file

/-- The output of drawings, one file for each procedure. -/
def drawingActions (o : Options) (program : Program) (t : Table) : List Action :=
  match o.drawings with
  | none => []
  | some directory =>
    .makeDirectory directory :: program.procedures.map fun p =>
      .write (joinPath directory (p.name ++ ".dot")) (p.draw t)

/-- Whether the analysis has something to warn of: a call out of the program, or a cycle of calls. -/
def warns (program : Program) : Bool :=
  !program.callOrder.recursive.isEmpty ||
    program.procedures.any fun p => p.callees.any fun c => (program.procedureNamed? c).isNone

/-- The plan of a run. A fault and a warning are recorded; what goes well is recorded only on demand.
Records do not hold up a run, so a log that starts late is there only after the other output. -/
def plan (o : Options) (listing : Option String) : Plan :=
  match o.analyse listing with
  | .error fault => { actions := o.logActions true, fault := some fault }
  | .ok (program, table) =>
    let early := 0 < o.verbosity || warns program
    { actions := o.logActions early ++ [output o.outputTable table.render] ++
        o.statisticsActions table ++ o.drawingActions program table ++
        o.logActions (!early && o.skipsStatistics table) }

end Options

end CacheVerdict.CommandLine
