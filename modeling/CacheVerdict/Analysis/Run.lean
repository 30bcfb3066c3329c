import CacheVerdict.Analysis.Refine
import CacheVerdict.Report.Table

/-!
# Analysing programs

The whole analysis: every access is classified, accesses in loops are refined if the settings ask
for it, and the verdicts become the rows of a table.
-/

namespace CacheVerdict

/-- Why a program is not analysed. -/
inductive AnalysisFault where
  | noProcedure
  | unsettled (visits : Nat)
deriving DecidableEq, Repr

/-- The wording of a refusal. -/
def AnalysisFault.message : AnalysisFault → String
  | .noProcedure => "missing required input: program has no procedure"
  | .unsettled visits => s!"no fixed point within {visits} visits"

namespace Study

/-- The study of a program that has a procedure. -/
def prepare (program : Program) (hierarchy : Hierarchy) (settings : Settings) :
    Except AnalysisFault Study :=
  if program.procedures.isEmpty then .error .noProcedure
  else .ok (ofProgram program hierarchy settings)

/-- The row of a verdict. -/
def row (s : Study) (key : AccessKey) (v : Verdict) : Row :=
  let procedure := s.procedure key.procedure
  { procedure := procedure.name
    node := (procedure.nodes[key.site.node]?.map Node.name).getD ""
    instruction := key.site.instruction
    kind := key.site.kind
    level := key.level
    reach := v.reach
    loop := v.loop.bind procedure.loopName?
    classification := v.classification }

/-- The table of all verdicts. -/
def table (s : Study) (f : Findings) : Table :=
  .ofRows (f.verdicts.entries.map fun e => s.row e.1 e.2)

/-- The findings as the table shows them, from the classified ones. -/
def settle (s : Study) (fuel : Nat) (f : Findings) : Option Findings :=
  if s.settings.persistence then s.refine fuel f else some f

end Study

/-- How many visits a fixed point may take. Those of the must and may analyses end by themselves
long before; the one for persistence need not end at all. -/
def visitLimit : Nat :=
  Nat.pow 2 40

/-- The table of a program. -/
def Program.analyse (program : Program) (hierarchy : Hierarchy) (settings : Settings) :
    Except AnalysisFault Table := do
  let study ← Study.prepare program hierarchy settings
  match (study.classify visitLimit).bind (study.settle visitLimit) with
  | some findings => return study.table findings
  | none => throw (.unsettled visitLimit)

end CacheVerdict
