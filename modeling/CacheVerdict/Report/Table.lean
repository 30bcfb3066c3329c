import CacheVerdict.Analysis.Verdict
import CacheVerdict.Ordered.Sort
import CacheVerdict.Report.AddressRange

/-!
# Tables of verdicts

The verdicts of a program as rows in a fixed order, their counts by level and classification, and
the text of both.
-/

namespace CacheVerdict

/-- One access at one level, by the names that reports use. -/
structure Row where
  procedure : String
  node : String
  instruction : Address
  kind : AccessKind
  level : Level
  reach : Reach
  loop : Option String
  classification : Classification
deriving DecidableEq, Repr

namespace Row

/-- The order of rows: by procedure, instruction, kind and level. -/
def order : Row → Row → Ordering :=
  compareLex (compareOn procedure)
    (compareLex (compareOn instruction) (compareLex (compareOn kind) (compareOn level)))

/-- The text of a row. -/
def render (r : Row) : String :=
  "\t" ++ "\t".intercalate [r.procedure, r.node, Numeral.hex r.instruction.toNat, r.kind.label,
    r.level.label, r.reach.label, r.loop.getD "-", r.classification.label] ++ "\n"

end Row

/-- How often a classification occurs at a level. -/
structure Count where
  level : Level
  classification : Classification
  count : Nat
deriving DecidableEq, Repr

namespace Count

/-- The counts over rows that are not zero, by level and classification. -/
def ofRows (rows : List Row) : List Count :=
  Level.all.flatMap fun level =>
    Classification.all.filterMap fun classification =>
      let count := rows.countP fun r => r.level = level && r.classification = classification
      if count = 0 then none else some ⟨level, classification, count⟩

/-- The text of a count. -/
def render (c : Count) : String :=
  s!"\t{c.level.label}\t{c.classification.label}\t{c.count}\n"

end Count

/-- The rows of a program, in their order. -/
structure Table where
  rows : List Row
deriving DecidableEq

namespace Table

/-- Puts rows in order; rows that the order does not tell apart keep their places. -/
def ofRows (rows : List Row) : Table :=
  ⟨sortBy (fun a b => (Row.order a b).isLE) rows⟩

/-- The first row of an instruction, kind and level. -/
def find? (t : Table) (instruction : Address) (kind : AccessKind) (level : Level) : Option Row :=
  t.rows.find? fun r => r.instruction = instruction && r.kind = kind && r.level = level

/-- From the lowest to the highest instruction address. -/
def span? (t : Table) : Option AddressRange := do
  let addresses := t.rows.map Row.instruction
  return ⟨← addresses.min?, ← addresses.max?⟩

/-- The text of the table and of its counts. -/
def render (t : Table) : String :=
  "CHMC\n" ++ String.join (t.rows.map Row.render) ++ "\nSUMMARY\n" ++
    String.join ((Count.ofRows t.rows).map Count.render)

end Table

end CacheVerdict
