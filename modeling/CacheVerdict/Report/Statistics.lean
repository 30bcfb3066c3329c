import CacheVerdict.Report.Table

/-!
# Interval statistics

Counts over the rows of single address intervals within a target range.
-/

namespace CacheVerdict

/-- Why statistics are refused. -/
inductive StatisticsFault where
  | nothingClassified
  | target (target span : AddressRange)
  | interval (interval target : AddressRange)
deriving DecidableEq, Repr

/-- The wording of a refusal. -/
def StatisticsFault.message : StatisticsFault → String
  | .nothingClassified => "statistics request out of range: no instruction was classified"
  | .target t span =>
    "statistics request out of range: target range " ++ t.render ++
      " is outside the analyzed range " ++ span.render
  | .interval i t =>
    "statistics request out of range: interval " ++ i.render ++
      " is empty or outside the target range " ++ t.render

/-- The counts of one interval. -/
structure IntervalCounts where
  interval : AddressRange
  counts : List Count
deriving DecidableEq

namespace IntervalCounts

/-- The text of an interval's counts. -/
def render (s : IntervalCounts) : String :=
  s!"INTERVAL {s.interval.render}\n" ++ String.join (s.counts.map Count.render)

end IntervalCounts

namespace Table

/-- The counts of one interval, which must be a range within the target. -/
def intervalCounts (t : Table) (target interval : AddressRange) :
    Except StatisticsFault IntervalCounts :=
  if interval.lo > interval.hi || !target.covers interval then .error (.interval interval target)
  else .ok ⟨interval, Count.ofRows (t.rows.filter fun r => interval.contains r.instruction)⟩

/-- The counts of intervals. The target must be a range within the span of the table. -/
def statistics (t : Table) (target : AddressRange) (intervals : List AddressRange) :
    Except StatisticsFault (List IntervalCounts) :=
  match t.span? with
  | none => .error .nothingClassified
  | some span =>
    if target.lo > target.hi || !span.covers target then .error (.target target span)
    else intervals.mapM (t.intervalCounts target)

end Table

end CacheVerdict
