import CacheVerdict.Report.AddressRange
import CacheVerdict.Settings

/-!
# Command-line options

The options of the `analyze` command. Arguments are first cut into occurrences of options, switches
and plain words; each occurrence then sets one field. An option or a switch is given at most once,
unless it is one of those that add up. Of the occurrences of an option one at least has a value.
-/

namespace CacheVerdict.CommandLine

/-- An option that takes a value. -/
inductive Setting where
  | l1i
  | l1d
  | l2
  | backtrackBudget
  | stackBase
  | outputTable
  | outputStatistics
  | targetRange
  | interval
  | drawings
  | log
  | flag
deriving DecidableEq, Repr

namespace Setting

/-- Every option that takes a value. -/
def all : List Setting :=
  [.l1i, .l1d, .l2, .backtrackBudget, .stackBase, .outputTable, .outputStatistics, .targetRange,
    .interval, .drawings, .log, .flag]

/-- The name of the option, behind two dashes. -/
def name : Setting → String
  | .l1i => "l1i"
  | .l1d => "l1d"
  | .l2 => "l2"
  | .backtrackBudget => "backtrack-budget"
  | .stackBase => "stack-base"
  | .outputTable => "output-chmc"
  | .outputStatistics => "output-statistics"
  | .targetRange => "target-range"
  | .interval => "interval"
  | .drawings => "debug-output-graphviz"
  | .log => "log"
  | .flag => "advanced-config"

/-- Whether the option may be given more than once. -/
def repeats : Setting → Bool
  | .interval => true
  | .flag => true
  | _ => false

end Setting

/-- An option without a value. -/
inductive Switch where
  | noL2
  | silentTerminal
  | blockingTerminal
  | verbose
deriving DecidableEq, Repr

namespace Switch

/-- Every option without a value. -/
def all : List Switch :=
  [.noL2, .silentTerminal, .blockingTerminal, .verbose]

/-- The name of the switch, behind two dashes. -/
def name : Switch → String
  | .noL2 => "no-l2"
  | .silentTerminal => "debug-disable-terminal-logging"
  | .blockingTerminal => "debug-forced-blocking-terminal-logging"
  | .verbose => "debug"

/-- Whether the switch may be given more than once. -/
def repeats : Switch → Bool
  | .verbose => true
  | _ => false

end Switch

/-- Why arguments are refused. -/
inductive UsageFault where
  | noCommand
  | unknownArgument (text : String)
  | missingValue (name : String)
  | needlessValue (name : String)
  | repeated (name : String)
  | badValue (name reason : String)
  | noListing
  | extraWord (text : String)
deriving DecidableEq, Repr

/-- The wording of a refusal. -/
def UsageFault.message : UsageFault → String
  | .noCommand => "expected the command `analyze`"
  | .unknownArgument text => s!"unknown argument `{text}`"
  | .missingValue name => s!"`--{name}` needs a value"
  | .needlessValue name => s!"`--{name}` takes no value"
  | .repeated name => s!"`--{name}` is given more than once"
  | .badValue name reason => s!"bad value for `--{name}`: {reason}"
  | .noListing => "expected the path of a listing"
  | .extraWord text => s!"unexpected argument `{text}`"

/-- One piece of the command line. -/
inductive Occurrence where
  | word (text : String)
  /-- An option, with its value unless that is left out. -/
  | setting (setting : Setting) (value : Option String)
  | switch (switch : Switch)
deriving DecidableEq, Repr

/-- Reads the options behind one dash: any number of `d`, then possibly `Z` with the rest as its
value. The second part of the answer says that the value of `Z` is the next argument. -/
def readShort (argument : String) : List Char → Except UsageFault (List Occurrence × Bool)
  | [] => .ok ([], false)
  | 'd' :: rest => do
    let (found, waits) ← readShort argument rest
    return (.switch .verbose :: found, waits)
  | ['Z'] => .ok ([], true)
  | 'Z' :: '=' :: value => .ok ([.setting .flag (some (String.ofList value))], false)
  | 'Z' :: value => .ok ([.setting .flag (some (String.ofList value))], false)
  | _ => .error (.unknownArgument argument)

/-- What an option behind two dashes is, by its name and the value attached to it. Without an
attached value the option may wait for the next argument. -/
def readLong (argument : String) (name : String) (value : Option String) :
    Except UsageFault (Occurrence ⊕ Setting) :=
  match Setting.all.find? (·.name = name), Switch.all.find? (·.name = name), value with
  | some setting, _, some value => .ok (.inl (.setting setting (some value)))
  | some setting, _, none => .ok (.inr setting)
  | none, some switch, none => .ok (.inl (.switch switch))
  | none, some _, some _ => .error (.needlessValue name)
  | none, none, _ => .error (.unknownArgument argument)

/-- The name and the attached value of an option behind two dashes. -/
def splitLong (s : List Char) : String × Option String :=
  match Text.cutAt (· == '=') s with
  | some (name, value) => (String.ofList name, some (String.ofList value))
  | none => (String.ofList s, none)

/-- Cuts arguments into occurrences; `waiting` is the option whose value comes next, unless another
option comes first. Behind `--` all arguments are words. -/
def occurrences (waiting : Option Setting) : List String → Except UsageFault (List Occurrence)
  | [] => .ok (left waiting)
  | argument :: rest =>
    match argument.toList with
    | ['-', '-'] => .ok (left waiting ++ rest.map .word)
    | '-' :: '-' :: s => do
      let (name, value) := splitLong s
      match ← readLong argument name value with
      | .inl found => return left waiting ++ found :: (← occurrences none rest)
      | .inr setting => return left waiting ++ (← occurrences (some setting) rest)
    | '-' :: c :: s => do
      let (found, waits) ← readShort argument (c :: s)
      return left waiting ++ found ++ (← occurrences (if waits then some .flag else none) rest)
    | _ =>
      let found := match waiting with
        | some setting => .setting setting (some argument)
        | none => .word argument
      return found :: (← occurrences none rest)
where
  /-- An option that waits in vain. -/
  left (waiting : Option Setting) : List Occurrence :=
    (waiting.map fun setting => .setting setting none).toList

/-- What the `analyze` command is asked to do. -/
structure Options where
  listing : String := ""
  l1i : Dimensions := ⟨65536, 1, 64⟩
  l1d : Dimensions := ⟨65536, 2, 64⟩
  l2 : Dimensions := ⟨524288, 4, 64⟩
  noL2 : Bool := false
  nodeBudget : Nat := 100
  stackBase : Address := 0x7ffff000
  outputTable : Option String := none
  outputStatistics : Option String := none
  targetRange : Option AddressRange := none
  intervals : List AddressRange := []
  drawings : Option String := none
  log : Option String := none
  /-- How often more records are asked for. -/
  verbosity : Nat := 0
  flags : List Flag := []

namespace Options

/-- The settings of the analysis. -/
def settings (o : Options) : Settings :=
  { Settings.ofFlags o.flags with nodeBudget := o.nodeBudget, stackBase := o.stackBase }

/-- Sets the field of an option to its value. -/
def set (o : Options) (setting : Setting) (value : String) : Except UsageFault Options :=
  let bad {ε α : Type} (message : ε → String) (read : Except ε α) : Except UsageFault α :=
    read.mapError fun fault => .badValue setting.name (message fault)
  match setting with
  | .l1i => do return { o with l1i := ← bad DimensionsFault.message (Dimensions.read value) }
  | .l1d => do return { o with l1d := ← bad DimensionsFault.message (Dimensions.read value) }
  | .l2 => do return { o with l2 := ← bad DimensionsFault.message (Dimensions.read value) }
  | .backtrackBudget => do
    let budget ← bad NumeralFault.message (Numeral.read 10 UInt64.size value.toList)
    return { o with nodeBudget := budget }
  | .stackBase => do
    return { o with stackBase := ← bad AddressFault.message (Address.read value.toList) }
  | .outputTable => .ok { o with outputTable := some value }
  | .outputStatistics => .ok { o with outputStatistics := some value }
  | .targetRange => do
    return { o with targetRange := some (← bad AddressFault.message (AddressRange.read value)) }
  | .interval => do
    let interval ← bad AddressFault.message (AddressRange.read value)
    return { o with intervals := o.intervals ++ [interval] }
  | .drawings => .ok { o with drawings := some value }
  | .log => .ok { o with log := some value }
  | .flag =>
    match Flag.ofName? value with
    | some flag => .ok { o with flags := o.flags ++ [flag] }
    | none => .error (.badValue setting.name (UnknownFlag.message ⟨value⟩))

/-- Sets what one occurrence says; words are left to `ofOccurrences`. -/
def apply (o : Options) : Occurrence → Except UsageFault Options
  | .word _ => .ok o
  | .setting setting (some value) => o.set setting value
  | .setting _ none => .ok o
  | .switch .noL2 => .ok { o with noL2 := true }
  | .switch .verbose => .ok { o with verbosity := o.verbosity + 1 }
  | .switch _ => .ok o

/-- The first option or switch that is given again though it may not be. -/
def repeated? : List Occurrence → Option String
  | [] => none
  | .word _ :: rest => repeated? rest
  | .setting setting _ :: rest =>
    let again := rest.any fun o =>
      match o with
      | .setting other _ => other = setting
      | _ => false
    if again && !setting.repeats then some setting.name else repeated? rest
  | .switch switch :: rest =>
    if rest.contains (.switch switch) && !switch.repeats then some switch.name else repeated? rest

/-- The first option that is given, but never with a value. -/
def valueless? (found : List Occurrence) : Option String :=
  found.findSome? fun o =>
    match o with
    | .setting setting none =>
      let given := found.any fun other =>
        match other with
        | .setting same (some _) => same = setting
        | _ => false
      if given then none else some setting.name
    | _ => none

/-- The options of occurrences, which hold exactly one word: the path of the listing. -/
def ofOccurrences (found : List Occurrence) : Except UsageFault Options := do
  if let some name := repeated? found then throw (.repeated name)
  if let some name := valueless? found then throw (.missingValue name)
  let words := found.filterMap fun o =>
    match o with
    | .word text => some text
    | _ => none
  match words with
  | [] => throw .noListing
  | [listing] => found.foldlM apply { listing }
  | _ :: extra :: _ => throw (.extraWord extra)

/-- The options of an argument list. -/
def ofArguments : List String → Except UsageFault Options
  | "analyze" :: rest => do ofOccurrences (← occurrences none rest)
  | _ => .error .noCommand

end Options

end CacheVerdict.CommandLine
