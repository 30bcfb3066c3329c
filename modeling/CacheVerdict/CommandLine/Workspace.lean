import CacheVerdict.CommandLine.Place
import CacheVerdict.CommandLine.Plan
import CacheVerdict.Ordered.Map
import CacheVerdict.Ordered.Set

/-!
# Workspaces

A directory tree held in memory, on which plans can be carried out without touching a disk. Of what
lies around the working directory only the directories above it, the root, and the devices that
take or print text are known; the rest counts as empty and open to writing.
-/

namespace CacheVerdict.CommandLine

/-- A file that holds no text. -/
inductive Device where
  /-- What is written is lost. -/
  | sink
  /-- What is written is printed. -/
  | printer
  /-- No character fits in. -/
  | full
deriving DecidableEq, Repr

/-- The devices of any system, by their paths. -/
def devices : List (String × Device) :=
  [("/dev/null", .sink), ("/dev/zero", .sink), ("/dev/random", .sink), ("/dev/urandom", .sink),
    ("/dev/stdin", .sink), ("/dev/stderr", .sink), ("/dev/stdout", .printer), ("/dev/full", .full)]

/-- The device at a place. -/
def Place.device? (p : Place) : Option Device :=
  devices.lookup p.path

/-- The files and directories of a tree. -/
structure Workspace where
  files : OrderedMap Place String := {}
  directories : OrderedSet Place := {}

namespace Workspace

/-- Whether there is a directory at a place. -/
def isDirectory (w : Workspace) (p : Place) : Bool :=
  p.isAbove || w.directories.contains p

/-- Whether there is a file or a device at a place. -/
def isFile (w : Workspace) (p : Place) : Bool :=
  p.device?.isSome || w.files.contains p

/-- Follows one piece of a path into a directory that is there. -/
def enter? (w : Workspace) (p : Place) (piece : String) : Option Place :=
  if Route.isStill piece then some p
  else if piece = ".." then some p.up
  else if w.isDirectory (p.down piece) then some (p.down piece)
  else none

/-- The directory that a route leads to. -/
def follow? (w : Workspace) (r : Route) : Option Place :=
  r.pieces.foldlM w.enter? r.start

/-- The place of a file, whether or not it is there, in a directory that is. -/
def place? (w : Workspace) (path : String) : Option Place := do
  let (route, name) ← Route.ofFile? path
  return (← w.follow? route).down name

/-- The text of a file. -/
def read? (w : Workspace) (path : String) : Option String :=
  (w.place? path).bind w.files.get?

/-- Puts a text into a file. -/
def put? (w : Workspace) (p : Place) (text : String) : Option Workspace :=
  if w.isDirectory p then none else some { w with files := w.files.insert p text }

/-- Follows one piece of a path, and makes the directory where there is none. -/
def makeStep? (here : Workspace × Place) (piece : String) : Option (Workspace × Place) :=
  let (w, p) := here
  match w.enter? p piece with
  | some next => some (w, next)
  | none =>
    let next := p.down piece
    if w.isFile next || !Route.nameFits piece then none
    else some ({ w with directories := w.directories.insert next }, next)

/-- Makes the directories along a route. -/
def makeAlong? (w : Workspace) (r : Route) : Option Workspace :=
  (r.pieces.foldlM makeStep? (w, r.start)).map Prod.fst

/-- Makes a directory and those above it. Where the path ends in a dot, the directory has to be
there. -/
def makeDirectory? (w : Workspace) (path : String) : Option Workspace := do
  let route ← Route.ofPath? path
  if route.endsStill then (w.follow? route).map fun _ => w else w.makeAlong? route

/-- Makes the directories above a file, if that can be done. -/
def makeRoom (w : Workspace) (path : String) : Workspace :=
  ((Route.ofFile? path).bind fun (route, _) => w.makeAlong? route).getD w

/-- Makes an empty log file and the directories above it, as far as that can be done. -/
def openLog (w : Workspace) (path : String) : Workspace :=
  let w := w.makeRoom path
  ((w.place? path).bind fun p => if p.device?.isSome then none else w.put? p "").getD w

/-- The directories known outside the working directory. -/
def outside : Workspace where
  directories := .ofList [Place.root.down "dev", Place.root.down "tmp"]

/-- The workspace of given files. -/
def ofFiles (files : List (String × String)) : Workspace :=
  files.foldl (fun w (path, text) =>
    let w := w.makeRoom path
    ((w.place? path).bind fun p => w.put? p text).getD w) outside

/-- The files in the working directory, by their paths, that `before` does not hold with the same
text. -/
def changes (before w : Workspace) : List (String × String) :=
  (w.files.entries.filter fun (p, text) => p.isInside && before.files.get? p ≠ some text).map
    fun (p, text) => (p.path, text)

end Workspace

/-- What a run leaves behind. -/
structure Aftermath where
  exit : Nat
  printed : String := ""
  workspace : Workspace

namespace Aftermath

/-- Writes to a file or a device; none where that fails. -/
def write? (printed : String) (w : Workspace) (path text : String) :
    Option (String × Workspace) := do
  let p ← w.place? path
  match p.device? with
  | some .sink => return (printed, w)
  | some .printer => return (printed ++ text, w)
  | some .full => if text.isEmpty then return (printed, w) else none
  | none => return (printed, ← w.put? p text)

/-- Carries out actions until one fails. -/
def perform (printed : String) (w : Workspace) : List Action → String × Workspace × Bool
  | [] => (printed, w, true)
  | .print text :: rest => perform (printed ++ text) w rest
  | .write path text :: rest =>
    match write? printed w path text with
    | some (printed, w) => perform printed w rest
    | none => (printed, w, false)
  | .makeDirectory path :: rest =>
    match w.makeDirectory? path with
    | some w => perform printed w rest
    | none => (printed, w, false)
  | .openLog path :: rest => perform printed (w.openLog path) rest

end Aftermath

/-- Runs the program in a workspace. The exit code is 2 where the arguments are refused, and 1 where
the run fails. -/
def run (arguments : List String) (w : Workspace) : Aftermath :=
  match Options.ofArguments arguments with
  | .error _ => { exit := 2, workspace := w }
  | .ok o =>
    let plan := o.plan (w.read? o.listing)
    let (printed, w, done) := Aftermath.perform "" w plan.actions
    { exit := if done && plan.fault.isNone then 0 else 1, printed, workspace := w }

end CacheVerdict.CommandLine
