/-!
# Places

Where a path leads. A place is told by the steps to it from the working directory, steps up first,
or by those from the root, which then stands in front.
-/

namespace CacheVerdict.CommandLine

open Std (TransOrd LawfulEqOrd TransCmp LawfulEqCmp)

/-- The steps that lead to a file or directory. -/
structure Place where
  steps : List String
deriving DecidableEq, Repr

namespace Place

instance : Ord Place := ⟨compareOn steps⟩

instance : TransOrd Place := inferInstanceAs (TransCmp (compareOn _))

instance : LawfulEqOrd Place where
  eq_of_compare {a b} h := by
    have h : a.steps = b.steps := LawfulEqCmp.eq_of_compare h
    cases a
    cases b
    simp_all

/-- The working directory. -/
def working : Place := ⟨[]⟩

/-- The root of all directories. -/
def root : Place := ⟨["/"]⟩

/-- The directory above. The root is above itself. -/
def up (p : Place) : Place :=
  match p.steps.getLast? with
  | none => ⟨[".."]⟩
  | some last =>
    if last = "/" then p
    else if last = ".." then ⟨p.steps ++ [".."]⟩
    else ⟨p.steps.dropLast⟩

/-- What has the given name in the directory. -/
def down (p : Place) (name : String) : Place :=
  ⟨p.steps ++ [name]⟩

/-- Whether the place is a directory of any system: the working directory, the root, and what is
above them. -/
def isAbove (p : Place) : Bool :=
  p = root || p.steps.all (· = "..")

/-- Whether the place lies in the working directory or below. -/
def isInside (p : Place) : Bool :=
  match p.steps with
  | [] => true
  | first :: _ => first ≠ ".." && first ≠ "/"

/-- The shortest path of the place. -/
def path (p : Place) : String :=
  match p.steps with
  | "/" :: rest => "/" ++ "/".intercalate rest
  | steps => "/".intercalate steps

end Place

/-- A path cut at its separators. -/
structure Route where
  start : Place
  pieces : List String
deriving DecidableEq, Repr

namespace Route

/-- The longest name of a file or directory, in bytes. -/
def nameLimit : Nat := 255

/-- The longest path, in bytes. -/
def pathLimit : Nat := 4095

/-- Whether a system can hold a file of that name. -/
def nameFits (name : String) : Bool :=
  name.utf8ByteSize ≤ nameLimit

/-- Cuts a path. A path that is too long or holds a zero character leads nowhere. -/
def ofPath? (path : String) : Option Route :=
  if pathLimit < path.utf8ByteSize || path.toList.contains '\x00' then none
  else
    some {
      start := if path.toList.head? = some '/' then .root else .working
      pieces := (path.toList.splitOnP (· == '/')).map String.ofList }

/-- Whether a piece makes no step. -/
def isStill (piece : String) : Bool :=
  piece = "" || piece = "."

/-- Whether a piece names something in the directory before it. -/
def isName (piece : String) : Bool :=
  !isStill piece && piece ≠ ".."

/-- The route to the directory of a file, and the file's name. A path that ends as only a
directory's can names no file. -/
def ofFile? (path : String) : Option (Route × String) := do
  let route ← ofPath? path
  let name ← route.pieces.getLast?
  if isName name && nameFits name then
    return ({ route with pieces := route.pieces.dropLast }, name)
  else none

/-- Whether the route ends by staying where it is, with a dot. -/
def endsStill (r : Route) : Bool :=
  (r.pieces.filter (· ≠ "")).getLast? = some "."

end Route

end CacheVerdict.CommandLine
