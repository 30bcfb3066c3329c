/-!
# Queues

First come, first served. What has come lately is kept in reverse, and turned around only once
everything before it has been served, so that no element is moved more than once.
-/

namespace CacheVerdict

/-- Elements that wait for their turn. -/
structure Queue (α : Type) where
  /-- Those whose turn is next, in order. -/
  front : List α := []
  /-- Those that came after them, the last one first. -/
  back : List α := []
deriving DecidableEq, Repr

namespace Queue

variable {α : Type}

/-- The elements in the order of their turns. -/
def toList (q : Queue α) : List α :=
  q.front ++ q.back.reverse

/-- The queue of the given elements. -/
def ofList (l : List α) : Queue α :=
  ⟨l, []⟩

/-- Lets elements come, one after the other. -/
def pushAll (q : Queue α) (l : List α) : Queue α :=
  { q with back := l.reverseAux q.back }

/-- Serves the first element. -/
def pop? (q : Queue α) : Option (α × Queue α) :=
  match q.front with
  | a :: front => some (a, { q with front })
  | [] =>
    match q.back.reverse with
    | [] => none
    | a :: front => some (a, ⟨front, []⟩)

end Queue

end CacheVerdict
