/-!
# Stable sorting

Sorting by insertion. Elements that the order does not tell apart keep their places.
-/

namespace CacheVerdict

variable {α : Type}

/-- Inserts an element before the first one that it is not above. -/
def insertBy (le : α → α → Bool) (a : α) : List α → List α
  | [] => [a]
  | b :: rest => if le a b then a :: b :: rest else b :: insertBy le a rest

/-- Sorts a list. -/
def sortBy (le : α → α → Bool) (l : List α) : List α :=
  l.foldr (insertBy le) []

end CacheVerdict
