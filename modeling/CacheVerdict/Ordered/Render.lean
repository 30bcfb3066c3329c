import CacheVerdict.Ordered.Map
import CacheVerdict.Ordered.Set

/-!
# Showing ordered containers

Elements and entries in their order, between braces.
-/

namespace CacheVerdict

/-- The texts of elements between braces. -/
def braced (items : List String) : String :=
  "\x7b" ++ ", ".intercalate items ++ "\x7d"

/-- Shows a set by the texts of its elements. -/
def OrderedSet.render {α : Type} [Ord α] (element : α → String) (s : OrderedSet α) : String :=
  braced (s.toList.map element)

/-- Shows a map by the texts of its keys and values. -/
def OrderedMap.render {κ ν : Type} [Ord κ] (key : κ → String) (value : ν → String)
    (m : OrderedMap κ ν) : String :=
  braced (m.entries.map fun e => key e.1 ++ ": " ++ value e.2)

end CacheVerdict
