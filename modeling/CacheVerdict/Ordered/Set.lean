/-!
# Ordered sets

A finite set kept as the list of its elements in strictly increasing order, so that two sets with
the same elements are equal as values.
-/

namespace CacheVerdict

open Std (TransOrd LawfulEqOrd TransCmp LawfulEqCmp OrientedCmp)

/-- A finite set of `α`, its elements in strictly increasing order. -/
structure OrderedSet (α : Type) [Ord α] where
  toList : List α
  sorted : toList.Pairwise (fun a b => compare a b = .lt)
deriving DecidableEq

namespace OrderedSet

variable {α β : Type} [Ord α]

instance : EmptyCollection (OrderedSet α) := ⟨⟨[], List.Pairwise.nil⟩⟩

instance : Inhabited (OrderedSet α) := ⟨{}⟩

instance : Membership α (OrderedSet α) := ⟨fun s a => a ∈ s.toList⟩

instance [DecidableEq α] (a : α) (s : OrderedSet α) : Decidable (a ∈ s) :=
  inferInstanceAs (Decidable (a ∈ s.toList))

/-- The elements with `a` put in its place, once. -/
def place (a : α) : List α → List α
  | [] => [a]
  | b :: rest =>
    match compare a b with
    | .lt => a :: b :: rest
    | .eq => b :: rest
    | .gt => b :: place a rest

/-- An element after placing is the placed one or was there before. -/
theorem mem_of_mem_place {a b : α} {l : List α} (h : b ∈ place a l) : b = a ∨ b ∈ l := by
  induction l with
  | nil => exact .inl (List.mem_singleton.1 h)
  | cons c rest ih =>
    simp only [place] at h
    split at h
    · exact List.mem_cons.1 h
    · exact .inr h
    · rcases List.mem_cons.1 h with rfl | h
      · exact .inr List.mem_cons_self
      · exact (ih h).imp_right (List.mem_cons_of_mem _)

/-- Placing keeps the order. -/
theorem sorted_place [TransOrd α] (a : α) {l : List α}
    (h : l.Pairwise (fun a b => compare a b = .lt)) :
    (place a l).Pairwise (fun a b => compare a b = .lt) := by
  induction l with
  | nil => exact List.pairwise_singleton _ _
  | cons b rest ih =>
    obtain ⟨hr, ht⟩ := List.pairwise_cons.1 h
    simp only [place]
    split
    · rename_i hlt
      refine List.pairwise_cons.2 ⟨fun c hc => ?_, h⟩
      rcases List.mem_cons.1 hc with rfl | hc
      · exact hlt
      · exact TransCmp.lt_trans hlt (hr c hc)
    · exact h
    · rename_i hgt
      refine List.pairwise_cons.2 ⟨fun c hc => ?_, ih ht⟩
      rcases mem_of_mem_place hc with rfl | hc
      · exact OrientedCmp.lt_of_gt hgt
      · exact hr c hc

/-- Whether `a` is an element. -/
def contains [DecidableEq α] (s : OrderedSet α) (a : α) : Bool :=
  decide (a ∈ s)

/-- The number of elements. -/
def size (s : OrderedSet α) : Nat :=
  s.toList.length

/-- Whether there is no element. -/
def isEmpty (s : OrderedSet α) : Bool :=
  s.toList.isEmpty

/-- Adds one element. -/
def insert [TransOrd α] (s : OrderedSet α) (a : α) : OrderedSet α :=
  ⟨place a s.toList, sorted_place a s.sorted⟩

/-- The set of the elements of a list. -/
def ofList [TransOrd α] (l : List α) : OrderedSet α :=
  l.foldr (fun a s => s.insert a) {}

/-- The elements of two lists, where the left one starts at `a` and goes on with `l`; `below` merges
`l` with what is left on the right. -/
def mergeFrom (a : α) (l : List α) (below : List α → List α) : List α → List α
  | [] => a :: l
  | b :: r =>
    match compare a b with
    | .lt => a :: below (b :: r)
    | .eq => a :: below r
    | .gt => b :: mergeFrom a l below r

/-- The elements of two lists in order, each once. -/
def merge : List α → List α → List α
  | [], r => r
  | a :: l, r => mergeFrom a l (merge l) r

/-- Merging adds no element. -/
theorem mem_of_mem_merge {l r : List α} {c : α} (h : c ∈ merge l r) : c ∈ l ∨ c ∈ r := by
  induction l generalizing r with
  | nil => exact .inr h
  | cons a l ihl =>
    rw [merge] at h
    induction r with
    | nil => exact .inl h
    | cons b r ihr =>
      simp only [mergeFrom] at h
      split at h
      · rcases List.mem_cons.1 h with rfl | h
        · exact .inl List.mem_cons_self
        · exact (ihl h).imp_left (List.mem_cons_of_mem _)
      · rcases List.mem_cons.1 h with rfl | h
        · exact .inl List.mem_cons_self
        · exact (ihl h).imp (List.mem_cons_of_mem _) (List.mem_cons_of_mem _)
      · rcases List.mem_cons.1 h with rfl | h
        · exact .inr List.mem_cons_self
        · exact (ihr h).imp_right (List.mem_cons_of_mem _)

/-- Merging keeps the order. -/
theorem sorted_merge [TransOrd α] [LawfulEqOrd α] {l r : List α}
    (hl : l.Pairwise (fun a b => compare a b = .lt))
    (hr : r.Pairwise (fun a b => compare a b = .lt)) :
    (merge l r).Pairwise (fun a b => compare a b = .lt) := by
  induction l generalizing r with
  | nil => exact hr
  | cons a l ihl =>
    obtain ⟨hal, hl'⟩ := List.pairwise_cons.1 hl
    rw [merge]
    induction r with
    | nil => exact hl
    | cons b r ihr =>
      obtain ⟨hbr, hr'⟩ := List.pairwise_cons.1 hr
      simp only [mergeFrom]
      split
      · rename_i hlt
        refine List.pairwise_cons.2 ⟨fun c hc => ?_, ihl hl' hr⟩
        rcases mem_of_mem_merge hc with hc | hc
        · exact hal c hc
        · rcases List.mem_cons.1 hc with rfl | hc
          · exact hlt
          · exact TransCmp.lt_trans hlt (hbr c hc)
      · rename_i heq
        obtain rfl := LawfulEqCmp.compare_eq_iff_eq.1 heq
        refine List.pairwise_cons.2 ⟨fun c hc => ?_, ihl hl' hr'⟩
        exact (mem_of_mem_merge hc).elim (hal c) (hbr c)
      · rename_i hgt
        have hlt := OrientedCmp.lt_of_gt hgt
        refine List.pairwise_cons.2 ⟨fun c hc => ?_, ihr hr'⟩
        have hc : c ∈ merge (a :: l) r := hc
        rcases mem_of_mem_merge hc with hc | hc
        · rcases List.mem_cons.1 hc with rfl | hc
          · exact hlt
          · exact TransCmp.lt_trans hlt (hal c hc)
        · exact hbr c hc

/-- The elements of either set. -/
def union [TransOrd α] [LawfulEqOrd α] (s t : OrderedSet α) : OrderedSet α :=
  ⟨merge s.toList t.toList, sorted_merge s.sorted t.sorted⟩

/-- Adds every element of a list. -/
def insertAll [TransOrd α] [LawfulEqOrd α] (s : OrderedSet α) (l : List α) : OrderedSet α :=
  s.union (ofList l)

/-- The elements that satisfy `p`. -/
def filter (p : α → Bool) (s : OrderedSet α) : OrderedSet α :=
  ⟨s.toList.filter p, s.sorted.filter p⟩

/-- Drops one element. -/
def erase [DecidableEq α] (s : OrderedSet α) (a : α) : OrderedSet α :=
  s.filter fun b => b ≠ a

/-- The images of the elements under `f`. -/
def map [Ord β] [TransOrd β] (f : α → β) (s : OrderedSet α) : OrderedSet β :=
  ofList (s.toList.map f)

/-- The numbers below `n`. -/
def below (n : Nat) : OrderedSet Nat where
  toList := List.range n
  sorted := List.pairwise_lt_range.imp fun h => Nat.compare_eq_lt.2 h

end OrderedSet

end CacheVerdict
