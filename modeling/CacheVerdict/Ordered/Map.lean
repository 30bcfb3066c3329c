import CacheVerdict.Ordered.Set

/-!
# Ordered maps

A finite map kept as the list of its entries in strictly increasing key order. The list is
determined by the look-ups, so equal maps are equal as values: this is what lets a fixed point be
recognised by comparing two states.
-/

namespace CacheVerdict

open Std (TransOrd LawfulEqOrd TransCmp LawfulEqCmp OrientedCmp)

/-- A finite map from `κ` to `ν`, its entries in strictly increasing order of their keys. -/
structure OrderedMap (κ ν : Type) [Ord κ] where
  entries : List (κ × ν)
  sorted : entries.Pairwise (fun a b => compare a.1 b.1 = .lt)
deriving DecidableEq

namespace OrderedMap

variable {κ ν ω : Type} [Ord κ]

instance : EmptyCollection (OrderedMap κ ν) := ⟨⟨[], List.Pairwise.nil⟩⟩

instance : Inhabited (OrderedMap κ ν) := ⟨{}⟩

/-- The value held for `k` in a list of entries. -/
def lookup (k : κ) : List (κ × ν) → Option ν
  | [] => none
  | (k', v) :: rest => if compare k k' = .eq then some v else lookup k rest

/-- The entries with `v` added at `k`; where `k` is held already, `pick old v` takes its place. -/
def place (pick : ν → ν → ν) (k : κ) (v : ν) : List (κ × ν) → List (κ × ν)
  | [] => [(k, v)]
  | (k', v') :: rest =>
    match compare k k' with
    | .lt => (k, v) :: (k', v') :: rest
    | .eq => (k', pick v' v) :: rest
    | .gt => (k', v') :: place pick k v rest

/-- A key after placing is the placed one or was there before. -/
theorem fst_mem_place {pick : ν → ν → ν} {k : κ} {v : ν} {l : List (κ × ν)} {e : κ × ν}
    (h : e ∈ place pick k v l) : e.1 = k ∨ ∃ e' ∈ l, e'.1 = e.1 := by
  induction l with
  | nil =>
    simp only [place, List.mem_singleton] at h
    exact .inl (by rw [h])
  | cons x rest ih =>
    obtain ⟨k', v'⟩ := x
    simp only [place] at h
    split at h
    · rcases List.mem_cons.1 h with rfl | h
      · exact .inl rfl
      · exact .inr ⟨e, h, rfl⟩
    · rcases List.mem_cons.1 h with rfl | h
      · exact .inr ⟨(k', v'), List.mem_cons_self, rfl⟩
      · exact .inr ⟨e, List.mem_cons_of_mem _ h, rfl⟩
    · rcases List.mem_cons.1 h with rfl | h
      · exact .inr ⟨(k', v'), List.mem_cons_self, rfl⟩
      · rcases ih h with h | ⟨e', h, he⟩
        · exact .inl h
        · exact .inr ⟨e', List.mem_cons_of_mem _ h, he⟩

/-- Placing keeps the keys in order. -/
theorem sorted_place [TransOrd κ] (pick : ν → ν → ν) (k : κ) (v : ν) {l : List (κ × ν)}
    (h : l.Pairwise (fun a b => compare a.1 b.1 = .lt)) :
    (place pick k v l).Pairwise (fun a b => compare a.1 b.1 = .lt) := by
  induction l with
  | nil => exact List.pairwise_singleton _ _
  | cons x rest ih =>
    obtain ⟨k', v'⟩ := x
    obtain ⟨hr, ht⟩ := List.pairwise_cons.1 h
    simp only [place]
    split
    · rename_i hlt
      refine List.pairwise_cons.2 ⟨fun e he => ?_, h⟩
      rcases List.mem_cons.1 he with rfl | he
      · exact hlt
      · exact TransCmp.lt_trans hlt (hr e he)
    · exact List.pairwise_cons.2 ⟨fun e he => hr e he, ht⟩
    · rename_i hgt
      refine List.pairwise_cons.2 ⟨fun e he => ?_, ih ht⟩
      rcases fst_mem_place he with he | ⟨e', he', heq⟩
      · rw [he]
        exact OrientedCmp.lt_of_gt hgt
      · have := hr e' he'
        rwa [heq] at this

/-- The value held for `k`, if any. -/
def get? (m : OrderedMap κ ν) (k : κ) : Option ν :=
  lookup k m.entries

/-- Whether a value is held for `k`. -/
def contains (m : OrderedMap κ ν) (k : κ) : Bool :=
  (m.get? k).isSome

/-- The keys, in order. -/
def keys (m : OrderedMap κ ν) : List κ :=
  m.entries.map Prod.fst

/-- The values, in the order of their keys. -/
def values (m : OrderedMap κ ν) : List ν :=
  m.entries.map Prod.snd

/-- The number of entries. -/
def size (m : OrderedMap κ ν) : Nat :=
  m.entries.length

/-- Whether there is no entry. -/
def isEmpty (m : OrderedMap κ ν) : Bool :=
  m.entries.isEmpty

/-- Adds `v` at `k`; where `k` is held already, `pick old v` takes its place. -/
def insertWith [TransOrd κ] (pick : ν → ν → ν) (m : OrderedMap κ ν) (k : κ) (v : ν) :
    OrderedMap κ ν :=
  ⟨place pick k v m.entries, sorted_place pick k v m.sorted⟩

/-- Holds `v` at `k`, in place of what was there. -/
def insert [TransOrd κ] (m : OrderedMap κ ν) (k : κ) (v : ν) : OrderedMap κ ν :=
  m.insertWith (fun _ new => new) k v

/-- Gives each entry a new value, or drops it. -/
def filterMap (f : κ → ν → Option ω) (m : OrderedMap κ ν) : OrderedMap κ ω where
  entries := m.entries.filterMap fun e => (f e.1 e.2).map (Prod.mk e.1)
  sorted := by
    refine List.Pairwise.filterMap _ ?_ m.sorted
    intro a b hab c hc d hd
    obtain ⟨_, _, rfl⟩ := Option.map_eq_some_iff.1 hc
    obtain ⟨_, _, rfl⟩ := Option.map_eq_some_iff.1 hd
    exact hab

/-- Keeps the entries that satisfy `p`. -/
def filter (p : κ → ν → Bool) (m : OrderedMap κ ν) : OrderedMap κ ν :=
  m.filterMap fun k v => if p k v then some v else none

/-- Applies `f` to every value. -/
def mapValues (f : ν → ω) (m : OrderedMap κ ν) : OrderedMap κ ω :=
  m.filterMap fun _ v => some (f v)

/-- Drops the entry of `k`. -/
def erase (m : OrderedMap κ ν) (k : κ) : OrderedMap κ ν :=
  m.filter fun k' _ => compare k' k != .eq

/-- The entries of two lists, where the left one starts at `k` and goes on with `l`; `below` merges
`l` with what is left on the right. -/
def mergeFrom (pick : ν → ν → ν) (k : κ) (v : ν) (l : List (κ × ν))
    (below : List (κ × ν) → List (κ × ν)) : List (κ × ν) → List (κ × ν)
  | [] => (k, v) :: l
  | (k', v') :: r =>
    match compare k k' with
    | .lt => (k, v) :: below ((k', v') :: r)
    | .eq => (k, pick v v') :: below r
    | .gt => (k', v') :: mergeFrom pick k v l below r

/-- The entries of two lists in order; `pick` chooses between the two values of a common key. -/
def mergeWith (pick : ν → ν → ν) : List (κ × ν) → List (κ × ν) → List (κ × ν)
  | [], r => r
  | (k, v) :: l, r => mergeFrom pick k v l (mergeWith pick l) r

/-- A key after merging was there before. -/
theorem fst_mem_mergeWith {pick : ν → ν → ν} {l r : List (κ × ν)} {e : κ × ν}
    (h : e ∈ mergeWith pick l r) : (∃ e' ∈ l, e'.1 = e.1) ∨ ∃ e' ∈ r, e'.1 = e.1 := by
  induction l generalizing r with
  | nil => exact .inr ⟨e, h, rfl⟩
  | cons x l ihl =>
    obtain ⟨k, v⟩ := x
    rw [mergeWith] at h
    induction r with
    | nil => exact .inl ⟨e, h, rfl⟩
    | cons y r ihr =>
      obtain ⟨k', v'⟩ := y
      simp only [mergeFrom] at h
      split at h
      · rcases List.mem_cons.1 h with rfl | h
        · exact .inl ⟨_, List.mem_cons_self, rfl⟩
        · exact (ihl h).imp_left fun ⟨e', he, heq⟩ => ⟨e', List.mem_cons_of_mem _ he, heq⟩
      · rcases List.mem_cons.1 h with rfl | h
        · exact .inl ⟨_, List.mem_cons_self, rfl⟩
        · exact (ihl h).imp (fun ⟨e', he, heq⟩ => ⟨e', List.mem_cons_of_mem _ he, heq⟩)
            fun ⟨e', he, heq⟩ => ⟨e', List.mem_cons_of_mem _ he, heq⟩
      · rcases List.mem_cons.1 h with rfl | h
        · exact .inr ⟨_, List.mem_cons_self, rfl⟩
        · exact (ihr h).imp_right fun ⟨e', he, heq⟩ => ⟨e', List.mem_cons_of_mem _ he, heq⟩

/-- Merging keeps the keys in order. -/
theorem sorted_mergeWith [TransOrd κ] [LawfulEqOrd κ] (pick : ν → ν → ν) {l r : List (κ × ν)}
    (hl : l.Pairwise (fun a b => compare a.1 b.1 = .lt))
    (hr : r.Pairwise (fun a b => compare a.1 b.1 = .lt)) :
    (mergeWith pick l r).Pairwise (fun a b => compare a.1 b.1 = .lt) := by
  induction l generalizing r with
  | nil => exact hr
  | cons x l ihl =>
    obtain ⟨k, v⟩ := x
    obtain ⟨hkl, hl'⟩ := List.pairwise_cons.1 hl
    rw [mergeWith]
    induction r with
    | nil => exact hl
    | cons y r ihr =>
      obtain ⟨k', v'⟩ := y
      obtain ⟨hkr, hr'⟩ := List.pairwise_cons.1 hr
      simp only [mergeFrom]
      split
      · rename_i hlt
        refine List.pairwise_cons.2 ⟨fun e he => ?_, ihl hl' hr⟩
        rcases fst_mem_mergeWith he with ⟨e', he', heq⟩ | ⟨e', he', heq⟩
        · exact heq ▸ hkl e' he'
        · rcases List.mem_cons.1 he' with rfl | he'
          · exact heq ▸ hlt
          · exact heq ▸ TransCmp.lt_trans hlt (hkr e' he')
      · rename_i heq
        obtain rfl := LawfulEqCmp.compare_eq_iff_eq.1 heq
        refine List.pairwise_cons.2 ⟨fun e he => ?_, ihl hl' hr'⟩
        rcases fst_mem_mergeWith he with ⟨e', he', heq⟩ | ⟨e', he', heq⟩
        · exact heq ▸ hkl e' he'
        · exact heq ▸ hkr e' he'
      · rename_i hgt
        have hlt := OrientedCmp.lt_of_gt hgt
        refine List.pairwise_cons.2 ⟨fun e he => ?_, ihr hr'⟩
        have he : e ∈ mergeWith pick ((k, v) :: l) r := he
        rcases fst_mem_mergeWith he with ⟨e', he', heq⟩ | ⟨e', he', heq⟩
        · rcases List.mem_cons.1 he' with rfl | he'
          · exact heq ▸ hlt
          · exact heq ▸ TransCmp.lt_trans hlt (hkl e' he')
        · exact heq ▸ hkr e' he'

/-- The entries of both maps; `pick` chooses between the two values of a common key. -/
def unionWith [TransOrd κ] [LawfulEqOrd κ] (pick : ν → ν → ν) (m n : OrderedMap κ ν) :
    OrderedMap κ ν :=
  ⟨mergeWith pick m.entries n.entries, sorted_mergeWith pick m.sorted n.sorted⟩

/-- The entries whose key both lists hold, where the left one starts at `k`; `below` treats the rest
of it and what is left on the right. -/
def commonFrom (pick : ν → ν → ν) (k : κ) (v : ν) (below : List (κ × ν) → List (κ × ν)) :
    List (κ × ν) → List (κ × ν)
  | [] => []
  | (k', v') :: r =>
    match compare k k' with
    | .lt => below ((k', v') :: r)
    | .eq => (k, pick v v') :: below r
    | .gt => commonFrom pick k v below r

/-- The entries whose key two lists in order both hold; `pick` chooses between the two values. -/
def commonWith (pick : ν → ν → ν) : List (κ × ν) → List (κ × ν) → List (κ × ν)
  | [], _ => []
  | (k, v) :: l, r => commonFrom pick k v (commonWith pick l) r

/-- A common key is a key of the left list. -/
theorem fst_mem_commonWith {pick : ν → ν → ν} {l r : List (κ × ν)} {e : κ × ν}
    (h : e ∈ commonWith pick l r) : ∃ e' ∈ l, e'.1 = e.1 := by
  induction l generalizing r with
  | nil => simp [commonWith] at h
  | cons x l ihl =>
    obtain ⟨k, v⟩ := x
    rw [commonWith] at h
    induction r with
    | nil => simp [commonFrom] at h
    | cons y r ihr =>
      obtain ⟨k', v'⟩ := y
      simp only [commonFrom] at h
      split at h
      · obtain ⟨e', he, heq⟩ := ihl h
        exact ⟨e', List.mem_cons_of_mem _ he, heq⟩
      · rcases List.mem_cons.1 h with rfl | h
        · exact ⟨_, List.mem_cons_self, rfl⟩
        · obtain ⟨e', he, heq⟩ := ihl h
          exact ⟨e', List.mem_cons_of_mem _ he, heq⟩
      · exact ihr h

/-- The common keys are in order. -/
theorem sorted_commonWith (pick : ν → ν → ν) {l : List (κ × ν)} (r : List (κ × ν))
    (hl : l.Pairwise (fun a b => compare a.1 b.1 = .lt)) :
    (commonWith pick l r).Pairwise (fun a b => compare a.1 b.1 = .lt) := by
  induction l generalizing r with
  | nil => exact List.Pairwise.nil
  | cons x l ihl =>
    obtain ⟨k, v⟩ := x
    obtain ⟨hkl, hl'⟩ := List.pairwise_cons.1 hl
    rw [commonWith]
    induction r with
    | nil => exact List.Pairwise.nil
    | cons y r ihr =>
      obtain ⟨k', v'⟩ := y
      simp only [commonFrom]
      split
      · exact ihl _ hl'
      · refine List.pairwise_cons.2 ⟨fun e he => ?_, ihl _ hl'⟩
        obtain ⟨e', he', heq⟩ := fst_mem_commonWith he
        exact heq ▸ hkl e' he'
      · exact ihr

/-- The keys that both maps hold; `pick` chooses between the two values. -/
def interWith (pick : ν → ν → ν) (m n : OrderedMap κ ν) : OrderedMap κ ν :=
  ⟨commonWith pick m.entries n.entries, sorted_commonWith pick n.entries m.sorted⟩

/-- Holds `v` at every element of a set. -/
def ofSet (s : OrderedSet κ) (v : ν) : OrderedMap κ ν where
  entries := s.toList.map fun k => (k, v)
  sorted := List.pairwise_map.2 s.sorted

/-- The map of the given pairs; of two pairs with one key the later wins. -/
def ofList [TransOrd κ] (l : List (κ × ν)) : OrderedMap κ ν :=
  l.foldr (fun e m => m.insertWith (fun old _ => old) e.1 e.2) {}

end OrderedMap

end CacheVerdict
