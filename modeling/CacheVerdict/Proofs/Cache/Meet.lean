import CacheVerdict.Cache.May
import CacheVerdict.Cache.Must
import CacheVerdict.Cache.Persistence
import CacheVerdict.Proofs.Cache.Candidates

/-!
# Where several descriptions meet

What several descriptions of a cache say together, line by line. Main statement, for each kind of
description: an access to one of several lines leaves what the accesses to each of them have in
common.
-/

namespace CacheVerdict

namespace MustCache

/-- The ages where several descriptions meet. -/
lemma get?_foldl_merge (f : Line → MustCache) (s : MustCache) (l : List Line) (x : Line) :
    (l.foldl (fun s other => Abstraction.merge s (f other)) s).lines.get? x =
      l.foldl (fun v other => AgedLines.olderOfBoth v ((f other).lines.get? x))
        (s.lines.get? x) := by
  induction l generalizing s with
  | nil => rfl
  | cons other l ih =>
    rw [List.foldl_cons, ih, List.foldl_cons]
    congr 1
    exact OrderedMap.get?_interWith max s.lines (f other).lines x

/-- An access to one of several lines is what the accesses to each of them have in common. -/
lemma touchOneOf_eq_foldl {g : Geometry} {candidates : OrderedSet Line} {line : Line}
    {rest : List Line} (h : candidates.toList = line :: rest) (a : MustCache) :
    Abstraction.touchOneOf g candidates a =
      rest.foldl (fun s other => Abstraction.merge s (Abstraction.touch g other a))
        (Abstraction.touch g line a) := by
  refine MustCache.ext (OrderedMap.ext_get? fun x => ?_)
  rw [get?_foldl_merge]
  refine (AgedLines.get?_touchOneOf AgedLines.fair_greatestOfAll x).trans ?_
  rw [h, List.map_cons, AgedLines.greatestOfAll, List.foldl_map]
  rfl

end MustCache

namespace MayCache

/-- The ages where several descriptions meet. -/
lemma get?_foldl_merge (f : Line → MayCache) (s : MayCache) (l : List Line) (x : Line) :
    (l.foldl (fun s other => Abstraction.merge s (f other)) s).lines.get? x =
      l.foldl (fun v other => Option.merge min v ((f other).lines.get? x)) (s.lines.get? x) := by
  induction l generalizing s with
  | nil => rfl
  | cons other l ih =>
    rw [List.foldl_cons, ih, List.foldl_cons]
    congr 1
    exact OrderedMap.get?_unionWith min s.lines (f other).lines x

/-- Descriptions that are equally saturated meet in such a one. -/
lemma saturated_foldl_merge {f : Line → MayCache} {s : MayCache} (l : List Line)
    (h : ∀ other, (f other).saturated = s.saturated) :
    (l.foldl (fun s other => Abstraction.merge s (f other)) s).saturated = s.saturated := by
  induction l generalizing s with
  | nil => rfl
  | cons other l ih =>
    have hmerge : (Abstraction.merge s (f other)).saturated = s.saturated := by
      refine (congrArg (s.saturated || ·) (h other)).trans (Bool.or_self _)
    rw [List.foldl_cons, ih fun other' => (h other').trans hmerge.symm, hmerge]

/-- An access to one of several lines is what the accesses to each of them have in common. -/
lemma touchOneOf_eq_foldl {g : Geometry} {candidates : OrderedSet Line} {line : Line}
    {rest : List Line} (h : candidates.toList = line :: rest) (a : MayCache) :
    Abstraction.touchOneOf g candidates a =
      rest.foldl (fun s other => Abstraction.merge s (Abstraction.touch g other a))
        (Abstraction.touch g line a) := by
  refine MayCache.ext (OrderedMap.ext_get? fun x => ?_) ?_
  · rw [get?_foldl_merge]
    refine (AgedLines.get?_touchOneOf AgedLines.fair_least x).trans ?_
    rw [h, List.map_cons, AgedLines.least, List.foldl_cons, Option.merge_none_left, List.foldl_map]
    rfl
  · have hs := saturated_foldl_merge (f := fun other => Abstraction.touch g other a)
      (s := Abstraction.touch g line a) rest fun _ => rfl
    exact hs.symm

end MayCache

namespace PersistenceCache

/-- The ages where several descriptions meet. -/
lemma get?_foldl_merge (f : Line → PersistenceCache) (s : PersistenceCache) (l : List Line)
    (x : Line) :
    (l.foldl (fun s other => Abstraction.merge s (f other)) s).lines.get? x =
      l.foldl (fun v other => Option.merge max v ((f other).lines.get? x)) (s.lines.get? x) := by
  induction l generalizing s with
  | nil => rfl
  | cons other l ih =>
    rw [List.foldl_cons, ih, List.foldl_cons]
    congr 1
    exact OrderedMap.get?_unionWith max s.lines (f other).lines x

/-- The evicted lines where several descriptions meet. -/
lemma mem_evicted_foldl_merge (f : Line → PersistenceCache) (s : PersistenceCache)
    (l : List Line) (x : Line) :
    x ∈ (l.foldl (fun s other => Abstraction.merge s (f other)) s).evicted ↔
      x ∈ s.evicted ∨ ∃ other ∈ l, x ∈ (f other).evicted := by
  induction l generalizing s with
  | nil => simp
  | cons other l ih =>
    have hmerge : x ∈ (Abstraction.merge s (f other)).evicted ↔
        x ∈ s.evicted ∨ x ∈ (f other).evicted := OrderedSet.mem_union
    rw [List.foldl_cons, ih, hmerge]
    simp [or_assoc]

/-- An access to one of several lines is what the accesses to each of them have in common. -/
lemma touchOneOf_eq_foldl {g : Geometry} {candidates : OrderedSet Line} {line : Line}
    {rest : List Line} (h : candidates.toList = line :: rest) (a : PersistenceCache) :
    Abstraction.touchOneOf g candidates a =
      rest.foldl (fun s other => Abstraction.merge s (Abstraction.touch g other a))
        (Abstraction.touch g line a) := by
  refine PersistenceCache.ext (OrderedMap.ext_get? fun x => ?_) (OrderedSet.ext_mem fun x => ?_)
  · rw [get?_foldl_merge]
    refine (AgedLines.get?_touchOneOf AgedLines.fair_greatest x).trans ?_
    rw [h, List.map_cons, AgedLines.greatest, List.foldl_cons, Option.merge_none_left,
      List.foldl_map]
    rfl
  · have htouch (other : Line) : x ∈ (Abstraction.touch g other a : PersistenceCache).evicted ↔
        x ∈ a.evicted ∨ x ∈ a.lines.evictedByTouch g false other := OrderedSet.mem_insertAll
    have hone : x ∈ (Abstraction.touchOneOf g candidates a : PersistenceCache).evicted ↔
        x ∈ a.evicted ∨ x ∈ a.lines.evictedByOneOf g false candidates := OrderedSet.mem_insertAll
    rw [mem_evicted_foldl_merge, hone, AgedLines.mem_evictedByOneOf, h]
    simp only [htouch, List.mem_cons]
    grind

end PersistenceCache

end CacheVerdict
