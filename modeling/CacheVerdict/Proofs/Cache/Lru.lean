import Mathlib.Data.List.Nodup
import Mathlib.Data.List.Perm.Subperm
import CacheVerdict.Hierarchy.Geometry

/-!
# Caches with least-recently-used replacement

The concrete cache that the analyses speak of: for each set its lines, the most recently used first.
The age of a line is the number of lines of its set that were used more recently. A touch puts a
line in front and drops what no longer fits, so the lines in front of another one change in one way
only (`younger_touch`): the touched line is put before the others. Everything that is said of ages
below follows from this.
-/

namespace CacheVerdict

/-- The lines in front of `o` once `x` is put in front. -/
lemma takeWhile_erase {o x : Line} (hne : x ≠ o) (l : List Line) :
    (l.erase x).takeWhile (· ≠ o) = (l.takeWhile (· ≠ o)).erase x := by
  induction l with
  | nil => rfl
  | cons y l ih =>
    by_cases hyx : y = x
    · subst hyx
      simp [hne]
    · by_cases hyo : y = o
      · subst hyo
        simp [hyx]
      · rw [List.erase_cons_tail (by simpa using hyx)]
        simp only [List.takeWhile_cons, ne_eq, hyo, not_false_eq_true, decide_true, if_true, ih]
        rw [List.erase_cons_tail (by simpa using hyx)]

/-- A line is among the first `k` if fewer than `k` stand in front of it. -/
lemma mem_take_iff {o : Line} {l : List Line} {k : Nat} (h : o ∈ l) :
    o ∈ l.take k ↔ (l.takeWhile (· ≠ o)).length < k := by
  induction l generalizing k with
  | nil => cases h
  | cons y l ih =>
    cases k with
    | zero => simp
    | succ k =>
      by_cases hyo : y = o
      · subst hyo
        simp
      · have hl : o ∈ l := (List.mem_cons.1 h).resolve_left (Ne.symm hyo)
        have hoy : o ≠ y := Ne.symm hyo
        simp [hyo, hoy, ih hl]

/-- Dropping lines behind `o` keeps those in front of it. -/
lemma takeWhile_take {o : Line} {l : List Line} {k : Nat} (h : o ∈ l.take k) :
    (l.take k).takeWhile (· ≠ o) = l.takeWhile (· ≠ o) := by
  induction l generalizing k with
  | nil => simp
  | cons y l ih =>
    cases k with
    | zero => simp at h
    | succ k =>
      by_cases hyo : y = o
      · subst hyo
        simp
      · have hl : o ∈ l.take k := by
          rw [List.take_succ_cons] at h
          exact (List.mem_cons.1 h).resolve_left (Ne.symm hyo)
        simp only [List.take_succ_cons, List.takeWhile_cons, ne_eq, hyo, not_false_eq_true,
          decide_true, if_true]
        rw [ih hl]

/-- A cache: the lines of each set, the most recently used first. -/
structure LruCache (g : Geometry) where
  recent : UInt64 → List Line
  nodup : ∀ set, (recent set).Nodup
  length_le : ∀ set, (recent set).length ≤ g.ways.toNat
  setOf_mem : ∀ set, ∀ line ∈ recent set, g.setOf line = set

namespace LruCache

variable {g : Geometry}

/-- The cache that holds no line. -/
def empty (g : Geometry) : LruCache g where
  recent _ := []
  nodup _ := List.nodup_nil
  length_le _ := Nat.zero_le _
  setOf_mem _ _ h := nomatch h

instance : Membership Line (LruCache g) := ⟨fun c line => line ∈ c.recent (g.setOf line)⟩

instance (line : Line) (c : LruCache g) : Decidable (line ∈ c) :=
  inferInstanceAs (Decidable (line ∈ c.recent (g.setOf line)))

/-- A line is cached if its set holds it. -/
lemma mem_def {c : LruCache g} {line : Line} : line ∈ c ↔ line ∈ c.recent (g.setOf line) := Iff.rfl

/-- Accesses a line: it becomes the most recently used one of its set, and what no longer fits is
evicted. -/
def touch (c : LruCache g) (line : Line) : LruCache g where
  recent set :=
    if set = g.setOf line then (line :: (c.recent set).erase line).take g.ways.toNat
    else c.recent set
  nodup set := by
    split
    · refine List.Nodup.sublist (List.take_sublist _ _) (List.nodup_cons.2 ⟨?_, ?_⟩)
      · exact (c.nodup set).not_mem_erase
      · exact (c.nodup set).erase line
    · exact c.nodup set
  length_le set := by
    split
    · exact List.length_take_le _ _
    · exact c.length_le set
  setOf_mem set other h := by
    split at h
    · rename_i hset
      rcases List.mem_cons.1 (List.mem_of_mem_take h) with rfl | h
      · exact hset.symm
      · exact c.setOf_mem set other (List.mem_of_mem_erase h)
    · exact c.setOf_mem set other h

/-- Accesses lines one after the other. -/
def touchAll (c : LruCache g) (lines : List Line) : LruCache g :=
  lines.foldl touch c

/-- The lines of the same set that were used more recently. -/
def younger (c : LruCache g) (line : Line) : List Line :=
  (c.recent (g.setOf line)).takeWhile (· ≠ line)

/-- The age of a line: how many lines of its set were used more recently. -/
def age (c : LruCache g) (line : Line) : Nat :=
  (c.younger line).length

end LruCache

/-- Two sets of one way, for lines of 64 bytes. -/
def Geometry.oneWay : Geometry :=
  ⟨⟨128, 1, 64⟩, by decide, by decide, by decide, by decide, by decide⟩

/-- Two sets of two ways, for lines of 64 bytes. -/
def Geometry.twoWays : Geometry :=
  ⟨⟨256, 2, 64⟩, by decide, by decide, by decide, by decide, by decide⟩

/-- A cache has a way. -/
lemma Geometry.ways_pos (g : Geometry) : 0 < g.ways.toNat := by
  refine Nat.pos_of_ne_zero fun h => g.valid.ways_ne ?_
  exact UInt32.toNat_inj.1 h

namespace LruCache

variable {g : Geometry} {c : LruCache g} {line other : Line}

/-- No line is twice in front of another. -/
lemma nodup_younger : (c.younger line).Nodup :=
  (c.nodup _).sublist (List.takeWhile_sublist _)

/-- The empty cache holds no line. -/
lemma not_mem_empty : line ∉ empty g := nofun

/-- A cached line is younger than the number of ways. -/
lemma age_lt (h : line ∈ c) : c.age line < g.ways.toNat := by
  have hmem : line ∈ (c.recent (g.setOf line)).take g.ways.toNat := by
    rw [List.take_of_length_le (c.length_le _)]
    exact h
  exact (mem_take_iff h).1 hmem

/-! ### One access -/

/-- The touched line is cached. -/
lemma mem_touch_self : line ∈ c.touch line := by
  show line ∈ (c.touch line).recent (g.setOf line)
  simp only [touch, if_true]
  obtain ⟨k, hk⟩ : ∃ k, g.ways.toNat = k + 1 := Nat.exists_eq_succ_of_ne_zero (Nat.ne_of_gt g.ways_pos)
  rw [hk, List.take_succ_cons]
  exact List.mem_cons_self

/-- Nothing is younger than the touched line. -/
lemma age_touch_self : (c.touch line).age line = 0 := by
  obtain ⟨k, hk⟩ : ∃ k, g.ways.toNat = k + 1 := Nat.exists_eq_succ_of_ne_zero (Nat.ne_of_gt g.ways_pos)
  simp [age, younger, touch, hk]

/-- A touch leaves the other sets alone. -/
lemma recent_touch_of_ne (h : g.setOf other ≠ g.setOf line) :
    (c.touch line).recent (g.setOf other) = c.recent (g.setOf other) := by
  simp [touch, h]

/-- A touch leaves the other sets alone. -/
lemma mem_touch_of_ne (h : g.setOf other ≠ g.setOf line) : other ∈ c.touch line ↔ other ∈ c := by
  rw [mem_def, mem_def, recent_touch_of_ne h]

/-- In the other sets ages stay. -/
lemma age_touch_of_ne (h : g.setOf other ≠ g.setOf line) :
    (c.touch line).age other = c.age other := by
  rw [age, age, younger, younger, recent_touch_of_ne h]

/-- Another line that is cached after a touch was cached before. -/
lemma mem_of_mem_touch (hne : other ≠ line) (h : other ∈ c.touch line) : other ∈ c := by
  by_cases hset : g.setOf other = g.setOf line
  · have h : other ∈ (c.touch line).recent (g.setOf other) := h
    simp only [touch, hset, if_true] at h
    rcases List.mem_cons.1 (List.mem_of_mem_take h) with heq | h
    · exact absurd heq hne
    · rw [mem_def, hset]
      exact List.mem_of_mem_erase h
  · exact (mem_touch_of_ne hset).1 h

/-- A touch puts the touched line before the lines in front of another line of the set. -/
lemma younger_touch (hne : other ≠ line) (hset : g.setOf other = g.setOf line)
    (h : other ∈ c.touch line) :
    (c.touch line).younger other = line :: (c.younger other).erase line := by
  have h : other ∈ (c.touch line).recent (g.setOf other) := h
  simp only [younger, touch, hset, if_true] at h ⊢
  rw [takeWhile_take h, List.takeWhile_cons]
  simp only [ne_eq, Ne.symm hne, not_false_eq_true, decide_true, if_true]
  rw [takeWhile_erase (Ne.symm hne)]

/-- A line of the set stays cached if it is still among the most recently used ones. -/
lemma mem_touch_iff (hne : other ≠ line) (hset : g.setOf other = g.setOf line) (h : other ∈ c) :
    other ∈ c.touch line ↔ ((c.younger other).erase line).length + 1 < g.ways.toNat := by
  have h : other ∈ c.recent (g.setOf other) := h
  rw [hset] at h
  have hfront : other ∈ line :: (c.recent (g.setOf line)).erase line :=
    List.mem_cons_of_mem _ ((List.mem_erase_of_ne hne).2 h)
  simp only [mem_def, touch, hset, if_true]
  rw [mem_take_iff hfront, List.takeWhile_cons]
  simp only [ne_eq, Ne.symm hne, not_false_eq_true, decide_true, if_true, List.length_cons]
  rw [takeWhile_erase (Ne.symm hne), younger, hset]

/-- Of two cached lines of a set, the younger stands in front of the other. -/
lemma mem_younger_iff (hne : other ≠ line) (hset : g.setOf other = g.setOf line)
    (hline : line ∈ c) (hother : other ∈ c) :
    line ∈ c.younger other ↔ c.age line < c.age other := by
  have hline : line ∈ c.recent (g.setOf line) := hline
  have hother : other ∈ c.recent (g.setOf other) := hother
  unfold age younger
  rw [hset] at hother ⊢
  generalize c.recent (g.setOf line) = l at hline hother ⊢
  induction l with
  | nil => cases hline
  | cons y l ih =>
    by_cases hyl : y = line
    · subst hyl
      simp [Ne.symm hne]
    · by_cases hyo : y = other
      · subst hyo
        simp
      · have hl : line ∈ l := (List.mem_cons.1 hline).resolve_left (Ne.symm hyl)
        have ho : other ∈ l := (List.mem_cons.1 hother).resolve_left (Ne.symm hyo)
        have hly : line ≠ y := Ne.symm hyl
        simp only [List.takeWhile_cons, ne_eq, hyl, hyo, not_false_eq_true, decide_true, if_true,
          List.mem_cons, hly, false_or, List.length_cons, Nat.add_lt_add_iff_right]
        exact ih hl ho

/-- Of two cached lines of a set, one stands in front of the other. -/
lemma mem_younger_or (hne : other ≠ line) (hset : g.setOf other = g.setOf line)
    (hline : line ∈ c) (hother : other ∈ c) :
    line ∈ c.younger other ∨ other ∈ c.younger line := by
  have hline : line ∈ c.recent (g.setOf line) := hline
  have hother : other ∈ c.recent (g.setOf other) := hother
  unfold younger
  rw [hset] at hother ⊢
  generalize c.recent (g.setOf line) = l at hline hother ⊢
  induction l with
  | nil => cases hline
  | cons y l ih =>
    by_cases hyl : y = line
    · subst hyl
      exact .inl (by simp [Ne.symm hne])
    · by_cases hyo : y = other
      · subst hyo
        exact .inr (by simp [hyl])
      · have hl : line ∈ l := (List.mem_cons.1 hline).resolve_left (Ne.symm hyl)
        have ho : other ∈ l := (List.mem_cons.1 hother).resolve_left (Ne.symm hyo)
        simp only [List.takeWhile_cons, ne_eq, hyl, hyo, not_false_eq_true, decide_true, if_true]
        exact (ih hl ho).imp (List.mem_cons_of_mem _) (List.mem_cons_of_mem _)

/-- A line that a more recent one is touched behind keeps its age. -/
lemma length_erase_younger_of_mem (h : line ∈ c.younger other) :
    ((c.younger other).erase line).length + 1 = c.age other := by
  rw [List.length_erase_of_mem h, age]
  have := List.length_pos_of_mem h
  omega

/-- A touched line that was not younger leaves as many younger lines. -/
lemma length_erase_younger_of_not_mem (h : line ∉ c.younger other) :
    ((c.younger other).erase line).length = c.age other := by
  rw [List.erase_of_not_mem h, age]

/-- A touch ages another line by at most one. -/
lemma age_touch_le_succ (h : other ∈ c.touch line) :
    (c.touch line).age other ≤ c.age other + 1 := by
  by_cases hne : other = line
  · subst hne
    rw [age_touch_self]
    exact Nat.zero_le _
  · by_cases hset : g.setOf other = g.setOf line
    · rw [age, younger_touch hne hset h, List.length_cons, age]
      exact Nat.add_le_add_right List.length_erase_le 1
    · rw [age_touch_of_ne hset]
      exact Nat.le_succ _

/-- A touch makes no other line younger. -/
lemma age_le_age_touch (hne : other ≠ line) (h : other ∈ c.touch line) :
    c.age other ≤ (c.touch line).age other := by
  by_cases hset : g.setOf other = g.setOf line
  · rw [age, age, younger_touch hne hset h, List.length_cons]
    have := (c.younger other).le_length_erase (a := line)
    omega
  · exact Nat.le_of_eq (age_touch_of_ne hset).symm

/-- The touch of a line that is not in front of another one of its set ages that one. -/
lemma age_touch_of_not_mem_younger (hne : other ≠ line) (hset : g.setOf other = g.setOf line)
    (h : other ∈ c.touch line) (hy : line ∉ c.younger other) :
    (c.touch line).age other = c.age other + 1 := by
  rw [age, younger_touch hne hset h, List.length_cons, length_erase_younger_of_not_mem hy]

/-- The touch of a line that is in front of another one of its set leaves that one where it is. -/
lemma age_touch_of_mem_younger (hne : other ≠ line) (hset : g.setOf other = g.setOf line)
    (h : other ∈ c) (hy : line ∈ c.younger other) :
    other ∈ c.touch line ∧ (c.touch line).age other = c.age other := by
  have hlen := length_erase_younger_of_mem hy
  have hmem : other ∈ c.touch line := (mem_touch_iff hne hset h).2 (hlen ▸ age_lt h)
  refine ⟨hmem, ?_⟩
  rw [age, younger_touch hne hset hmem, List.length_cons, hlen]

/-! ### Upper bounds of ages -/

/-- A line is cached, and its age is at most the bound. -/
def CachedWithin (c : LruCache g) (line : Line) (bound : Nat) : Prop :=
  line ∈ c ∧ c.age line ≤ bound

/-- The touched line is the youngest. -/
lemma CachedWithin.touch_self : (c.touch line).CachedWithin line 0 :=
  ⟨mem_touch_self, Nat.le_of_eq age_touch_self⟩

/-- A touch leaves the bounds of other sets. -/
lemma CachedWithin.touch_of_ne {bound : Nat} (h : c.CachedWithin other bound)
    (hset : g.setOf other ≠ g.setOf line) : (c.touch line).CachedWithin other bound := by
  refine ⟨(mem_touch_of_ne hset).2 h.1, ?_⟩
  rw [age_touch_of_ne hset]
  exact h.2

/-- A touch raises the bound of another line by at most one. -/
lemma CachedWithin.touch_succ {bound : Nat} (h : c.CachedWithin other bound)
    (hlt : bound + 1 < g.ways.toNat) : (c.touch line).CachedWithin other (bound + 1) := by
  suffices other ∈ c.touch line from
    ⟨this, Nat.le_trans (age_touch_le_succ this) (Nat.succ_le_succ h.2)⟩
  by_cases hne : other = line
  · exact hne ▸ mem_touch_self
  · by_cases hset : g.setOf other = g.setOf line
    · rw [mem_touch_iff hne hset h.1]
      have hage : (c.younger other).length ≤ bound := h.2
      have := (c.younger other).length_erase_le (a := line)
      omega
    · exact (mem_touch_of_ne hset).2 h.1

/-- The touch of a line that is cached within a smaller bound keeps the bound. -/
lemma CachedWithin.touch_of_le {own bound : Nat} (h : c.CachedWithin other bound)
    (hline : c.CachedWithin line own) (hle : own ≤ bound) :
    (c.touch line).CachedWithin other bound := by
  by_cases hne : other = line
  · subst hne
    exact ⟨mem_touch_self, age_touch_self ▸ Nat.zero_le _⟩
  by_cases hset : g.setOf other = g.setOf line
  · by_cases hy : line ∈ c.younger other
    · obtain ⟨hmem, hage⟩ := age_touch_of_mem_younger hne hset h.1 hy
      exact ⟨hmem, hage ▸ h.2⟩
    · -- the touched line is the older one, so its own bound leaves room for the other to age
      have hy' := (mem_younger_or hne hset hline.1 h.1).resolve_left hy
      have hlt := (mem_younger_iff (Ne.symm hne) hset.symm h.1 hline.1).1 hy'
      have hlen := length_erase_younger_of_not_mem hy
      have hline_lt := age_lt hline.1
      have hmem : other ∈ c.touch line := (mem_touch_iff hne hset h.1).2 (by omega)
      refine ⟨hmem, ?_⟩
      rw [age_touch_of_not_mem_younger hne hset hmem hy]
      have := hline.2
      omega
  · exact h.touch_of_ne hset

/-! ### Several accesses -/

/-- Touching no lines changes nothing. -/
@[simp]
lemma touchAll_nil : c.touchAll [] = c := rfl

/-- Lines are touched from the first to the last. -/
@[simp]
lemma touchAll_cons {lines : List Line} :
    c.touchAll (line :: lines) = (c.touch line).touchAll lines := rfl

/-- However often lines are touched, in front of a line stand only those that stood there and those
that were touched; while these fit in the set, the line stays. -/
lemma touchAll_younger {front lines : List Line} (hmem : other ∈ c)
    (hfront : c.younger other ⊆ front) (hfit : front.length < g.ways.toNat)
    (htouched : ∀ x ∈ lines, x ≠ other → g.setOf x = g.setOf other → x ∈ front) :
    other ∈ c.touchAll lines ∧ (c.touchAll lines).younger other ⊆ front := by
  induction lines generalizing c with
  | nil => exact ⟨hmem, hfront⟩
  | cons x lines ih =>
    have hrest : ∀ y ∈ lines, y ≠ other → g.setOf y = g.setOf other → y ∈ front :=
      fun y hy => htouched y (List.mem_cons_of_mem _ hy)
    suffices other ∈ c.touch x ∧ (c.touch x).younger other ⊆ front from ih this.1 this.2 hrest
    by_cases hne : other = x
    · subst hne
      refine ⟨mem_touch_self, ?_⟩
      rw [List.length_eq_zero_iff.1 (age_touch_self : (c.touch other).age other = 0)]
      exact List.nil_subset _
    by_cases hset : g.setOf other = g.setOf x
    · -- the touched line is one of those that fit, so the others in front leave room for it
      have hx : x ∈ front := htouched x List.mem_cons_self (Ne.symm hne) hset.symm
      have hsub : x :: (c.younger other).erase x ⊆ front :=
        List.cons_subset.2 ⟨hx, fun y hy => hfront (List.mem_of_mem_erase hy)⟩
      have hnodup : (x :: (c.younger other).erase x).Nodup :=
        List.nodup_cons.2 ⟨nodup_younger.not_mem_erase, nodup_younger.erase x⟩
      have hle : ((c.younger other).erase x).length + 1 ≤ front.length :=
        hnodup.length_le_of_subset hsub
      have hmem' : other ∈ c.touch x := (mem_touch_iff hne hset hmem).2 (by omega)
      refine ⟨hmem', ?_⟩
      rw [younger_touch hne hset hmem']
      exact hsub
    · refine ⟨(mem_touch_of_ne hset).2 hmem, ?_⟩
      rw [younger, recent_touch_of_ne hset]
      exact hfront

/-- A line that is not among those touched was cached before and does not get younger. -/
lemma age_le_age_touchAll {lines : List Line} (hnot : other ∉ lines)
    (h : other ∈ c.touchAll lines) : other ∈ c ∧ c.age other ≤ (c.touchAll lines).age other := by
  induction lines generalizing c with
  | nil => exact ⟨h, Nat.le_refl _⟩
  | cons x lines ih =>
    have hx : other ≠ x := fun heq => hnot (heq ▸ List.mem_cons_self)
    have hrest : other ∉ lines := fun hmem => hnot (List.mem_cons_of_mem _ hmem)
    obtain ⟨hmem, hage⟩ := ih hrest h
    exact ⟨mem_of_mem_touch hx hmem, Nat.le_trans (age_le_age_touch hx hmem) hage⟩

/-- What stands in front of a line stays there while other lines are touched. -/
lemma younger_subset_touch (hne : other ≠ line) (h : other ∈ c.touch line) :
    c.younger other ⊆ (c.touch line).younger other := by
  by_cases hset : g.setOf other = g.setOf line
  · rw [younger_touch hne hset h]
    intro y hy
    by_cases hyl : y = line
    · exact hyl ▸ List.mem_cons_self
    · exact List.mem_cons_of_mem _ ((List.mem_erase_of_ne hyl).2 hy)
  · rw [younger, younger, recent_touch_of_ne hset]
    exact List.Subset.refl _

/-- All lines of the set that were touched stand in front of a line that was not. -/
lemma subset_younger_touchAll {lines : List Line} (hnot : other ∉ lines)
    (hset : ∀ x ∈ lines, g.setOf x = g.setOf other) (h : other ∈ c.touchAll lines) :
    c.younger other ++ lines ⊆ (c.touchAll lines).younger other := by
  induction lines generalizing c with
  | nil => simp
  | cons x lines ih =>
    have hx : other ≠ x := fun heq => hnot (heq ▸ List.mem_cons_self)
    have hrest : other ∉ lines := fun hmem => hnot (List.mem_cons_of_mem _ hmem)
    obtain ⟨hmem, _⟩ := age_le_age_touchAll hrest h
    have hsub : (c.touch x).younger other ++ lines ⊆ (c.touchAll (x :: lines)).younger other :=
      ih hrest (fun y hy => hset y (List.mem_cons_of_mem _ hy)) h
    have hfront : x ∈ (c.touch x).younger other := by
      rw [younger_touch hx (hset x List.mem_cons_self).symm hmem]
      exact List.mem_cons_self
    intro y hy
    rcases List.mem_append.1 hy with hy | hy
    · exact hsub (List.mem_append_left _ (younger_subset_touch hx hmem hy))
    · rcases List.mem_cons.1 hy with rfl | hy
      · exact hsub (List.mem_append_left _ hfront)
      · exact hsub (List.mem_append_right _ hy)

/-- Any lines of the set that fit can stand in front of a line. -/
lemma exists_younger_eq {front : List Line} (hnodup : front.Nodup)
    (hset : ∀ y ∈ front, g.setOf y = g.setOf line) (hline : line ∉ front)
    (hfit : front.length < g.ways.toNat) :
    ∃ c : LruCache g, line ∈ c ∧ c.younger line = front := by
  have hall : ∀ y ∈ front ++ [line], g.setOf y = g.setOf line := by
    intro y hy
    rcases List.mem_append.1 hy with hy | hy
    · exact hset y hy
    · rw [List.mem_singleton.1 hy]
  -- the lines of the set with the given one behind them, and nothing in the other sets
  refine ⟨⟨fun set => if set = g.setOf line then front ++ [line] else [], ?_, ?_, ?_⟩, ?_, ?_⟩
  · intro set
    split
    · refine List.nodup_append.2 ⟨hnodup, List.nodup_singleton line, ?_⟩
      intro y hy z hz heq
      exact hline (List.mem_singleton.1 hz ▸ heq ▸ hy)
    · exact List.nodup_nil
  · intro set
    split
    · rw [List.length_append]
      exact hfit
    · exact Nat.zero_le _
  · intro set y hy
    split at hy
    · rename_i heq
      rw [heq]
      exact hall y hy
    · cases hy
  · show line ∈ if g.setOf line = g.setOf line then front ++ [line] else []
    simp
  · show (if g.setOf line = g.setOf line then front ++ [line] else []).takeWhile (· ≠ line) = front
    have hne : ∀ y ∈ front, decide (y ≠ line) = true := fun y hy =>
      decide_eq_true fun heq => hline (heq ▸ hy)
    rw [if_pos rfl, List.takeWhile_append_of_pos hne]
    simp

end LruCache

end CacheVerdict
