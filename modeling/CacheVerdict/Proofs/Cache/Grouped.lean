import CacheVerdict.Proofs.Cache.Candidates
import CacheVerdict.Proofs.Cache.Lru

/-!
# Lines grouped by set

A second form of lines with ages: for each set that holds lines a map of its own, with ages in
32-bit counters, changed set by set. Two of them are equal only if they store the same sets, so a set
must not stay behind empty. The invariant (`GroupedLines.Proper`) says that none does, that each line
is stored under its own set, and that ages are below the number of ways, so that a counter never
overflows. Main statement, for each operation: it keeps the invariant, and reading its result as one
map of lines (`GroupedLines.flatten`) gives the result of the operation there.
-/

namespace CacheVerdict

namespace OrderedMap

variable {κ ν : Type} [Ord κ] {m : OrderedMap κ ν}

/-- A map without entries is the empty one. -/
lemma eq_empty_of_isEmpty (h : m.isEmpty = true) : m = {} := by
  obtain ⟨entries, sorted⟩ := m
  obtain rfl : entries = [] := List.isEmpty_iff.1 h
  rfl

/-- A map is not empty if it holds some value. -/
lemma isEmpty_eq_false_iff [Std.TransOrd κ] [Std.LawfulEqOrd κ] :
    m.isEmpty = false ↔ ∃ k v, m.get? k = some v := by
  constructor
  · intro h
    have hne : m.entries ≠ [] := fun hnil => by simp [isEmpty, hnil] at h
    obtain ⟨e, he⟩ := List.exists_mem_of_ne_nil _ hne
    exact ⟨e.1, e.2, mem_entries.1 he⟩
  · rintro ⟨k, v, hget⟩
    cases hempty : m.isEmpty with
    | false => rfl
    | true =>
      rw [eq_empty_of_isEmpty hempty] at hget
      cases hget

/-- Merging with the empty map changes nothing. -/
lemma unionWith_empty [Std.TransOrd κ] [Std.LawfulEqOrd κ] [DecidableEq κ] (pick : ν → ν → ν)
    (m : OrderedMap κ ν) : m.unionWith pick {} = m := by
  refine ext_get? fun k => ?_
  rw [get?_unionWith, get?_empty, Option.merge_none_right]

/-- A union holds something if its first map does. -/
lemma isEmpty_unionWith [Std.TransOrd κ] [Std.LawfulEqOrd κ] [DecidableEq κ] (pick : ν → ν → ν)
    (n : OrderedMap κ ν) (h : m.isEmpty = false) : (m.unionWith pick n).isEmpty = false := by
  obtain ⟨k, v, hget⟩ := isEmpty_eq_false_iff.1 h
  refine isEmpty_eq_false_iff.2 ⟨k, ?_⟩
  rw [get?_unionWith, hget]
  cases n.get? k with
  | none => exact ⟨v, rfl⟩
  | some w => exact ⟨pick v w, rfl⟩

end OrderedMap

/-- The lines of one set, with their ages in 32-bit counters. -/
abbrev SetLines := OrderedMap Line UInt32

/-- Lines with ages, grouped by the set that they are stored under. -/
@[ext]
structure GroupedLines where
  sets : OrderedMap UInt64 SetLines := {}
deriving DecidableEq, Inhabited

namespace GroupedLines

/-- The lines stored under a set; none if the set is not stored. -/
def linesAt (n : GroupedLines) (set : UInt64) : SetLines :=
  (n.sets.get? set).getD {}

/-- The age of a line, sought in its set. -/
def age? (g : Geometry) (n : GroupedLines) (line : Line) : Option UInt32 :=
  (n.linesAt (g.setOf line)).get? line

/-- Whether a line of the given age gets older when another one is touched that stood at `own`. -/
def yields (ties : Bool) (own : Option UInt32) (age : UInt32) : Bool :=
  match own with
  | none => true
  | some own => if ties then age ≤ own else age < own

/-- The age of another line of the set once one that stood at `own` is touched, if it is still
cached. The counter wraps around. -/
def touchedAge? (g : Geometry) (ties : Bool) (own : Option UInt32) (age : UInt32) : Option UInt32 :=
  if yields ties own age then (if age + 1 < g.ways then some (age + 1) else none) else some age

/-- The lines of a set once `line` is touched: the others get older, and it gets the youngest. -/
def touchedLines (g : Geometry) (ties : Bool) (line : Line) (lines : SetLines) : SetLines :=
  (lines.filterMap fun other age =>
    if other = line then some age else touchedAge? g ties (lines.get? line) age).insert line 0

/-- Puts the lines of one set in place. -/
def replace (n : GroupedLines) (set : UInt64) (lines : SetLines) : GroupedLines :=
  ⟨n.sets.insert set lines⟩

/-- Makes `line` the youngest of its set. -/
def touch (g : Geometry) (ties : Bool) (line : Line) (n : GroupedLines) : GroupedLines :=
  n.replace (g.setOf line) (touchedLines g ties line (n.linesAt (g.setOf line)))

/-- The lines that touching `line` evicts. -/
def evictedByTouch (g : Geometry) (ties : Bool) (line : Line) (n : GroupedLines) : List Line :=
  let lines := n.linesAt (g.setOf line)
  (lines.entries.filter fun e =>
    e.1 ≠ line && touchedAge? g ties (lines.get? line) e.2 = none).map Prod.fst

/-- Stores the sets that hold a line. -/
def ofSets (sets : OrderedMap UInt64 SetLines) : GroupedLines :=
  ⟨sets.filter fun _ lines => !lines.isEmpty⟩

/-- The sum of two counters, which stops at the greatest value. -/
def saturatingAdd (v w : UInt32) : UInt32 :=
  UInt32.ofNat (min (v.toNat + w.toNat) (UInt32.size - 1))

/-- Adds `more set line` to the age of every line, and drops those that are no longer cached. -/
def ageAll (g : Geometry) (more : UInt64 → Line → UInt32) (n : GroupedLines) : GroupedLines :=
  ofSets (n.sets.filterMap fun set lines => some (lines.filterMap fun line age =>
    let age := saturatingAdd age (more set line)
    if age < g.ways then some age else none))

/-- The lines that this drops. -/
def evictedByAging (g : Geometry) (more : UInt64 → Line → UInt32) (n : GroupedLines) : List Line :=
  n.sets.entries.flatMap fun (set, lines) =>
    (lines.entries.filter fun e => g.ways ≤ saturatingAdd e.2 (more set e.1)).map Prod.fst

/-- The lines that both hold, at the older age. -/
def intersect (n m : GroupedLines) : GroupedLines :=
  ofSets (n.sets.filterMap fun set lines => some (lines.interWith max (m.linesAt set)))

/-- The lines of either; `pick` chooses between two ages, and gives an age back that it is given
twice. -/
def union (pick : UInt32 → UInt32 → UInt32) (n m : GroupedLines) : GroupedLines :=
  ⟨n.sets.unionWith (fun lines others => lines.unionWith pick others) m.sets⟩

/-- Adds `line` at age 0. -/
def insertYoungest (g : Geometry) (n : GroupedLines) (line : Line) : GroupedLines :=
  n.replace (g.setOf line) ((n.linesAt (g.setOf line)).insert line 0)

/-- Adds lines at age 0, one after the other. -/
def insertAll (g : Geometry) (lines : OrderedSet Line) (n : GroupedLines) : GroupedLines :=
  lines.toList.foldl (insertYoungest g) n

/-- All lines that are stored. -/
def toLines (n : GroupedLines) : List Line :=
  n.sets.entries.flatMap fun (_, lines) => lines.keys

/-- The lines of all sets in one map. -/
def flatten (n : GroupedLines) : AgedLines :=
  .ofList (n.sets.entries.flatMap fun (_, lines) => lines.entries.map fun e => (e.1, e.2.toNat))

/-- No stored set is empty, every line is stored under its own set, and every age is below the
number of ways. -/
structure Proper (g : Geometry) (n : GroupedLines) : Prop where
  nonempty : ∀ set lines, n.sets.get? set = some lines → lines.isEmpty = false
  home : ∀ set line age, (n.linesAt set).get? line = some age → g.setOf line = set
  bounded : ∀ set line age, (n.linesAt set).get? line = some age → age < g.ways

variable {g : Geometry} {n m : GroupedLines} {set : UInt64} {line other : Line} {ties : Bool}

/-! ### The lines at a set -/

/-- The lines of a set are those it is entered with. -/
lemma linesAt_eq {lines : SetLines} (h : n.sets.get? set = some lines) : n.linesAt set = lines := by
  rw [linesAt, h, Option.getD_some]

/-- Replacing the lines of one set leaves the others. -/
lemma linesAt_replace {set' : UInt64} {lines : SetLines} :
    (n.replace set lines).linesAt set' = if set' = set then lines else n.linesAt set' := by
  rw [linesAt, replace, OrderedMap.get?_insert]
  split <;> rfl

/-- Sets without lines are not entered. -/
lemma get?_ofSets {sets : OrderedMap UInt64 SetLines} :
    (ofSets sets).sets.get? set =
      (sets.get? set).bind fun lines => if lines.isEmpty then none else some lines := by
  rw [ofSets, OrderedMap.filter, OrderedMap.get?_filterMap]
  congr 1
  funext lines
  cases lines.isEmpty <;> rfl

/-- A set that is not stored reads as an empty one. -/
lemma linesAt_ofSets {sets : OrderedMap UInt64 SetLines} :
    (ofSets sets).linesAt set = (sets.get? set).getD {} := by
  rw [linesAt, get?_ofSets]
  cases sets.get? set with
  | none => rfl
  | some lines =>
    rw [Option.bind_some]
    split
    · rename_i hempty
      exact (OrderedMap.eq_empty_of_isEmpty hempty).symm
    · rfl

/-- Ageing works set by set, and drops the lines that get too old. -/
lemma linesAt_ageAll {more : UInt64 → Line → UInt32} :
    (n.ageAll g more).linesAt set = (n.linesAt set).filterMap fun line age =>
      let age := saturatingAdd age (more set line)
      if age < g.ways then some age else none := by
  rw [ageAll, linesAt_ofSets, OrderedMap.get?_filterMap, linesAt]
  cases n.sets.get? set <;> rfl

/-- Intersecting works set by set. -/
lemma linesAt_intersect :
    (n.intersect m).linesAt set = (n.linesAt set).interWith max (m.linesAt set) := by
  rw [intersect, linesAt_ofSets, OrderedMap.get?_filterMap]
  unfold linesAt
  cases n.sets.get? set <;> rfl

/-- Uniting works set by set. -/
lemma linesAt_union {pick : UInt32 → UInt32 → UInt32} :
    (n.union pick m).linesAt set = (n.linesAt set).unionWith pick (m.linesAt set) := by
  rw [linesAt, union, OrderedMap.get?_unionWith]
  unfold linesAt
  cases n.sets.get? set with
  | none => cases m.sets.get? set <;> rfl
  | some lines =>
    cases m.sets.get? set with
    | none => exact (OrderedMap.unionWith_empty pick lines).symm
    | some others => rfl

/-! ### Ages -/

/-- Touching a line makes it the youngest of its set, and ages the others there. -/
lemma get?_touchedLines {lines : SetLines} :
    (touchedLines g ties line lines).get? other =
      if other = line then some 0
      else (lines.get? other).bind (touchedAge? g ties (lines.get? line)) := by
  rw [touchedLines, OrderedMap.get?_insert, OrderedMap.get?_filterMap]
  split <;> rfl

/-- The age of a line after a touch: other sets are left alone. -/
lemma age?_touch :
    (n.touch g ties line).age? g other =
      if other = line then some 0
      else if g.setOf other = g.setOf line then
        (n.age? g other).bind (touchedAge? g ties (n.age? g line))
      else n.age? g other := by
  rw [age?, touch, linesAt_replace]
  split
  · rename_i hset
    rw [get?_touchedLines, age?, age?, hset]
  · rename_i hset
    have hne : other ≠ line := fun heq => hset (congrArg g.setOf heq)
    rw [if_neg hne, age?]

/-- The age of a line after ageing. -/
lemma age?_ageAll {more : UInt64 → Line → UInt32} :
    (n.ageAll g more).age? g line = (n.age? g line).bind fun age =>
      let age := saturatingAdd age (more (g.setOf line) line)
      if age < g.ways then some age else none := by
  rw [age?, linesAt_ageAll, OrderedMap.get?_filterMap, age?]

/-- The age of a line in both descriptions. -/
lemma age?_intersect :
    (n.intersect m).age? g line =
      (n.age? g line).bind fun v => (m.age? g line).map (max v) := by
  rw [age?, linesAt_intersect, OrderedMap.get?_interWith, age?, age?]

/-- The age of a line in either description. -/
lemma age?_union {pick : UInt32 → UInt32 → UInt32} :
    (n.union pick m).age? g line = Option.merge pick (n.age? g line) (m.age? g line) := by
  rw [age?, linesAt_union, OrderedMap.get?_unionWith, age?, age?]

/-- The age of a line after another one was entered. -/
lemma age?_insertYoungest :
    (n.insertYoungest g line).age? g other = if other = line then some 0 else n.age? g other := by
  rw [age?, insertYoungest, linesAt_replace]
  split
  · rename_i hset
    rw [OrderedMap.get?_insert, age?, hset]
  · rename_i hset
    have hne : other ≠ line := fun heq => hset (congrArg g.setOf heq)
    rw [if_neg hne, age?]

/-! ### The invariant -/

namespace Proper

/-- In proper lines, each line is found in its own set. -/
lemma age?_eq (h : n.Proper g) {age : UInt32} (hage : (n.linesAt set).get? line = some age) :
    n.age? g line = some age := by
  rw [age?, h.home set line age hage, hage]

/-- In proper lines, ages are below the number of ways. -/
lemma age_lt (h : n.Proper g) {age : UInt32} (hage : n.age? g line = some age) : age < g.ways :=
  h.bounded _ line age hage

/-- Ages are told apart by a counter that has not overflowed: the next age fits in it. -/
lemma toNat_succ (h : n.Proper g) {age : UInt32} (hage : n.age? g line = some age) :
    (age + 1).toNat = age.toNat + 1 := by
  have hlt := UInt32.lt_iff_toNat_lt.1 (h.age_lt hage)
  have hways := g.ways.toNat_lt
  rw [UInt32.toNat_add]
  exact Nat.mod_eq_of_lt (by simp only [UInt32.toNat_one]; omega)

/-- Grouped lines are known by their ages. -/
theorem ext (h : n.Proper g) (h' : m.Proper g) (hages : ∀ line, n.age? g line = m.age? g line) :
    n = m := by
  -- a set that only one of them stores would hold a line there that the other does not have
  have hstored {n m : GroupedLines} (h : n.Proper g) (hages : ∀ line, n.age? g line = m.age? g line)
      {set : UInt64} {lines : SetLines} (hget : n.sets.get? set = some lines) :
      m.sets.get? set ≠ none := by
    obtain ⟨line, age, hage⟩ := OrderedMap.isEmpty_eq_false_iff.1 (h.nonempty set lines hget)
    rw [← linesAt_eq hget] at hage
    intro hnone
    have hother := hages line
    rw [h.age?_eq hage, age?, h.home set line age hage, linesAt, hnone] at hother
    cases hother
  have hlines (set : UInt64) : n.linesAt set = m.linesAt set := by
    refine OrderedMap.ext_get? fun line => ?_
    by_cases hset : g.setOf line = set
    · exact hset ▸ hages line
    · have hnone {n : GroupedLines} (h : n.Proper g) : (n.linesAt set).get? line = none := by
        cases hage : (n.linesAt set).get? line with
        | none => rfl
        | some age => exact absurd (h.home set line age hage) hset
      rw [hnone h, hnone h']
  refine GroupedLines.ext (OrderedMap.ext_get? fun set => ?_)
  cases hn : n.sets.get? set with
  | none =>
    cases hm : m.sets.get? set with
    | none => rfl
    | some others => exact absurd hn (hstored h' (fun line => (hages line).symm) hm)
  | some lines =>
    cases hm : m.sets.get? set with
    | none => exact absurd hm (hstored h hages hn)
    | some others => rw [← linesAt_eq hn, ← linesAt_eq hm, hlines]

/-- No lines are proper. -/
lemma empty : ({} : GroupedLines).Proper g where
  nonempty := nofun
  home := nofun
  bounded := nofun

/-- New lines for a set that are not empty and belong there. -/
lemma replace (h : n.Proper g) {lines : SetLines} (hne : lines.isEmpty = false)
    (hlines : ∀ line age, lines.get? line = some age → g.setOf line = set ∧ age < g.ways) :
    (n.replace set lines).Proper g where
  nonempty set' lines' hget := by
    rw [GroupedLines.replace, OrderedMap.get?_insert] at hget
    split at hget
    · cases hget
      exact hne
    · exact h.nonempty set' lines' hget
  home set' line age hage := by
    rw [linesAt_replace] at hage
    split at hage
    · rename_i heq
      exact heq ▸ (hlines line age hage).1
    · exact h.home set' line age hage
  bounded set' line age hage := by
    rw [linesAt_replace] at hage
    split at hage
    · exact (hlines line age hage).2
    · exact h.bounded set' line age hage

/-- Sets that hold only lines that belong there, once the empty ones are dropped. -/
lemma ofSets {sets : OrderedMap UInt64 SetLines}
    (hlines : ∀ set line age, ((GroupedLines.ofSets sets).linesAt set).get? line = some age →
      g.setOf line = set ∧ age < g.ways) : (GroupedLines.ofSets sets).Proper g where
  nonempty set lines hget := by
    rw [get?_ofSets] at hget
    obtain ⟨lines', _, hlines'⟩ := Option.bind_eq_some_iff.1 hget
    split at hlines'
    · cases hlines'
    · rename_i hne
      cases hlines'
      exact Bool.eq_false_iff.2 hne
  home set line age hage := (hlines set line age hage).1
  bounded set line age hage := (hlines set line age hage).2

/-- Touching keeps lines proper. -/
lemma touch (h : n.Proper g) : (n.touch g ties line).Proper g := by
  apply h.replace
  · rw [OrderedMap.isEmpty_eq_false_iff]
    exact ⟨line, 0, by rw [get?_touchedLines, if_pos rfl]⟩
  · intro other age hage
    rw [get?_touchedLines] at hage
    split at hage
    · rename_i heq
      cases hage
      exact ⟨congrArg g.setOf heq, UInt32.lt_iff_toNat_lt.2 g.ways_pos⟩
    · obtain ⟨old, hold, hnew⟩ := Option.bind_eq_some_iff.1 hage
      refine ⟨h.home _ other old hold, ?_⟩
      unfold touchedAge? at hnew
      split at hnew
      · split at hnew
        · cases hnew
          assumption
        · cases hnew
      · cases hnew
        exact h.bounded _ other age hold

/-- Ageing keeps lines proper. -/
lemma ageAll (h : n.Proper g) {more : UInt64 → Line → UInt32} : (n.ageAll g more).Proper g := by
  apply Proper.ofSets
  intro set line age hage
  change ((n.ageAll g more).linesAt set).get? line = some age at hage
  rw [linesAt_ageAll, OrderedMap.get?_filterMap] at hage
  obtain ⟨old, hold, hnew⟩ := Option.bind_eq_some_iff.1 hage
  simp only at hnew
  split at hnew
  · cases hnew
    exact ⟨h.home set line old hold, by assumption⟩
  · cases hnew

/-- Intersecting keeps lines proper. -/
lemma intersect (h : n.Proper g) (h' : m.Proper g) : (n.intersect m).Proper g := by
  apply Proper.ofSets
  intro set line age hage
  change ((n.intersect m).linesAt set).get? line = some age at hage
  rw [linesAt_intersect, OrderedMap.get?_interWith] at hage
  obtain ⟨v, hv, hw⟩ := Option.bind_eq_some_iff.1 hage
  obtain ⟨w, hw', rfl⟩ := Option.map_eq_some_iff.1 hw
  refine ⟨h.home set line v hv, ?_⟩
  have hvlt := UInt32.lt_iff_toNat_lt.1 (h.bounded set line v hv)
  have hwlt := UInt32.lt_iff_toNat_lt.1 (h'.bounded set line w hw')
  rw [UInt32.lt_iff_toNat_lt, UInt32.toNat_max]
  exact Nat.max_lt.2 ⟨hvlt, hwlt⟩

/-- Uniting keeps lines proper, if it picks ages below the number of ways. -/
lemma union {pick : UInt32 → UInt32 → UInt32}
    (hpick : ∀ v w, v < g.ways → w < g.ways → pick v w < g.ways) (h : n.Proper g)
    (h' : m.Proper g) : (n.union pick m).Proper g := by
  have hlines (set : UInt64) (line : Line) (age : UInt32)
      (hage : ((n.union pick m).linesAt set).get? line = some age) :
      g.setOf line = set ∧ age < g.ways := by
    rw [linesAt_union, OrderedMap.get?_unionWith] at hage
    cases hv : (n.linesAt set).get? line with
    | none =>
      rw [hv, Option.merge_none_left] at hage
      exact ⟨h'.home set line age hage, h'.bounded set line age hage⟩
    | some v =>
      refine ⟨h.home set line v hv, ?_⟩
      cases hw : (m.linesAt set).get? line with
      | none =>
        rw [hv, hw] at hage
        cases hage
        exact h.bounded set line age hv
      | some w =>
        rw [hv, hw] at hage
        cases hage
        exact hpick v w (h.bounded set line v hv) (h'.bounded set line w hw)
  refine ⟨fun set lines hget => ?_, fun set line age hage => (hlines set line age hage).1,
    fun set line age hage => (hlines set line age hage).2⟩
  -- nothing is taken out, so no set has to be dropped
  rw [GroupedLines.union, OrderedMap.get?_unionWith] at hget
  cases hn : n.sets.get? set with
  | none =>
    rw [hn, Option.merge_none_left] at hget
    exact h'.nonempty set lines hget
  | some lines' =>
    have hne := h.nonempty set lines' hn
    cases hm : m.sets.get? set with
    | none =>
      rw [hn, hm] at hget
      cases hget
      exact hne
    | some others =>
      rw [hn, hm] at hget
      cases hget
      exact OrderedMap.isEmpty_unionWith pick others hne

/-- Entering a line keeps lines proper. -/
lemma insertYoungest (h : n.Proper g) : (n.insertYoungest g line).Proper g := by
  apply h.replace
  · rw [OrderedMap.isEmpty_eq_false_iff]
    exact ⟨line, 0, by rw [OrderedMap.get?_insert, if_pos rfl]⟩
  · intro other age hage
    rw [OrderedMap.get?_insert] at hage
    split at hage
    · rename_i heq
      cases hage
      exact ⟨congrArg g.setOf heq, UInt32.lt_iff_toNat_lt.2 g.ways_pos⟩
    · exact ⟨h.home _ other age hage, h.bounded _ other age hage⟩

/-- So does entering several ones. -/
lemma insertAll (h : n.Proper g) (lines : OrderedSet Line) : (n.insertAll g lines).Proper g := by
  unfold GroupedLines.insertAll
  induction lines.toList generalizing n with
  | nil => exact h
  | cons line lines ih => exact ih h.insertYoungest

end Proper

/-! ### One map of lines -/

/-- What is read off the lines of all sets is read off the lines at some set. -/
lemma exists_entry_iff (p : UInt64 → Line → UInt32 → Prop) :
    (∃ e ∈ n.sets.entries, ∃ l ∈ e.2.entries, p e.1 l.1 l.2) ↔
      ∃ set line age, (n.linesAt set).get? line = some age ∧ p set line age := by
  constructor
  · rintro ⟨⟨set, lines⟩, hset, ⟨line, age⟩, hline, hp⟩
    refine ⟨set, line, age, ?_, hp⟩
    rw [linesAt_eq (OrderedMap.mem_entries.1 hset)]
    exact OrderedMap.mem_entries.1 hline
  · rintro ⟨set, line, age, hget, hp⟩
    cases hset : n.sets.get? set with
    | none =>
      rw [linesAt, hset] at hget
      cases hget
    | some lines =>
      rw [linesAt_eq hset] at hget
      exact ⟨(set, lines), OrderedMap.mem_entries.2 hset, (line, age),
        OrderedMap.mem_entries.2 hget, hp⟩

/-- What the one map is made of is stored under some set. -/
lemma mem_flatten_iff {age : Nat} :
    (line, age) ∈ n.sets.entries.flatMap
        (fun (_, lines) => lines.entries.map fun e => (e.1, e.2.toNat)) ↔
      ∃ set v, (n.linesAt set).get? line = some v ∧ v.toNat = age := by
  simp only [List.mem_flatMap, List.mem_map]
  rw [exists_entry_iff fun _ line' v => (line', v.toNat) = (line, age)]
  constructor
  · rintro ⟨set, line', v, hget, heq⟩
    cases heq
    exact ⟨set, v, hget, rfl⟩
  · rintro ⟨set, v, hget, rfl⟩
    exact ⟨set, line, v, hget, rfl⟩

/-- Flattened lines have the same ages. -/
lemma get?_flatten (h : n.Proper g) :
    n.flatten.get? line = (n.age? g line).map UInt32.toNat := by
  cases hage : n.age? g line with
  | some v =>
    -- a line stands under no set but its own, so no second age competes
    refine OrderedMap.get?_ofList_of_mem (mem_flatten_iff.2 ⟨g.setOf line, v, hage, rfl⟩) ?_
    intro w hw
    obtain ⟨set, v', hget, rfl⟩ := mem_flatten_iff.1 hw
    rw [h.age?_eq hget] at hage
    rw [Option.some.inj hage]
  | none =>
    cases hflat : n.flatten.get? line with
    | none => rfl
    | some w =>
      obtain ⟨set, v, hget, _⟩ := mem_flatten_iff.1 (OrderedMap.mem_of_get?_ofList hflat)
      rw [h.age?_eq hget] at hage
      cases hage

/-- Grouped lines are known by their lines in one map. -/
lemma Proper.flatten_inj (h : n.Proper g) (h' : m.Proper g) (heq : n.flatten = m.flatten) :
    n = m := by
  refine h.ext h' fun line => ?_
  have hline := congrArg (OrderedMap.get? · line) heq
  simp only [get?_flatten h, get?_flatten h'] at hline
  exact Option.map_injective (fun _ _ => UInt32.toNat_inj.1) hline

/-! ### Touching a line -/

/-- Whether a touch ages a line is the same for ages of both kinds. -/
lemma ages_map_toNat {own : Option UInt32} {age : UInt32} {set' : UInt64} :
    Standing.ages ties ⟨set, own.map UInt32.toNat⟩ set' age.toNat =
      (set = set' && yields ties own age) := by
  cases own <;> simp [Standing.ages, yields, UInt32.le_iff_toNat_le, UInt32.lt_iff_toNat_lt]

/-- An age is kept or dropped alike, as a machine word or as a number. -/
lemma keep_toNat {age : UInt32} :
    AgedLines.keep g age.toNat = if age < g.ways then some age.toNat else none := by
  simp only [AgedLines.keep, UInt32.lt_iff_toNat_lt]

/-- Ageing by one, in a counter and without bounds. -/
lemma map_touchedAge? {own : Option UInt32} {age : UInt32} (hlt : age < g.ways)
    (hsucc : (age + 1).toNat = age.toNat + 1) :
    (touchedAge? g ties own age).map UInt32.toNat =
      AgedLines.keep g (if yields ties own age then age.toNat + 1 else age.toNat) := by
  unfold touchedAge?
  split
  · rw [← hsucc, keep_toNat]
    split <;> rfl
  · rw [keep_toNat, if_pos hlt, Option.map_some]

/-- Flattening commutes with touching a line. -/
theorem flatten_touch (h : n.Proper g) :
    (n.touch g ties line).flatten = n.flatten.touch g ties line := by
  refine OrderedMap.ext_get? fun other => ?_
  rw [get?_flatten h.touch, age?_touch, AgedLines.get?_touch, AgedLines.standing, get?_flatten h,
    get?_flatten h]
  split
  · rfl
  · cases hage : n.age? g other with
    | none => split <;> rfl
    | some age =>
      simp only [Option.map_some, Option.bind_some, ages_map_toNat]
      split
      · rename_i hset
        rw [map_touchedAge? (h.age_lt hage) (h.toNat_succ hage)]
        simp [hset]
      · -- the one form does not look at other sets, the other finds that nothing ages there
        rename_i hset
        have hlt := UInt32.lt_iff_toNat_lt.1 (h.age_lt hage)
        simp [AgedLines.keep, hlt, Ne.symm hset]

/-- A touch drops a line that it ages out of the ways. -/
lemma touchedAge?_eq_none {own : Option UInt32} {age : UInt32} :
    touchedAge? g ties own age = none ↔ yields ties own age = true ∧ ¬ age + 1 < g.ways := by
  unfold touchedAge?
  split <;> simp_all

/-- A touch evicts the same lines. -/
theorem mem_evictedByTouch (h : n.Proper g) :
    other ∈ n.evictedByTouch g ties line ↔ other ∈ n.flatten.evictedByTouch g ties line := by
  have hstored : other ∈ n.evictedByTouch g ties line ↔
      ∃ age, (n.linesAt (g.setOf line)).get? other = some age ∧ other ≠ line ∧
        touchedAge? g ties (n.age? g line) age = none := by
    simp only [evictedByTouch, List.mem_map, List.mem_filter, Bool.and_eq_true, decide_eq_true_eq]
    constructor
    · rintro ⟨e, ⟨he, hne, hnone⟩, rfl⟩
      exact ⟨e.2, OrderedMap.mem_entries.1 he, hne, hnone⟩
    · rintro ⟨age, hget, hne, hnone⟩
      exact ⟨(other, age), ⟨OrderedMap.mem_entries.2 hget, hne, hnone⟩, rfl⟩
  rw [hstored, AgedLines.evictedByTouch, AgedLines.mem_evictedBy, AgedLines.standing,
    get?_flatten h, get?_flatten h]
  constructor
  · rintro ⟨age, hget, hne, hnone⟩
    have hage := h.age?_eq hget
    obtain ⟨hyields, hge⟩ := touchedAge?_eq_none.1 hnone
    refine ⟨age.toNat, by rw [hage, Option.map_some], ?_⟩
    rw [UInt32.lt_iff_toNat_lt, h.toNat_succ hage] at hge
    rw [AgedLines.touchedAge, ages_map_toNat, if_pos ⟨hne, by simp [h.home _ _ _ hget, hyields]⟩]
    exact Nat.le_of_not_lt hge
  · rintro ⟨old, hold, hge⟩
    obtain ⟨age, hage, rfl⟩ := Option.map_eq_some_iff.1 hold
    have hlt := UInt32.lt_iff_toNat_lt.1 (h.age_lt hage)
    rw [AgedLines.touchedAge, ages_map_toNat] at hge
    split at hge
    · rename_i hages
      obtain ⟨hset, hyields⟩ := Bool.and_eq_true_iff.1 hages.2
      refine ⟨age, ?_, hages.1, touchedAge?_eq_none.2 ⟨hyields, ?_⟩⟩
      · rw [of_decide_eq_true hset]
        exact hage
      · rw [UInt32.lt_iff_toNat_lt, h.toNat_succ hage]
        exact Nat.not_lt.2 hge
    · -- a line that does not age stays below the number of ways
      exact absurd hlt (Nat.not_lt.2 hge)

/-! ### Ageing all lines -/

/-- A sum that has stopped at the greatest value is not below the number of ways either. -/
lemma toNat_saturatingAdd_lt {v w : UInt32} :
    (saturatingAdd v w).toNat < g.ways.toNat ↔ v.toNat + w.toNat < g.ways.toNat := by
  have hways := g.ways.toNat_lt
  unfold saturatingAdd
  rw [UInt32.toNat_ofNat_of_lt' (by simp only [UInt32.size]; omega)]
  simp only [UInt32.size]
  omega

/-- An age below the number of ways has not been saturated. -/
lemma toNat_saturatingAdd {v w : UInt32} (h : saturatingAdd v w < g.ways) :
    (saturatingAdd v w).toNat = v.toNat + w.toNat := by
  have hways := g.ways.toNat_lt
  have hlt := toNat_saturatingAdd_lt.1 (UInt32.lt_iff_toNat_lt.1 h)
  unfold saturatingAdd
  rw [UInt32.toNat_ofNat_of_lt' (by simp only [UInt32.size]; omega)]
  simp only [UInt32.size]
  omega

/-- Flattening commutes with ageing. -/
theorem flatten_ageAll (h : n.Proper g) {more : UInt64 → Line → UInt32} :
    (n.ageAll g more).flatten =
      n.flatten.reage g fun line age => age + (more (g.setOf line) line).toNat := by
  refine OrderedMap.ext_get? fun line => ?_
  rw [get?_flatten h.ageAll, age?_ageAll, AgedLines.reage, OrderedMap.get?_filterMap,
    get?_flatten h]
  cases n.age? g line with
  | none => rfl
  | some age =>
    simp only [Option.bind_some, Option.map_some, ← toNat_saturatingAdd_lt (g := g),
      ← UInt32.lt_iff_toNat_lt]
    split
    · rename_i hlt
      rw [Option.map_some, toNat_saturatingAdd hlt]
    · rfl

/-- Ageing evicts the same lines. -/
theorem mem_evictedByAging (h : n.Proper g) {more : UInt64 → Line → UInt32} :
    line ∈ n.evictedByAging g more ↔
      line ∈ n.flatten.evictedBy g fun line age => age + (more (g.setOf line) line).toNat := by
  have hstored : line ∈ n.evictedByAging g more ↔
      ∃ set line' age, (n.linesAt set).get? line' = some age ∧
        g.ways ≤ saturatingAdd age (more set line') ∧ line' = line := by
    simp only [evictedByAging, List.mem_flatMap, List.mem_map, List.mem_filter, decide_eq_true_eq,
      and_assoc]
    exact exists_entry_iff fun set line' age =>
      g.ways ≤ saturatingAdd age (more set line') ∧ line' = line
  rw [hstored, AgedLines.mem_evictedBy, get?_flatten h]
  constructor
  · rintro ⟨set, line, age, hget, hge, rfl⟩
    refine ⟨age.toNat, by rw [h.age?_eq hget, Option.map_some], ?_⟩
    rw [h.home _ _ _ hget]
    exact Nat.le_of_not_lt fun hlt =>
      absurd (toNat_saturatingAdd_lt.2 hlt) (Nat.not_lt.2 (UInt32.le_iff_toNat_le.1 hge))
  · rintro ⟨old, hold, hge⟩
    obtain ⟨age, hage, rfl⟩ := Option.map_eq_some_iff.1 hold
    refine ⟨g.setOf line, line, age, hage, ?_, rfl⟩
    rw [UInt32.le_iff_toNat_le]
    exact Nat.le_of_not_lt fun hlt => absurd (toNat_saturatingAdd_lt.1 hlt) (Nat.not_lt.2 hge)

/-! ### Joining, and adding lines -/

/-- Flattening commutes with intersections. -/
theorem flatten_intersect (h : n.Proper g) (h' : m.Proper g) :
    (n.intersect m).flatten = n.flatten.interWith max m.flatten := by
  refine OrderedMap.ext_get? fun line => ?_
  rw [get?_flatten (h.intersect h'), age?_intersect, OrderedMap.get?_interWith, get?_flatten h,
    get?_flatten h']
  cases n.age? g line with
  | none => rfl
  | some v =>
    cases m.age? g line with
    | none => rfl
    | some w => exact congrArg some (UInt32.toNat_max v w)

/-- Flattening commutes with unions, if ages are picked alike. -/
theorem flatten_union {pick : UInt32 → UInt32 → UInt32} {pick' : Nat → Nat → Nat}
    (hpick : ∀ v w, (pick v w).toNat = pick' v.toNat w.toNat) (h : n.Proper g) (h' : m.Proper g)
    (hunion : (n.union pick m).Proper g) :
    (n.union pick m).flatten = n.flatten.unionWith pick' m.flatten := by
  refine OrderedMap.ext_get? fun line => ?_
  rw [get?_flatten hunion, age?_union, OrderedMap.get?_unionWith, get?_flatten h, get?_flatten h']
  cases n.age? g line with
  | none => cases m.age? g line <;> rfl
  | some v =>
    cases m.age? g line with
    | none => rfl
    | some w => exact congrArg some (hpick v w)

/-- Lines that are entered are the youngest. -/
lemma age?_insertAll {lines : OrderedSet Line} :
    (n.insertAll g lines).age? g other = if other ∈ lines then some 0 else n.age? g other := by
  unfold insertAll
  simp only [OrderedSet.mem_def]
  induction lines.toList generalizing n with
  | nil => rfl
  | cons line lines ih =>
    rw [List.foldl_cons, ih, age?_insertYoungest]
    by_cases hmem : other ∈ lines <;> by_cases heq : other = line <;> simp [hmem, heq]

/-- Flattening commutes with entering lines. -/
theorem flatten_insertAll (h : n.Proper g) {lines : OrderedSet Line} :
    (n.insertAll g lines).flatten =
      n.flatten.unionWith (fun _ youngest => youngest) (.ofSet lines 0) := by
  refine OrderedMap.ext_get? fun line => ?_
  rw [get?_flatten (h.insertAll lines), age?_insertAll, OrderedMap.get?_unionWith,
    OrderedMap.get?_ofSet, get?_flatten h]
  split <;> cases n.age? g line <;> rfl

/-- The lines listed are the keys of the flattened map. -/
theorem mem_toLines (h : n.Proper g) : line ∈ n.toLines ↔ line ∈ n.flatten.keys := by
  have hstored : line ∈ n.toLines ↔
      ∃ set line' age, (n.linesAt set).get? line' = some age ∧ line' = line := by
    simp only [toLines, OrderedMap.keys, List.mem_flatMap, List.mem_map]
    exact exists_entry_iff fun _ line' _ => line' = line
  rw [hstored, OrderedMap.mem_keys, get?_flatten h]
  constructor
  · rintro ⟨set, line, age, hget, rfl⟩
    exact ⟨age.toNat, by rw [h.age?_eq hget, Option.map_some]⟩
  · rintro ⟨_, hold⟩
    obtain ⟨age, hage, _⟩ := Option.map_eq_some_iff.1 hold
    exact ⟨g.setOf line, line, age, hage, rfl⟩

end GroupedLines

end CacheVerdict
