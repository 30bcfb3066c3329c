import Mathlib.Tactic.Lemma
import CacheVerdict.Ordered.Queue
import CacheVerdict.Ordered.Sort

/-!
# Folds, queues and sorting

Folding an operation that is associative, commutative and idempotent over a list hangs neither on
the order of the elements nor on how often each occurs. A queue serves its elements in the order in
which they came, and sorting only rearranges.
-/

namespace CacheVerdict

/-! ### Folds that look only at which elements there are -/

namespace Fold

variable {α : Type} (op : α → α → α) [Std.Associative op] [Std.Commutative op]

/-- What is combined last may as well be combined first. -/
lemma op_foldl (e x : α) (l : List α) : op (l.foldl op e) x = l.foldl op (op e x) := by
  have assoc : ∀ a b c, op (op a b) c = op a (op b c) := Std.Associative.assoc
  have comm : ∀ a b, op a b = op b a := Std.Commutative.comm
  induction l generalizing e with
  | nil => rfl
  | cons y l ih =>
    rw [List.foldl_cons, ih, List.foldl_cons, assoc, assoc, comm y x]

/-- The order of two folds does not matter. -/
lemma foldl_foldl_comm (e : α) (l r : List α) :
    r.foldl op (l.foldl op e) = l.foldl op (r.foldl op e) := by
  induction r generalizing e with
  | nil => rfl
  | cons y r ih => rw [List.foldl_cons, op_foldl op, ih, List.foldl_cons]

variable [Std.IdempotentOp op]

/-- A fold already holds what it has seen. -/
lemma op_foldl_of_mem (e : α) {x : α} {l : List α} (h : x ∈ l) :
    op (l.foldl op e) x = l.foldl op e := by
  have assoc : ∀ a b c, op (op a b) c = op a (op b c) := Std.Associative.assoc
  have idem : ∀ a, op a a = a := Std.IdempotentOp.idempotent
  induction l generalizing e with
  | nil => cases h
  | cons y l ih =>
    rcases List.mem_cons.1 h with rfl | h
    · rw [List.foldl_cons, op_foldl op, assoc, idem]
    · exact ih _ h

/-- Folding in what has been seen already changes nothing. -/
lemma foldl_foldl_of_subset (e : α) {l r : List α} (h : ∀ v ∈ r, v ∈ l) :
    r.foldl op (l.foldl op e) = l.foldl op e := by
  induction r with
  | nil => rfl
  | cons y r ih =>
    rw [List.foldl_cons, op_foldl_of_mem op e (h y List.mem_cons_self)]
    exact ih fun v hv => h v (List.mem_cons_of_mem _ hv)

/-- A fold hangs only on which elements there are. -/
lemma foldl_congr_mem (e : α) {l r : List α} (h : ∀ v, v ∈ l ↔ v ∈ r) :
    l.foldl op e = r.foldl op e := by
  rw [← foldl_foldl_of_subset op e fun v hv => (h v).2 hv, foldl_foldl_comm op,
    foldl_foldl_of_subset op e fun v hv => (h v).1 hv]

/-- Which element a fold starts from does not matter. -/
lemma foldl_eq_of_mem {x y : α} {l : List α} (hx : x ∈ l) (hy : y ∈ l) :
    l.foldl op x = l.foldl op y := by
  have comm : ∀ a b, op a b = op b a := Std.Commutative.comm
  rw [← op_foldl_of_mem op x hy, op_foldl op, comm, ← op_foldl op, op_foldl_of_mem op y hx]

end Fold

/-! ### Queues -/

namespace Queue

variable {α : Type}

/-- A queue has the elements that it is made of. -/
@[simp]
lemma toList_ofList (l : List α) : (ofList l).toList = l :=
  List.append_nil l

/-- Who comes later is served later. -/
@[simp]
lemma toList_pushAll (q : Queue α) (l : List α) : (q.pushAll l).toList = q.toList ++ l := by
  simp [toList, pushAll, List.reverseAux_eq]

/-- An empty queue serves nobody. -/
lemma pop?_eq_none {q : Queue α} : q.pop? = none ↔ q.toList = [] := by
  obtain ⟨front, back⟩ := q
  cases front with
  | cons a front => simp [pop?, toList]
  | nil =>
    simp only [pop?, toList, List.nil_append]
    cases back.reverse <;> simp

/-- The one who is served came first, and the others keep their order. -/
lemma toList_of_pop? {q r : Queue α} {a : α} (h : q.pop? = some (a, r)) :
    q.toList = a :: r.toList := by
  obtain ⟨front, back⟩ := q
  cases front with
  | cons b front =>
    obtain ⟨rfl, rfl⟩ : b = a ∧ ⟨front, back⟩ = r := by simpa [pop?] using h
    rfl
  | nil =>
    simp only [pop?] at h
    split at h
    · cases h
    · rename_i hback
      cases h
      simp [toList, hback]

end Queue

/-! ### Sorting -/

section

variable {α : Type}

/-- Inserting adds one element and loses none. -/
lemma insertBy_perm (le : α → α → Bool) (a : α) (l : List α) :
    (insertBy le a l).Perm (a :: l) := by
  induction l with
  | nil => exact .refl _
  | cons b rest ih =>
    simp only [insertBy]
    split
    · exact .refl _
    · exact (ih.cons b).trans (.swap a b rest)

/-- Sorting rearranges. -/
lemma sortBy_perm (le : α → α → Bool) (l : List α) : (sortBy le l).Perm l := by
  induction l with
  | nil => exact .refl _
  | cons a rest ih => exact (insertBy_perm le a _).trans (ih.cons a)

end

end CacheVerdict
