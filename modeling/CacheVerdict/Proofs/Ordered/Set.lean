import Mathlib.Tactic.Lemma
import CacheVerdict.Ordered.Set

/-!
# Elements of ordered sets

Which elements the operations on sets leave, and that a set is determined by its elements
(`OrderedSet.ext_mem`).
-/

namespace CacheVerdict

open Std (TransOrd LawfulEqOrd TransCmp LawfulEqCmp)

namespace OrderedSet

variable {α : Type} [Ord α]

/-- The elements are those of the list. -/
lemma mem_def {a : α} {s : OrderedSet α} : a ∈ s ↔ a ∈ s.toList := Iff.rfl

/-- Merging loses no element. -/
lemma mem_merge [TransOrd α] [LawfulEqOrd α] {l r : List α} {c : α} :
    c ∈ merge l r ↔ c ∈ l ∨ c ∈ r := by
  refine ⟨mem_of_mem_merge, ?_⟩
  induction l generalizing r with
  | nil => simp [merge]
  | cons a l ihl =>
    rw [merge]
    induction r with
    | nil => simp [mergeFrom]
    | cons b r ihr =>
      simp only [mergeFrom]
      split
      · grind
      · rename_i heq
        obtain rfl := LawfulEqCmp.compare_eq_iff_eq.1 heq
        grind
      · grind

/-- The empty set has no elements. -/
@[simp]
lemma not_mem_empty (a : α) : ¬ a ∈ ({} : OrderedSet α) := List.not_mem_nil

/-- The elements after one was added. -/
@[simp]
lemma mem_insert [TransOrd α] [LawfulEqOrd α] {s : OrderedSet α} {a b : α} :
    b ∈ s.insert a ↔ b = a ∨ b ∈ s := by
  refine ⟨mem_of_mem_place, ?_⟩
  obtain ⟨l, _⟩ := s
  simp only [mem_def, insert]
  induction l with
  | nil => simp [place]
  | cons c rest ih =>
    simp only [place]
    split
    · exact List.mem_cons.2
    · rename_i heq
      obtain rfl := LawfulEqCmp.compare_eq_iff_eq.1 heq
      rintro (rfl | h)
      · exact List.mem_cons_self
      · exact h
    · rename_i hs _ _
      have ih := ih (List.pairwise_cons.1 hs).2
      grind

/-- The set of a list has its elements. -/
@[simp]
lemma mem_ofList [TransOrd α] [LawfulEqOrd α] {l : List α} {a : α} :
    a ∈ ofList l ↔ a ∈ l := by
  induction l with
  | nil => simp [ofList]
  | cons b l ih =>
    have : ofList (b :: l) = (ofList l).insert b := rfl
    rw [this, mem_insert, ih, List.mem_cons]

/-- The elements of a union. -/
@[simp]
lemma mem_union [TransOrd α] [LawfulEqOrd α] {s t : OrderedSet α} {a : α} :
    a ∈ s.union t ↔ a ∈ s ∨ a ∈ t :=
  mem_merge

/-- The elements after those of a list were added. -/
@[simp]
lemma mem_insertAll [TransOrd α] [LawfulEqOrd α] {s : OrderedSet α} {l : List α} {b : α} :
    b ∈ s.insertAll l ↔ b ∈ s ∨ b ∈ l := by
  simp [insertAll]

/-- The elements that are left. -/
@[simp]
lemma mem_filter {p : α → Bool} {s : OrderedSet α} {a : α} :
    a ∈ s.filter p ↔ a ∈ s ∧ p a = true :=
  List.mem_filter

/-- The numbers below a bound. -/
@[simp]
lemma mem_below {n i : Nat} : i ∈ below n ↔ i < n :=
  List.mem_range

/-- A set lists no element twice. -/
lemma nodup_toList [TransOrd α] (s : OrderedSet α) : s.toList.Nodup :=
  s.sorted.imp fun h heq => by simp [heq] at h

/-- A set is determined by its elements. -/
lemma ext_mem [TransOrd α] [LawfulEqOrd α] {s t : OrderedSet α} (h : ∀ a, a ∈ s ↔ a ∈ t) :
    s = t := by
  obtain ⟨l, hl⟩ := s
  obtain ⟨r, hr⟩ := t
  simp only [mem_def] at h
  have key : l = r := by
    induction l generalizing r with
    | nil =>
      cases r with
      | nil => rfl
      | cons b r => simpa using h b
    | cons a l ih =>
      cases r with
      | nil => simpa using h a
      | cons b r =>
        obtain ⟨hal, hl'⟩ := List.pairwise_cons.1 hl
        obtain ⟨hbr, hr'⟩ := List.pairwise_cons.1 hr
        have hab : a = b := by
          rcases List.mem_cons.1 ((h a).1 List.mem_cons_self) with hab | ha
          · exact hab
          · rcases List.mem_cons.1 ((h b).2 List.mem_cons_self) with hba | hb
            · exact hba.symm
            · have := TransCmp.lt_trans (hbr a ha) (hal b hb)
              simp at this
        subst hab
        congr 1
        refine ih hl' r hr' fun c => ⟨fun hc => ?_, fun hc => ?_⟩
        · rcases List.mem_cons.1 ((h c).1 (List.mem_cons_of_mem _ hc)) with rfl | h
          · have := hal c hc
            simp at this
          · exact h
        · rcases List.mem_cons.1 ((h c).2 (List.mem_cons_of_mem _ hc)) with rfl | h
          · have := hbr c hc
            simp at this
          · exact h
  subst key
  rfl

end OrderedSet

end CacheVerdict
