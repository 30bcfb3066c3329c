import Mathlib.Tactic.Lemma
import CacheVerdict.Ordered.Map
import CacheVerdict.Proofs.Ordered.Set

/-!
# Looking up in ordered maps

What is found after each operation on maps, and that a map is determined by what is found
(`OrderedMap.ext_get?`).
-/

namespace CacheVerdict

open Std (TransOrd LawfulEqOrd TransCmp LawfulEqCmp OrientedCmp)

namespace OrderedMap

variable {κ ν ω : Type} [Ord κ]

/-- The empty map has no entries. -/
@[simp]
lemma entries_empty : ({} : OrderedMap κ ν).entries = [] := rfl

/-- Nothing is found in the empty map. -/
@[simp]
lemma get?_empty (k : κ) : ({} : OrderedMap κ ν).get? k = none := rfl

/-- Below the least key nothing is found. -/
lemma lookup_eq_none {k : κ} {l : List (κ × ν)} (h : ∀ e ∈ l, compare k e.1 = .lt) :
    lookup k l = none := by
  induction l with
  | nil => rfl
  | cons e l ih =>
    rw [lookup, if_neg (by simp [h e List.mem_cons_self])]
    exact ih fun e' he' => h e' (List.mem_cons_of_mem _ he')

/-- Looking up among entries of which one was placed. -/
lemma lookup_place [TransOrd κ] [LawfulEqOrd κ] [DecidableEq κ] (pick : ν → ν → ν) (k q : κ)
    (v : ν) {l : List (κ × ν)} (h : l.Pairwise (fun a b => compare a.1 b.1 = .lt)) :
    lookup q (place pick k v l) =
      if q = k then some ((lookup k l).elim v (pick · v)) else lookup q l := by
  induction l with
  | nil => by_cases hq : q = k <;> simp [place, lookup, hq]
  | cons x rest ih =>
    obtain ⟨k', v'⟩ := x
    obtain ⟨hr, ht⟩ := List.pairwise_cons.1 h
    simp only [place]
    split
    · rename_i hlt
      have hk : lookup k ((k', v') :: rest) = none := by
        refine lookup_eq_none fun e he => ?_
        rcases List.mem_cons.1 he with rfl | he
        · exact hlt
        · exact TransCmp.lt_trans hlt (hr e he)
      rw [lookup, hk]
      simp only [LawfulEqCmp.compare_eq_iff_eq, Option.elim_none]
    · rename_i heq
      obtain rfl := LawfulEqCmp.compare_eq_iff_eq.1 heq
      by_cases hq : q = k <;> simp [lookup, hq]
    · rename_i hgt
      have hne : k ≠ k' := by rintro rfl; simp at hgt
      rw [lookup, ih ht]
      by_cases hq : q = k
      · subst hq
        simp [lookup, hne]
      · simp [lookup, hq]

/-- Looking up after an insertion. -/
lemma get?_insertWith [TransOrd κ] [LawfulEqOrd κ] [DecidableEq κ] (pick : ν → ν → ν)
    (m : OrderedMap κ ν) (k q : κ) (v : ν) :
    (m.insertWith pick k v).get? q =
      if q = k then some ((m.get? k).elim v (pick · v)) else m.get? q :=
  lookup_place pick k q v m.sorted

/-- Looking up after a value was put in. -/
lemma get?_insert [TransOrd κ] [LawfulEqOrd κ] [DecidableEq κ] (m : OrderedMap κ ν) (k q : κ)
    (v : ν) : (m.insert k v).get? q = if q = k then some v else m.get? q := by
  rw [insert, get?_insertWith]
  cases m.get? k <;> rfl

/-- Looking up after a filtered map: the entry's own image. -/
lemma get?_filterMap [TransOrd κ] [LawfulEqOrd κ] (f : κ → ν → Option ω) (m : OrderedMap κ ν)
    (k : κ) : (m.filterMap f).get? k = (m.get? k).bind (f k) := by
  obtain ⟨l, h⟩ := m
  simp only [get?, filterMap]
  induction l with
  | nil => rfl
  | cons x rest ih =>
    obtain ⟨k', v'⟩ := x
    obtain ⟨hr, ht⟩ := List.pairwise_cons.1 h
    have ih := ih ht
    by_cases hk : compare k k' = .eq
    · obtain rfl := LawfulEqCmp.compare_eq_iff_eq.1 hk
      cases hf : f k v' with
      | some w => simp [hf, lookup]
      | none => simp [hf, lookup, ih, lookup_eq_none hr]
    · cases hf : f k' v' <;> simp [hf, lookup, hk, ih]

/-- Looking up after an entry was dropped. -/
lemma get?_erase [TransOrd κ] [LawfulEqOrd κ] [DecidableEq κ] (m : OrderedMap κ ν) (k q : κ) :
    (m.erase k).get? q = if q = k then none else m.get? q := by
  rw [erase, filter, get?_filterMap]
  by_cases hq : q = k
  · subst hq
    cases m.get? q <;> simp
  · have hne : compare q k ≠ .eq := fun heq => hq (LawfulEqCmp.compare_eq_iff_eq.1 heq)
    rw [if_neg hq]
    cases m.get? q <;> simp [hne]

/-- Looking up among merged entries. -/
lemma lookup_mergeWith [TransOrd κ] [LawfulEqOrd κ] [DecidableEq κ] (pick : ν → ν → ν)
    {l r : List (κ × ν)} (hl : l.Pairwise (fun a b => compare a.1 b.1 = .lt))
    (hr : r.Pairwise (fun a b => compare a.1 b.1 = .lt)) (q : κ) :
    lookup q (mergeWith pick l r) = Option.merge pick (lookup q l) (lookup q r) := by
  induction l generalizing r with
  | nil => cases h : lookup q r <;> simp [mergeWith, lookup, h, Option.merge]
  | cons x l ihl =>
    obtain ⟨k, v⟩ := x
    obtain ⟨hkl, hl'⟩ := List.pairwise_cons.1 hl
    rw [mergeWith]
    induction r with
    | nil => cases h : lookup q ((k, v) :: l) <;> simp [mergeFrom, lookup, h, Option.merge]
    | cons y r ihr =>
      obtain ⟨k', v'⟩ := y
      obtain ⟨hkr, hr'⟩ := List.pairwise_cons.1 hr
      simp only [mergeFrom]
      split
      · rename_i hlt
        have hk : lookup k ((k', v') :: r) = none := by
          refine lookup_eq_none fun e he => ?_
          rcases List.mem_cons.1 he with rfl | he
          · exact hlt
          · exact TransCmp.lt_trans hlt (hkr e he)
        rw [lookup, ihl hl' hr]
        by_cases hq : q = k
        · subst hq
          rw [hk]
          simp [lookup, Option.merge]
        · simp [lookup, hq]
      · rename_i heq
        obtain rfl := LawfulEqCmp.compare_eq_iff_eq.1 heq
        rw [lookup, ihl hl' hr']
        by_cases hq : q = k
        · subst hq
          simp [lookup, Option.merge]
        · simp [lookup, hq]
      · rename_i hgt
        have hlt := OrientedCmp.lt_of_gt hgt
        have hk : lookup k' ((k, v) :: l) = none := by
          refine lookup_eq_none fun e he => ?_
          rcases List.mem_cons.1 he with rfl | he
          · exact hlt
          · exact TransCmp.lt_trans hlt (hkl e he)
        rw [lookup, ihr hr']
        by_cases hq : q = k'
        · subst hq
          rw [hk]
          simp [lookup, Option.merge]
        · simp [lookup, hq]

/-- Looking up in a union: the two values merged. -/
lemma get?_unionWith [TransOrd κ] [LawfulEqOrd κ] [DecidableEq κ] (pick : ν → ν → ν)
    (m n : OrderedMap κ ν) (k : κ) :
    (m.unionWith pick n).get? k = Option.merge pick (m.get? k) (n.get? k) :=
  lookup_mergeWith pick m.sorted n.sorted k

/-- Looking up among common entries. -/
lemma lookup_commonWith [TransOrd κ] [LawfulEqOrd κ] [DecidableEq κ] (pick : ν → ν → ν)
    {l r : List (κ × ν)} (hl : l.Pairwise (fun a b => compare a.1 b.1 = .lt))
    (hr : r.Pairwise (fun a b => compare a.1 b.1 = .lt)) (q : κ) :
    lookup q (commonWith pick l r) = (lookup q l).bind fun v => (lookup q r).map (pick v) := by
  induction l generalizing r with
  | nil => rfl
  | cons x l ihl =>
    obtain ⟨k, v⟩ := x
    obtain ⟨hkl, hl'⟩ := List.pairwise_cons.1 hl
    rw [commonWith]
    induction r with
    | nil => cases h : lookup q ((k, v) :: l) <;> simp [commonFrom, lookup]
    | cons y r ihr =>
      obtain ⟨k', v'⟩ := y
      obtain ⟨hkr, hr'⟩ := List.pairwise_cons.1 hr
      simp only [commonFrom]
      split
      · rename_i hlt
        rw [ihl hl' hr]
        by_cases hq : q = k
        · subst hq
          have hk : lookup q ((k', v') :: r) = none := by
            refine lookup_eq_none fun e he => ?_
            rcases List.mem_cons.1 he with rfl | he
            · exact hlt
            · exact TransCmp.lt_trans hlt (hkr e he)
          rw [hk, lookup_eq_none hkl]
          simp
        · simp [lookup, hq]
      · rename_i heq
        obtain rfl := LawfulEqCmp.compare_eq_iff_eq.1 heq
        rw [lookup, ihl hl' hr']
        by_cases hq : q = k
        · subst hq
          simp [lookup]
        · simp [lookup, hq]
      · rename_i hgt
        have hlt := OrientedCmp.lt_of_gt hgt
        rw [ihr hr']
        by_cases hq : q = k'
        · subst hq
          have hk : lookup q ((k, v) :: l) = none := by
            refine lookup_eq_none fun e he => ?_
            rcases List.mem_cons.1 he with rfl | he
            · exact hlt
            · exact TransCmp.lt_trans hlt (hkl e he)
          rw [hk]
          rfl
        · simp [lookup, hq]

/-- Looking up in an intersection: both maps hold the key. -/
lemma get?_interWith [TransOrd κ] [LawfulEqOrd κ] [DecidableEq κ] (pick : ν → ν → ν)
    (m n : OrderedMap κ ν) (k : κ) :
    (m.interWith pick n).get? k = (m.get? k).bind fun v => (n.get? k).map (pick v) :=
  lookup_commonWith pick m.sorted n.sorted k

/-- A map holds an entry if looking its key up gives its value. -/
lemma mem_entries [TransOrd κ] [LawfulEqOrd κ] {m : OrderedMap κ ν} {e : κ × ν} :
    e ∈ m.entries ↔ m.get? e.1 = some e.2 := by
  obtain ⟨l, h⟩ := m
  obtain ⟨k, v⟩ := e
  simp only [get?]
  induction l with
  | nil => simp [lookup]
  | cons x rest ih =>
    obtain ⟨k', v'⟩ := x
    obtain ⟨hr, ht⟩ := List.pairwise_cons.1 h
    have ih := ih ht
    by_cases hk : compare k k' = .eq
    · obtain rfl := LawfulEqCmp.compare_eq_iff_eq.1 hk
      have hnot : (k, v) ∉ rest := fun hm => by simpa using hr _ hm
      simp [lookup, hnot, eq_comm]
    · have hne : k ≠ k' := fun heq => hk (heq ▸ LawfulEqCmp.compare_eq_iff_eq.2 rfl)
      simp [lookup, hk, hne, ih]

/-- The keys are those that a value is held for. -/
lemma mem_keys [TransOrd κ] [LawfulEqOrd κ] {m : OrderedMap κ ν} {k : κ} :
    k ∈ m.keys ↔ ∃ v, m.get? k = some v := by
  rw [keys, List.mem_map]
  constructor
  · rintro ⟨e, he, rfl⟩
    exact ⟨e.2, mem_entries.1 he⟩
  · rintro ⟨v, hget⟩
    exact ⟨(k, v), mem_entries.2 hget, rfl⟩

/-- Looking up after all values were mapped. -/
lemma get?_mapValues [TransOrd κ] [LawfulEqOrd κ] (f : ν → ω) (m : OrderedMap κ ν) (k : κ) :
    (m.mapValues f).get? k = (m.get? k).map f := by
  rw [mapValues, get?_filterMap]
  cases m.get? k <;> rfl

/-- Looking up in a map that holds one value at every element of a set. -/
lemma get?_ofSet [TransOrd κ] [LawfulEqOrd κ] [DecidableEq κ] (s : OrderedSet κ) (v : ν) (k : κ) :
    (ofSet s v).get? k = if k ∈ s then some v else none := by
  by_cases hk : k ∈ s
  · rw [if_pos hk]
    exact (mem_entries (e := (k, v))).1 (List.mem_map.2 ⟨k, hk, rfl⟩)
  · rw [if_neg hk]
    cases hg : (ofSet s v).get? k with
    | none => rfl
    | some w =>
      have hm : (k, w) ∈ (ofSet s v).entries := mem_entries.2 hg
      obtain ⟨k', hk', heq⟩ := List.mem_map.1 hm
      cases heq
      exact absurd hk' hk

/-- What is held for a key is one of the given values. -/
lemma mem_of_get?_ofList [TransOrd κ] [LawfulEqOrd κ] [DecidableEq κ] {l : List (κ × ν)} {k : κ}
    {v : ν} (h : (ofList l).get? k = some v) : (k, v) ∈ l := by
  induction l with
  | nil => cases h
  | cons e l ih =>
    have step : ofList (e :: l) = (ofList l).insertWith (fun old _ => old) e.1 e.2 := rfl
    rw [step, get?_insertWith] at h
    split at h
    · rename_i heq
      cases hrest : (ofList l).get? e.1 with
      | none =>
        rw [hrest] at h
        cases h
        rw [heq]
        exact List.mem_cons_self
      | some w =>
        rw [hrest] at h
        cases h
        exact List.mem_cons_of_mem _ (ih (heq ▸ hrest))
    · exact List.mem_cons_of_mem _ (ih h)

/-- A value whose key no other one has is held. -/
lemma get?_ofList_of_mem [TransOrd κ] [LawfulEqOrd κ] [DecidableEq κ] {l : List (κ × ν)} {k : κ}
    {v : ν} (hmem : (k, v) ∈ l) (unique : ∀ w, (k, w) ∈ l → w = v) :
    (ofList l).get? k = some v := by
  cases h : (ofList l).get? k with
  | some w => rw [unique w (mem_of_get?_ofList h)]
  | none =>
    exfalso
    induction l with
    | nil => cases hmem
    | cons e l ih =>
      have step : ofList (e :: l) = (ofList l).insertWith (fun old _ => old) e.1 e.2 := rfl
      rw [step, get?_insertWith] at h
      split at h
      · cases h
      · rename_i hne
        rcases List.mem_cons.1 hmem with rfl | hmem
        · exact hne rfl
        · exact ih hmem (fun w hw => unique w (List.mem_cons_of_mem _ hw)) h

/-- A map is determined by its look-ups. -/
lemma ext_get? [TransOrd κ] [LawfulEqOrd κ] {m n : OrderedMap κ ν}
    (h : ∀ k, m.get? k = n.get? k) : m = n := by
  obtain ⟨l, hl⟩ := m
  obtain ⟨r, hr⟩ := n
  have key : l = r := by
    induction l generalizing r with
    | nil =>
      cases r with
      | nil => rfl
      | cons y r => simpa [get?, lookup] using h y.1
    | cons x l ih =>
      cases r with
      | nil => simpa [get?, lookup] using h x.1
      | cons y r =>
        obtain ⟨a, v⟩ := x
        obtain ⟨b, w⟩ := y
        obtain ⟨hal, hl'⟩ := List.pairwise_cons.1 hl
        obtain ⟨hbr, hr'⟩ := List.pairwise_cons.1 hr
        have hab : a = b := by
          cases hc : compare a b with
          | eq => exact LawfulEqCmp.compare_eq_iff_eq.1 hc
          | lt =>
            have := h a
            simp only [get?, lookup, hc] at this
            rw [lookup_eq_none fun e he => TransCmp.lt_trans hc (hbr e he)] at this
            simp at this
          | gt =>
            have hc := OrientedCmp.lt_of_gt hc
            have := h b
            simp only [get?, lookup, hc] at this
            rw [lookup_eq_none fun e he => TransCmp.lt_trans hc (hal e he)] at this
            simp at this
        subst hab
        have hvw : v = w := by
          have := h a
          simpa [get?, lookup] using this
        subst hvw
        congr 1
        refine ih hl' r hr' fun k => ?_
        by_cases hk : compare k a = .eq
        · obtain rfl := LawfulEqCmp.compare_eq_iff_eq.1 hk
          simp only [get?]
          rw [lookup_eq_none hal, lookup_eq_none hbr]
        · have := h k
          simpa [get?, lookup, hk] using this
  subst key
  rfl

end OrderedMap

end CacheVerdict
