import CacheVerdict.Proofs.Procedure.LoopNest

/-!
# Loops as a forest

The nest of the loops of a procedure is a forest. The parent of a loop is the next loop around it
(`LoopNest.within_of_parent?`, `LoopNest.parent?_eq_none_iff`), the way from parent to parent ends
(`LoopNest.lineage_ancestors`), and the depth counts the loops on it. Natural loops are nested in each
other or share no node; for them, a loop around another is less deep
(`LoopNest.Natural.depth_lt_of_within`), so the loops around a node, deepest first, come from the
innermost to the outermost (`Procedure.loopNest_forest`).
-/

namespace CacheVerdict

/-- A loop has all its nodes in another, which has more. -/
structure Loop.Inside (inner outer : Loop) : Prop where
  subset : ∀ n ∈ inner.body, n ∈ outer.body
  proper : ∃ n ∈ outer.body, ¬ n ∈ inner.body

/-- The test for an enclosing loop is exact. -/
lemma Loop.encloses_iff {inner outer : Loop} : outer.encloses inner = true ↔ inner.Inside outer := by
  have hall : inner.body.toList.all outer.body.contains = true ↔ ∀ n ∈ inner.body, n ∈ outer.body := by
    simp [OrderedSet.contains, OrderedSet.mem_def]
  rw [encloses, Bool.and_eq_true, decide_eq_true_eq, hall]
  constructor
  · rintro ⟨hlt, hsubset⟩
    refine ⟨hsubset, ?_⟩
    by_contra hnone
    push Not at hnone
    have hle := (outer.body.nodup_toList.subperm hnone).length_le
    exact absurd hlt (Nat.not_lt.2 hle)
  · rintro ⟨hsubset, n, houter, hinner⟩
    refine ⟨?_, hsubset⟩
    have hsub := (List.nodup_cons.2 ⟨hinner, inner.body.nodup_toList⟩).subperm
      (List.cons_subset.2 ⟨houter, hsubset⟩)
    have hle := hsub.length_le
    rwa [List.length_cons] at hle

namespace LoopNest

variable {loops : List Loop} {l o b n : Nat}

/-- Of two loops, by position, the first lies inside the second. -/
def Within (loops : List Loop) (l o : Nat) : Prop :=
  ∃ inner outer, loops[l]? = some inner ∧ loops[o]? = some outer ∧ inner.Inside outer

/-- A loop, by position, contains a node. -/
def Holds (loops : List Loop) (l n : Nat) : Prop :=
  ∃ loop, loops[l]? = some loop ∧ n ∈ loop.body

/-- A loop within another one has fewer nodes. -/
lemma Within.sizeAt_lt (h : Within loops l o) : sizeAt loops l < sizeAt loops o := by
  obtain ⟨inner, outer, hinner, houter, hinside⟩ := h
  have hencloses := Loop.encloses_iff.2 hinside
  rw [Loop.encloses, Bool.and_eq_true, decide_eq_true_eq] at hencloses
  simpa [sizeAt, hinner, houter] using hencloses.1

/-- The nodes of a loop lie in the loops around it. -/
lemma Within.holds (h : Within loops l o) (hn : Holds loops l n) : Holds loops o n := by
  obtain ⟨inner, outer, hinner, houter, hinside⟩ := h
  obtain ⟨loop, hloop, hmem⟩ := hn
  obtain rfl := Option.some.inj (hloop.symm.trans hinner)
  exact ⟨outer, houter, hinside.subset n hmem⟩

/-- Only loops of the procedure hold nodes. -/
lemma Holds.lt (h : Holds loops l n) : l < loops.length := by
  obtain ⟨_, hloop, _⟩ := h
  exact (List.getElem?_eq_some_iff.1 hloop).1

/-- Only loops of the procedure lie within others. -/
lemma Within.lt (h : Within loops l o) : l < loops.length := by
  obtain ⟨_, _, hinner, _⟩ := h
  exact (List.getElem?_eq_some_iff.1 hinner).1

/-! ### Parents -/

/-- There is no smallest loop only where there is no loop. -/
lemma smallest_eq_none {candidates : List (Loop × Nat)} :
    smallest candidates = none ↔ candidates = [] := by
  cases candidates with
  | nil => exact ⟨fun _ => rfl, fun _ => rfl⟩
  | cons x rest =>
    unfold smallest
    split
    · simp
    · split <;> simp

/-- The smallest loop is no larger than the others. -/
lemma size_le_of_smallest {candidates : List (Loop × Nat)} {x y : Loop × Nat}
    (h : smallest candidates = some x) (hy : y ∈ candidates) : x.1.body.size ≤ y.1.body.size := by
  induction candidates generalizing x with
  | nil => cases hy
  | cons z rest ih =>
    unfold smallest at h
    split at h
    · rename_i hnone
      cases h
      rw [smallest_eq_none.1 hnone, List.mem_singleton] at hy
      subst hy
      exact Nat.le_refl _
    · rename_i w hw
      rcases List.mem_cons.1 hy with rfl | hy
      · split at h <;> cases h <;> omega
      · have hle := ih hw hy
        split at h <;> cases h <;> omega

/-- The enclosers of a loop are the loops that it lies inside of. -/
lemma mem_enclosers {inner outer : Loop} (hinner : loops[l]? = some inner) :
    (outer, o) ∈ enclosers loops l inner ↔ loops[o]? = some outer ∧ inner.Inside outer := by
  unfold enclosers
  rw [List.mem_filter, List.mem_zipIdx_iff_getElem?, Bool.and_eq_true, bne_iff_ne, Loop.encloses_iff]
  constructor
  · rintro ⟨houter, -, hinside⟩
    exact ⟨houter, hinside⟩
  · rintro ⟨houter, hinside⟩
    refine ⟨houter, ?_, hinside⟩
    rintro rfl
    obtain rfl := Option.some.inj (hinner.symm.trans houter)
    obtain ⟨n, hmem, hnot⟩ := hinside.proper
    exact hnot hmem

/-- The parent of a loop is the smallest one around it. -/
lemma parent?_eq {inner : Loop} (hinner : loops[l]? = some inner) :
    (ofLoops loops).parent? l = (smallest (enclosers loops l inner)).map Prod.snd := by
  unfold parent? ofLoops parentsOf
  rw [List.getElem?_map, List.getElem?_zipIdx, hinner, Nat.zero_add]
  rfl

/-- A parent is a loop around its child, and no smaller one is. -/
lemma within_of_parent? (h : (ofLoops loops).parent? l = some o) :
    Within loops l o ∧ ∀ b, Within loops l b → sizeAt loops o ≤ sizeAt loops b := by
  obtain ⟨inner, _, hinner, _⟩ := size_lt_of_parent h
  rw [parent?_eq hinner] at h
  obtain ⟨⟨outer, o'⟩, hsmallest, rfl⟩ := Option.map_eq_some_iff.1 h
  obtain ⟨houter, hinside⟩ := (mem_enclosers hinner).1 (mem_of_smallest hsmallest)
  refine ⟨⟨inner, outer, hinner, houter, hinside⟩, ?_⟩
  rintro b ⟨inner', around, hinner', haround, hinside'⟩
  obtain rfl := Option.some.inj (hinner.symm.trans hinner')
  have hle := size_le_of_smallest hsmallest ((mem_enclosers hinner).2 ⟨haround, hinside'⟩)
  simpa [sizeAt, houter, haround] using hle

/-- No loop lies between a loop and its parent. -/
lemma not_between_of_parent? (h : (ofLoops loops).parent? l = some o) :
    ¬ (Within loops l b ∧ Within loops b o) := by
  rintro ⟨hinner, houter⟩
  have hle := (within_of_parent? h).2 b hinner
  have hlt := houter.sizeAt_lt
  omega

/-- A loop without parent lies within no other one. -/
lemma parent?_eq_none_iff (hl : l < loops.length) :
    (ofLoops loops).parent? l = none ↔ ∀ o, ¬ Within loops l o := by
  obtain ⟨inner, hinner⟩ : ∃ inner, loops[l]? = some inner := ⟨_, List.getElem?_eq_getElem hl⟩
  rw [parent?_eq hinner, Option.map_eq_none_iff, smallest_eq_none, List.eq_nil_iff_forall_not_mem]
  constructor
  · rintro hnone o ⟨inner', outer, hinner', houter, hinside⟩
    obtain rfl := Option.some.inj (hinner.symm.trans hinner')
    exact hnone (outer, o) ((mem_enclosers hinner).2 ⟨houter, hinside⟩)
  · rintro hnone ⟨outer, o⟩ hmem
    obtain ⟨houter, hinside⟩ := (mem_enclosers hinner).1 hmem
    exact hnone o ⟨inner, outer, hinner, houter, hinside⟩

/-! ### The way to the outermost loop -/

/-- The loops on the way from a loop to the outermost one around it, from parent to parent. -/
inductive Lineage (nest : LoopNest) : Nat → List Nat → Prop where
  | outermost {l : Nat} : nest.parent? l = none → Lineage nest l []
  | parent {l o : Nat} {above : List Nat} : nest.parent? l = some o → Lineage nest o above →
    Lineage nest l (o :: above)

/-- A loop has one lineage. -/
lemma Lineage.unique {nest : LoopNest} {above above' : List Nat} (h : nest.Lineage l above)
    (h' : nest.Lineage l above') : above = above' := by
  induction h generalizing above' with
  | outermost hnone =>
    cases h' with
    | outermost => rfl
    | parent hsome => cases hnone.symm.trans hsome
  | parent hsome _ ih =>
    cases h' with
    | outermost hnone => cases hnone.symm.trans hsome
    | parent hsome' hrest =>
      obtain rfl := Option.some.inj (hsome.symm.trans hsome')
      rw [ih hrest]

/-- A walk that ends before its fuel does reaches the outermost loop. -/
lemma lineage_of_length_lt {nest : LoopNest} {fuel : Nat}
    (h : (ancestorsWithin nest.parents fuel l).length < fuel) :
    nest.Lineage l (ancestorsWithin nest.parents fuel l) := by
  induction fuel generalizing l with
  | zero => cases h
  | succ fuel ih =>
    unfold ancestorsWithin at h ⊢
    split
    · rename_i hnone
      exact .outermost hnone
    · rename_i o hsome
      rw [hsome] at h
      exact .parent hsome (ih (Nat.lt_of_succ_lt_succ h))

/-- The way from parent to parent ends. -/
lemma lineage_ancestors (hl : l < loops.length) :
    (ofLoops loops).Lineage l ((ofLoops loops).ancestors l) :=
  lineage_of_length_lt (length_ancestorsWithin_lt hl)

/-- No loop occurs twice in a lineage. -/
lemma nodup_ancestors (hl : l < loops.length) : ((ofLoops loops).ancestors l).Nodup := by
  have hsorted := (List.pairwise_cons.1 (chain_ancestorsWithin loops.length hl).1).2
  refine hsorted.imp ?_
  rintro a b hlt rfl
  exact Nat.lt_irrefl _ hlt

/-- The depth counts the loop and its ancestors. -/
lemma depth_eq (hl : l < loops.length) :
    (ofLoops loops).depth l = 1 + ((ofLoops loops).ancestors l).length := by
  unfold depth ofLoops
  simp only [List.getElem?_map]
  rw [List.getElem?_range hl]
  rfl

/-- The depth counts the loop and its lineage. -/
lemma Lineage.depth_eq {above : List Nat} (h : (ofLoops loops).Lineage l above)
    (hl : l < loops.length) : (ofLoops loops).depth l = 1 + above.length := by
  rw [LoopNest.depth_eq hl, (lineage_ancestors hl).unique h]

/-! ### Natural loops -/

/-- Loops as natural ones are: two of them are nested or share no node, and no two are the same. -/
structure Natural (loops : List Loop) : Prop where
  nested : ∀ a ∈ loops, ∀ b ∈ loops, (∀ n ∈ a.body, n ∈ b.body) ∨ (∀ n ∈ b.body, n ∈ a.body) ∨
    ∀ n ∈ a.body, ¬ n ∈ b.body
  distinct : (loops.map Loop.body).Nodup

/-- Of two natural loops around a node, one lies inside the other. -/
lemma Natural.within_or_within (natural : Natural loops) (hl : Holds loops l n) (ho : Holds loops o n)
    (hne : l ≠ o) : Within loops l o ∨ Within loops o l := by
  obtain ⟨a, ha, hna⟩ := hl
  obtain ⟨b, hb, hnb⟩ := ho
  have hbodies : a.body ≠ b.body := by
    intro heq
    have hl : l < (loops.map Loop.body).length := by
      rw [List.length_map]
      exact (List.getElem?_eq_some_iff.1 ha).1
    refine hne ((List.getElem?_inj hl natural.distinct).1 ?_)
    rw [List.getElem?_map, List.getElem?_map, ha, hb, Option.map_some, Option.map_some, heq]
  -- of different sets that are nested, the larger one has more
  have hproper {a b : Loop} (hsubset : ∀ n ∈ a.body, n ∈ b.body) (hbodies : a.body ≠ b.body) :
      a.Inside b := by
    refine ⟨hsubset, ?_⟩
    by_contra hnone
    push Not at hnone
    exact hbodies (OrderedSet.ext_mem fun x => ⟨hsubset x, hnone x⟩)
  obtain hab | hba | hapart := natural.nested a (List.mem_of_getElem? ha) b (List.mem_of_getElem? hb)
  · exact .inl ⟨a, b, ha, hb, hproper hab hbodies⟩
  · exact .inr ⟨b, a, hb, ha, hproper hba hbodies.symm⟩
  · exact absurd hnb (hapart n hna)

/-- On the way from a natural loop to the outermost one, every loop around it is met. -/
lemma Natural.lineage_of_within (natural : Natural loops) {above : List Nat}
    (h : (ofLoops loops).Lineage l above) (hn : Holds loops l n) (ho : Within loops l o) :
    ∃ above', (ofLoops loops).Lineage o above' ∧ above'.length < above.length := by
  induction h with
  | outermost hnone => exact absurd ho ((parent?_eq_none_iff ho.lt).1 hnone o)
  | @parent l q above hsome hrest ih =>
    have hq := (within_of_parent? hsome).1
    by_cases heq : o = q
    · subst heq
      exact ⟨above, hrest, Nat.lt_succ_self _⟩
    · rcases natural.within_or_within (ho.holds hn) (hq.holds hn) heq with hoq | hqo
      · exact absurd ⟨ho, hoq⟩ (not_between_of_parent? hsome)
      · obtain ⟨above', hlineage, hlt⟩ := ih (hq.holds hn) hqo
        exact ⟨above', hlineage, Nat.lt_succ_of_lt hlt⟩

/-- A natural loop around another is less deep. -/
lemma Natural.depth_lt_of_within (natural : Natural loops) (hn : Holds loops l n)
    (ho : Within loops l o) : (ofLoops loops).depth o < (ofLoops loops).depth l := by
  obtain ⟨above, hlineage, hlt⟩ := natural.lineage_of_within (lineage_ancestors ho.lt) hn ho
  rw [hlineage.depth_eq (ho.holds hn).lt, depth_eq ho.lt]
  omega

/-! ### The loops around a node -/

/-- The loops around a node are those that hold it. -/
lemma mem_around {d : Nat} : (l, d) ∈ (ofLoops loops).around n ↔
    Holds loops l n ∧ d = (ofLoops loops).depth l := by
  have hloops : (ofLoops loops).loops = loops := rfl
  simp only [around, Holds, List.mem_filterMap, Prod.exists, List.mem_zipIdx_iff_getElem?, hloops,
    OrderedSet.contains, decide_eq_true_eq, Option.ite_none_right_eq_some, Option.some.injEq,
    Prod.mk.injEq]
  constructor
  · rintro ⟨loop, _, hloop, hmem, rfl, rfl⟩
    exact ⟨⟨loop, hloop, hmem⟩, rfl⟩
  · rintro ⟨⟨loop, hloop, hmem⟩, rfl⟩
    exact ⟨loop, l, hloop, hmem, rfl, rfl⟩

/-- No loop stands twice around a node. -/
lemma pairwise_around (nest : LoopNest) (n : Nat) :
    (nest.around n).Pairwise fun a b => a.1 ≠ b.1 := by
  have hpositions : nest.loops.zipIdx.Pairwise fun a b => a.2 ≠ b.2 := by
    have hnodup : (nest.loops.zipIdx.map Prod.snd).Nodup := by
      rw [List.zipIdx_map_snd]
      exact List.nodup_range' 1
    exact List.pairwise_map.1 hnodup
  refine hpositions.filterMap _ ?_
  rintro ⟨a, k⟩ ⟨b, k'⟩ hne x hx y hy
  simp only [Option.ite_none_right_eq_some, Option.some.injEq] at hx hy
  obtain ⟨-, rfl⟩ := hx
  obtain ⟨-, rfl⟩ := hy
  exact hne

/-- The loops of one depth around a node. -/
lemma mem_bucket {d : Nat} :
    l ∈ (((ofLoops loops).around n).filter fun e => e.2 = d).map Prod.fst ↔
      Holds loops l n ∧ (ofLoops loops).depth l = d := by
  simp only [List.mem_map, List.mem_filter, Prod.exists, decide_eq_true_eq]
  constructor
  · rintro ⟨k, d', ⟨hmem, rfl⟩, rfl⟩
    obtain ⟨hn, rfl⟩ := mem_around.1 hmem
    exact ⟨hn, rfl⟩
  · rintro ⟨hn, rfl⟩
    exact ⟨l, _, ⟨mem_around.2 ⟨hn, rfl⟩, rfl⟩, rfl⟩

/-- Every loop around a node is listed, and no other. -/
lemma mem_enclosing : l ∈ (ofLoops loops).enclosing n ↔ Holds loops l n := by
  have hdepth (hl : l < loops.length) : (ofLoops loops).depth l < loops.length + 2 := by
    have hlt : ((ofLoops loops).ancestors l).length < loops.length := length_ancestorsWithin_lt hl
    rw [depth_eq hl]
    omega
  simp only [enclosing, List.mem_flatMap, List.mem_reverse, List.mem_range, mem_bucket]
  constructor
  · rintro ⟨_, _, hn, _⟩
    exact hn
  · intro hn
    exact ⟨_, hdepth hn.lt, hn, rfl⟩

/-- Natural loops around a node are listed from the innermost to the outermost. -/
lemma Natural.pairwise_enclosing (natural : Natural loops) (n : Nat) :
    ((ofLoops loops).enclosing n).Pairwise (Within loops) := by
  unfold enclosing
  rw [List.pairwise_flatMap]
  constructor
  · -- no two loops around a node are equally deep
    intro d _
    have hne : ((((ofLoops loops).around n).filter fun e => e.2 = d).map Prod.fst).Nodup :=
      List.pairwise_map.2 ((pairwise_around _ n).filter _)
    refine List.Pairwise.imp_of_mem ?_ hne
    intro a b ha hb hne
    obtain ⟨hna, hda⟩ := mem_bucket.1 ha
    obtain ⟨hnb, hdb⟩ := mem_bucket.1 hb
    rcases natural.within_or_within hna hnb hne with hab | hba
    · exact hab
    · have hlt := natural.depth_lt_of_within hnb hba
      omega
  · have hdown : (List.range (loops.length + 2)).reverse.Pairwise (· > ·) :=
      List.pairwise_reverse.2 List.pairwise_lt_range
    refine hdown.imp ?_
    intro d d' hlt a ha b hb
    obtain ⟨hna, rfl⟩ := mem_bucket.1 ha
    obtain ⟨hnb, rfl⟩ := mem_bucket.1 hb
    have hne : a ≠ b := by
      rintro rfl
      exact Nat.lt_irrefl _ hlt
    rcases natural.within_or_within hna hnb hne with hab | hba
    · exact hab
    · have hlt' := natural.depth_lt_of_within hnb hba
      omega

/-- The first loop listed lies inside all others. -/
lemma Natural.innermost?_eq_some_iff (natural : Natural loops) :
    (ofLoops loops).innermost? n = some l ↔
      Holds loops l n ∧ ∀ o, Holds loops o n → o = l ∨ Within loops l o := by
  have hsorted := natural.pairwise_enclosing n
  unfold innermost?
  constructor
  · intro hhead
    obtain ⟨rest, hlist⟩ := List.head?_eq_some_iff.1 hhead
    rw [hlist] at hsorted
    refine ⟨mem_enclosing.1 (hlist ▸ List.mem_cons_self), fun o ho => ?_⟩
    rcases List.mem_cons.1 (hlist ▸ mem_enclosing.2 ho) with rfl | ho
    · exact .inl rfl
    · exact .inr ((List.pairwise_cons.1 hsorted).1 o ho)
  · rintro ⟨hl, hleast⟩
    have hmem := mem_enclosing.2 hl
    cases hlist : (ofLoops loops).enclosing n with
    | nil =>
      rw [hlist] at hmem
      cases hmem
    | cons first rest =>
      rw [hlist] at hmem hsorted
      rcases List.mem_cons.1 hmem with rfl | hrest
      · rfl
      · have hfirst := (List.pairwise_cons.1 hsorted).1 l hrest
        have hholds : Holds loops first n := mem_enclosing.1 (hlist ▸ List.mem_cons_self)
        rcases hleast first hholds with rfl | hwithin
        · rfl
        · have hlt := hfirst.sizeAt_lt
          have hlt' := hwithin.sizeAt_lt
          omega

end LoopNest

open LoopNest in
/-- The loops of a procedure, in whatever order they were added, are a forest by containment. The
parent of a loop is the next one around it, if any; the way from parent to parent ends, and the depth
counts the loops on it. Natural loops around a node are listed from the innermost to the outermost. -/
theorem Procedure.loopNest_forest (p : Procedure) :
    (∀ l < p.loops.length,
      (∀ o, p.loopNest.parent? l = some o →
        Within p.loops l o ∧ ∀ b, ¬ (Within p.loops l b ∧ Within p.loops b o)) ∧
      (p.loopNest.parent? l = none ↔ ∀ o, ¬ Within p.loops l o) ∧
      ∃ above, p.loopNest.Lineage l above ∧ above.Nodup ∧ p.loopNest.depth l = 1 + above.length) ∧
    (Natural p.loops → ∀ n,
      (∀ l, l ∈ p.loopNest.enclosing n ↔ Holds p.loops l n) ∧
      (p.loopNest.enclosing n).Pairwise (Within p.loops) ∧
      ∀ l, p.loopNest.innermost? n = some l ↔
        Holds p.loops l n ∧ ∀ o, Holds p.loops o n → o = l ∨ Within p.loops l o) := by
  refine ⟨fun l hl => ⟨fun o hparent => ?_, parent?_eq_none_iff hl, ?_⟩, fun natural n => ?_⟩
  · exact ⟨(within_of_parent? hparent).1, fun b => not_between_of_parent? hparent⟩
  · exact ⟨_, lineage_ancestors hl, nodup_ancestors hl, LoopNest.depth_eq hl⟩
  · exact ⟨fun l => mem_enclosing, natural.pairwise_enclosing n,
      fun l => natural.innermost?_eq_some_iff⟩

/-- Three loops around each other, the middle one added first, and one beside the inner two. -/
def nestedLoops : Procedure :=
  let nodes := ["a", "b", "c", "d", "e"].map fun name => ⟨name, .straight []⟩
  let p : Procedure := { name := "main", nodes, edges := [⟨none, 0⟩] }
  (((p.addLoop 1 [2, 3]).addLoop 4 []).addLoop 0 [1, 2, 3, 4]).addLoop 2 [3]

/-- The loops share their nodes only where one lies within the other. -/
lemma natural_nestedLoops : LoopNest.Natural nestedLoops.loops where
  nested := by
    show ∀ a ∈ nestedLoops.loops, ∀ b ∈ nestedLoops.loops, (∀ n ∈ a.body.toList, n ∈ b.body.toList) ∨
      (∀ n ∈ b.body.toList, n ∈ a.body.toList) ∨ ∀ n ∈ a.body.toList, ¬ n ∈ b.body.toList
    decide
  distinct := by decide

open LoopNest in
/-- The parent of the innermost loop is the middle one, and around its node they come in order. -/
theorem Procedure.loopNest_forest_nestedLoops :
    nestedLoops.loopNest.parent? 3 = some 0 ∧ Within nestedLoops.loops 3 0 ∧
      nestedLoops.loopNest.enclosing 3 = [3, 0, 2] ∧ [3, 0, 2].Pairwise (Within nestedLoops.loops) := by
  obtain ⟨hforest, hnatural⟩ := loopNest_forest nestedLoops
  have hparent : nestedLoops.loopNest.parent? 3 = some 0 := by decide
  have hlist : nestedLoops.loopNest.enclosing 3 = [3, 0, 2] := by decide
  obtain ⟨-, hsorted, -⟩ := hnatural natural_nestedLoops 3
  exact ⟨hparent, ((hforest 3 (by decide)).1 0 hparent).1, hlist, hlist ▸ hsorted⟩

end CacheVerdict
