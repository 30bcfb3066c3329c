import CacheVerdict.Cache.Candidates
import CacheVerdict.Proofs.Ordered.Lists
import CacheVerdict.Proofs.Ordered.Map

/-!
# Counting candidates finds every case

The census of the candidates tells which ages a line can have after an access to one of them. Main
statements: the age of a line is picked from its ages after an access to each candidate, and the
lines that may be evicted are those that an access to some candidate evicts.
-/

namespace CacheVerdict

open Std (LawfulEqCmp)

namespace Census

/-- Counting one more candidate raises the counts that its age is part of. -/
lemma foldr_place (p : Option Nat → Bool) (a : Option Nat) (l : List (Option Nat × Nat)) :
    (OrderedMap.place (· + ·) a 1 l).foldr (fun e n => if p e.1 then e.2 + n else n) 0 =
      l.foldr (fun e n => if p e.1 then e.2 + n else n) 0 + if p a then 1 else 0 := by
  induction l with
  | nil => simp only [OrderedMap.place, List.foldr_cons, List.foldr_nil, Nat.add_zero, Nat.zero_add]
  | cons e l ih =>
    obtain ⟨b, count⟩ := e
    rw [OrderedMap.place]
    cases hcompare : compare a b with
    | lt =>
      rw [List.foldr_cons]
      by_cases h : p a = true
      · rw [if_pos h, if_pos h, Nat.add_comm]
      · rw [if_neg h, if_neg h, Nat.add_zero]
    | eq =>
      obtain rfl := LawfulEqCmp.compare_eq_iff_eq.1 hcompare
      rw [List.foldr_cons, List.foldr_cons]
      by_cases h : p a = true
      · rw [if_pos h, if_pos h, if_pos h, Nat.add_right_comm]
      · rw [if_neg h, if_neg h, if_neg h, Nat.add_zero]
    | gt =>
      rw [List.foldr_cons, List.foldr_cons, ih]
      by_cases h : p b = true
      · rw [if_pos h, if_pos h, Nat.add_assoc]
      · rw [if_neg h, if_neg h]

/-- Counting lines raises the total by the candidates among them. -/
lemma total_foldl (g : Geometry) (c : Census) (l : List (Line × Prior)) :
    (l.foldl (fun c e => c.add g e.1 e.2) c).total = c.total + l.countP (·.2.candidate) := by
  induction l generalizing c with
  | nil => rfl
  | cons e l ih =>
    rw [List.foldl_cons, ih, List.countP_cons, add]
    by_cases h : e.2.candidate = true
    · rw [if_pos h, if_pos h, Nat.add_right_comm, Nat.add_assoc]
    · rw [if_neg h, if_neg h, Nat.add_zero]

/-- Counting one more line raises how many age a line of the given set and age, if it is a
candidate that does. -/
lemma agers_add (g : Geometry) (ties : Bool) (set : UInt64) (age : Nat) (c : Census) (line : Line)
    (prior : Prior) :
    (c.add g line prior).agers ties set age =
      c.agers ties set age +
        if prior.candidate && Standing.ages ties ⟨g.setOf line, prior.age⟩ set age then 1 else 0 := by
  rw [add]
  split
  · rename_i hc
    simp only [agers, hc, Bool.true_and, Std.HashMap.getD_insert]
    by_cases hset : g.setOf line = set
    · subst hset
      simp only [beq_self_eq_true, if_true, OrderedMap.insertWith]
      exact foldr_place (fun a => Standing.ages ties ⟨g.setOf line, a⟩ (g.setOf line) age) _ _
    · simp [hset, Standing.ages]
  · simp_all

/-- Counting lines raises the ageing candidates by those among them. -/
lemma agers_foldl (g : Geometry) (ties : Bool) (set : UInt64) (age : Nat) (c : Census)
    (l : List (Line × Prior)) :
    (l.foldl (fun c e => c.add g e.1 e.2) c).agers ties set age =
      c.agers ties set age +
        l.countP fun e => e.2.candidate && Standing.ages ties ⟨g.setOf e.1, e.2.age⟩ set age := by
  induction l generalizing c with
  | nil => rfl
  | cons e l ih =>
    rw [List.foldl_cons, ih, List.countP_cons, agers_add]
    omega

end Census

namespace AgedLines

variable {g : Geometry} {ties : Bool} {a : AgedLines} {candidates : OrderedSet Line}

/-- A line before the access, if it is cached or a candidate. -/
lemma get?_priors (line : Line) :
    (a.priors candidates).get? line =
      if a.get? line = none ∧ line ∉ candidates then none
      else some ⟨a.get? line, decide (line ∈ candidates)⟩ := by
  rw [priors, OrderedMap.get?_unionWith, OrderedMap.get?_mapValues, OrderedMap.get?_ofSet]
  by_cases hc : line ∈ candidates <;> cases a.get? line <;> simp [hc]

/-- The cached lines and the candidates, each as it stands. -/
lemma mem_priors {line : Line} {prior : Prior} :
    (line, prior) ∈ (a.priors candidates).entries ↔
      prior = ⟨a.get? line, decide (line ∈ candidates)⟩ ∧
        (prior.age ≠ none ∨ prior.candidate) := by
  rw [OrderedMap.mem_entries, get?_priors]
  constructor
  · intro h
    split at h
    · cases h
    · rename_i hor
      obtain rfl : ⟨a.get? line, decide (line ∈ candidates)⟩ = prior := Option.some.inj h
      refine ⟨rfl, ?_⟩
      by_cases hc : line ∈ candidates
      · exact .inr (decide_eq_true hc)
      · exact .inl fun hn => hor ⟨hn, hc⟩
  · rintro ⟨rfl, h⟩
    refine if_neg fun ⟨hn, hc⟩ => ?_
    simp [hn, hc] at h

/-- The lines marked as candidates are the candidates. -/
lemma candidates_priors :
    ((a.priors candidates).entries.filter (·.2.candidate)).map Prod.fst = candidates.toList := by
  let known : OrderedSet Line :=
    ⟨((a.priors candidates).entries.filter (·.2.candidate)).map Prod.fst,
      List.pairwise_map.2 ((a.priors candidates).sorted.filter _)⟩
  suffices known = candidates from congrArg OrderedSet.toList this
  refine OrderedSet.ext_mem fun line => ?_
  have : line ∈ known ↔ ∃ prior : Prior,
      (line, prior) ∈ (a.priors candidates).entries ∧ prior.candidate = true := by
    simp [known, OrderedSet.mem_def]
  rw [this]
  constructor
  · rintro ⟨prior, hm, hc⟩
    obtain ⟨rfl, _⟩ := mem_priors.1 hm
    simpa using hc
  · intro hc
    exact ⟨_, mem_priors.2 ⟨rfl, .inr (decide_eq_true hc)⟩, decide_eq_true hc⟩

/-- Counting candidates among the lines before the access is counting candidates. -/
lemma countP_priors (p : Standing → Bool) :
    (a.priors candidates).entries.countP
        (fun e => e.2.candidate && p ⟨g.setOf e.1, e.2.age⟩) =
      candidates.toList.countP fun line => p (a.standing g line) := by
  rw [← candidates_priors (a := a), List.countP_map, List.countP_filter]
  refine List.countP_congr fun e he => ?_
  obtain ⟨line, prior⟩ := e
  obtain ⟨rfl, _⟩ := mem_priors.1 he
  simp [standing, and_comm]

/-- The census counts every candidate. -/
lemma total_ofPriors :
    (Census.ofPriors g (a.priors candidates)).total = candidates.toList.length := by
  rw [Census.ofPriors, Census.total_foldl, ← candidates_priors (a := a), List.length_map,
    List.countP_eq_length_filter]
  exact Nat.zero_add _

/-- The census counts the candidates that age a line. -/
lemma agers_ofPriors (set : UInt64) (age : Nat) :
    (Census.ofPriors g (a.priors candidates)).agers ties set age =
      candidates.toList.countP fun line => (a.standing g line).ages ties set age := by
  have hnone : Census.agers ties {} set age = 0 := by simp [Census.agers]
  rw [Census.ofPriors, Census.agers_foldl, countP_priors fun s => s.ages ties set age, hnone,
    Nat.zero_add]

/-- The census counts the candidates besides a line. -/
lemma others_ofPriors (line : Line) :
    (Census.ofPriors g (a.priors candidates)).others (decide (line ∈ candidates)) =
      (candidates.toList.erase line).length := by
  rw [Census.others, total_ofPriors, List.length_erase]
  by_cases h : line ∈ candidates <;> simp [h, OrderedSet.mem_def.symm]

/-- The census counts the candidates besides a cached line that age it. -/
lemma otherAgers_ofPriors {line : Line} {age : Nat} (h : a.get? line = some age) :
    (Census.ofPriors g (a.priors candidates)).otherAgers ties (g.setOf line) age
        (decide (line ∈ candidates)) =
      (candidates.toList.erase line).countP fun other =>
        (a.standing g other).ages ties (g.setOf line) age := by
  rw [Census.otherAgers, agers_ofPriors]
  by_cases hc : line ∈ candidates
  · rw [(List.perm_cons_erase hc).countP_eq, List.countP_cons]
    simp only [hc, standing, h]
    split <;> simp_all
  · rw [List.erase_of_not_mem hc]
    simp [hc]

/-- Ages after an access to one line. -/
lemma get?_touch (line other : Line) :
    (a.touch g ties line).get? other =
      if other = line then some 0
      else (a.get? other).bind fun age =>
        keep g (if (a.standing g line).ages ties (g.setOf other) age then age + 1 else age) := by
  rw [touch, OrderedMap.get?_insert, reage, OrderedMap.get?_filterMap]
  split
  · rfl
  · rename_i hne
    cases a.get? other <;> simp [keep, touchedAge, hne]

/-- A count falls short if some element is not counted. -/
lemma countP_lt_length {α : Type} {l : List α} {p : α → Bool} :
    l.countP p < l.length ↔ ∃ o ∈ l, p o = false := by
  have hle : l.countP p ≤ l.length := List.countP_le_length
  have hall : l.countP p = l.length ↔ ∀ o ∈ l, p o := List.countP_eq_length
  constructor
  · intro h
    refine Classical.byContradiction fun hn => ?_
    have := hall.2 fun o ho => Classical.byContradiction fun hp => hn ⟨o, ho, by simpa using hp⟩
    omega
  · rintro ⟨o, ho, hp⟩
    refine Nat.lt_of_le_of_ne hle fun heq => ?_
    simp [hall.1 heq o ho] at hp

/-- Counting tells which of two cases occur in a list. -/
lemma mem_cases {α β : Type} {l : List α} {p : α → Bool} {x y v : β} :
    v ∈ (if 0 < l.countP p then [x] else []) ++ (if l.countP p < l.length then [y] else []) ↔
      ∃ o ∈ l, v = if p o then x else y := by
  rw [List.mem_append]
  constructor
  · rintro (h | h)
    · split at h
      · obtain ⟨o, ho, hp⟩ := List.countP_pos_iff.1 (by assumption)
        exact ⟨o, ho, by simpa [hp] using h⟩
      · cases h
    · split at h
      · obtain ⟨o, ho, hp⟩ := countP_lt_length.1 (by assumption)
        exact ⟨o, ho, by simpa [hp] using h⟩
      · cases h
  · rintro ⟨o, ho, rfl⟩
    cases hp : p o with
    | true => simp [List.countP_pos_iff.2 ⟨o, ho, hp⟩]
    | false => simp [countP_lt_length.2 ⟨o, ho, hp⟩]

/-- A candidate is the line itself or one of the others. -/
lemma mem_candidates_iff (line : Line) {other : Line} :
    other ∈ candidates.toList ↔
      other = line ∧ line ∈ candidates ∨ other ∈ candidates.toList.erase line := by
  rw [candidates.nodup_toList.mem_erase_iff]
  by_cases h : other = line
  · simp [h, OrderedSet.mem_def]
  · simp [h]

/-- What can become of a line are its ages after an access to each of the candidates. -/
lemma mem_outcomes {line : Line} {v : Option Nat} :
    v ∈ outcomes g ties (Census.ofPriors g (a.priors candidates)) line
        ⟨a.get? line, decide (line ∈ candidates)⟩ ↔
      ∃ other ∈ candidates.toList, v = (a.touch g ties other).get? line := by
  have hsplit : (∃ other ∈ candidates.toList, v = (a.touch g ties other).get? line) ↔
      v ∈ (if line ∈ candidates then [some 0] else []) ∨
        ∃ other ∈ candidates.toList.erase line, v = (a.get? line).bind fun age =>
          keep g (if (a.standing g other).ages ties (g.setOf line) age then age + 1 else age) := by
    have hne {other : Line} (h : other ∈ candidates.toList.erase line) : line ≠ other :=
      fun heq => (candidates.nodup_toList.mem_erase_iff.1 h).1 heq.symm
    constructor
    · rintro ⟨other, ho, rfl⟩
      rcases (mem_candidates_iff line).1 ho with ⟨rfl, ho⟩ | ho
      · exact .inl (by simp [get?_touch, ho])
      · exact .inr ⟨other, ho, by rw [get?_touch, if_neg (hne ho)]⟩
    · rintro (hv | ⟨other, ho, rfl⟩)
      · split at hv
        · exact ⟨line, by assumption, by simpa [get?_touch] using hv⟩
        · cases hv
      · exact ⟨other, (mem_candidates_iff line).2 (.inr ho), by rw [get?_touch, if_neg (hne ho)]⟩
  rw [hsplit]
  cases ha : a.get? line with
  | none =>
    simp only [outcomes, others_ofPriors, List.mem_append, decide_eq_true_eq, Option.bind_none]
    refine or_congr Iff.rfl ?_
    cases candidates.toList.erase line <;> simp
  | some age =>
    simp only [outcomes, otherAgers_ofPriors ha, others_ofPriors, List.append_assoc,
      List.mem_append, decide_eq_true_eq, Option.bind_some]
    rw [← List.mem_append, mem_cases]
    refine or_congr Iff.rfl (exists_congr fun other => and_congr Iff.rfl ?_)
    split <;> rfl

/-- A choice among the cases of a line that hangs neither on their order nor on how often each
occurs, and that finds nothing where no case leaves the line. -/
structure Fair (pick : List (Option Nat) → Option Nat) : Prop where
  congr : ∀ {l r : List (Option Nat)}, (∀ v, v ∈ l ↔ v ∈ r) → pick l = pick r
  nil : pick [] = none
  singleton_none : pick [none] = none

/-- Where no case leaves the line, nothing is picked. -/
lemma Fair.eq_none {pick : List (Option Nat) → Option Nat} (hp : Fair pick) {l : List (Option Nat)}
    (h : ∀ v ∈ l, v = none) : pick l = none := by
  cases l with
  | nil => exact hp.nil
  | cons first rest =>
    rw [← hp.singleton_none]
    refine hp.congr fun v => ⟨fun hv => by simp [h v hv], fun hv => ?_⟩
    obtain rfl := List.mem_singleton.1 hv
    exact h first List.mem_cons_self ▸ List.mem_cons_self

/-- The least age is a fair choice. -/
lemma fair_least : Fair least where
  congr h := Fold.foldl_congr_mem _ none h
  nil := rfl
  singleton_none := rfl

/-- The greatest age is a fair choice. -/
lemma fair_greatest : Fair greatest where
  congr h := Fold.foldl_congr_mem _ none h
  nil := rfl
  singleton_none := rfl

instance : Std.Associative olderOfBoth where
  assoc a b c := by cases a <;> cases b <;> cases c <;> simp [olderOfBoth, Nat.max_assoc]

instance : Std.Commutative olderOfBoth where
  comm a b := by cases a <;> cases b <;> simp [olderOfBoth, Nat.max_comm]

instance : Std.IdempotentOp olderOfBoth where
  idempotent a := by cases a <;> simp [olderOfBoth]

/-- The greatest age of all cases can be sought from any case on. -/
lemma greatestOfAll_eq_foldl {v : Option Nat} {l : List (Option Nat)} (h : v ∈ l) :
    greatestOfAll l = l.foldl olderOfBoth v := by
  cases l with
  | nil => cases h
  | cons first rest =>
    have idem : olderOfBoth first first = first := Std.IdempotentOp.idempotent first
    rw [Fold.foldl_eq_of_mem _ h List.mem_cons_self, List.foldl_cons, idem, greatestOfAll]

/-- The greatest age of all cases is a fair choice. -/
lemma fair_greatestOfAll : Fair greatestOfAll where
  congr {l r} h := by
    cases l with
    | nil =>
      cases r with
      | nil => rfl
      | cons v r => exact absurd ((h v).2 List.mem_cons_self) List.not_mem_nil
    | cons v l =>
      rw [greatestOfAll_eq_foldl List.mem_cons_self,
        greatestOfAll_eq_foldl ((h v).1 List.mem_cons_self)]
      exact Fold.foldl_congr_mem _ v h
  nil := rfl
  singleton_none := rfl

/-- The age of a line after an access to one of the candidates is picked from its ages after an
access to each of them. -/
lemma get?_touchOneOf {pick : List (Option Nat) → Option Nat} (hp : Fair pick) (line : Line) :
    (a.touchOneOf g ties pick candidates).get? line =
      pick (candidates.toList.map fun other => (a.touch g ties other).get? line) := by
  have hmem : ∀ v, v ∈ outcomes g ties (Census.ofPriors g (a.priors candidates)) line
      ⟨a.get? line, decide (line ∈ candidates)⟩ ↔
        v ∈ candidates.toList.map fun other => (a.touch g ties other).get? line := fun v => by
    rw [mem_outcomes, List.mem_map]
    simp only [eq_comm]
  rw [touchOneOf, OrderedMap.get?_filterMap, get?_priors]
  split
  · rename_i h
    refine (hp.eq_none fun v hv => ?_).symm
    obtain ⟨other, ho, rfl⟩ := List.mem_map.1 hv
    have hne : line ≠ other := fun heq => h.2 (heq ▸ ho)
    rw [get?_touch, if_neg hne, h.1]
    rfl
  · exact hp.congr hmem

/-- New ages evict the lines whose age reaches the number of ways. -/
lemma mem_evictedBy {age : Line → Nat → Nat} {line : Line} :
    line ∈ a.evictedBy g age ↔ ∃ old, a.get? line = some old ∧ g.ways.toNat ≤ age line old := by
  simp only [evictedBy, List.mem_map, List.mem_filter, decide_eq_true_eq]
  constructor
  · rintro ⟨e, ⟨he, hold⟩, rfl⟩
    exact ⟨e.2, OrderedMap.mem_entries.1 he, hold⟩
  · rintro ⟨old, hget, hold⟩
    exact ⟨(line, old), ⟨OrderedMap.mem_entries.2 hget, hold⟩, rfl⟩

/-- Of the candidates, those age a line that are others and age it. -/
lemma countP_erase_candidates (p : Line → Bool) (line : Line) :
    (candidates.toList.erase line).countP p =
      candidates.toList.countP fun other => other ≠ line && p other := by
  have hothers : (candidates.toList.erase line).countP p =
      (candidates.toList.erase line).countP fun other => other ≠ line && p other :=
    List.countP_congr fun other ho => by
      simp [(candidates.nodup_toList.mem_erase_iff.1 ho).1]
  rw [hothers]
  by_cases hc : line ∈ candidates.toList
  · rw [(List.perm_cons_erase hc).countP_eq, List.countP_cons]
    simp
  · rw [List.erase_of_not_mem hc]

/-- The lines that an access to one of the candidates may evict are those that an access to some
candidate evicts. -/
lemma mem_evictedByOneOf {line : Line} :
    line ∈ a.evictedByOneOf g ties candidates ↔
      ∃ other ∈ candidates.toList, line ∈ a.evictedByTouch g ties other := by
  have hcases (age : Nat) (h : a.get? line = some age) :
      (∃ other ∈ candidates.toList,
        g.ways.toNat ≤ touchedAge g ties other (a.standing g other) line age) ↔
      (let census := Census.ofPriors g (a.priors candidates)
       let agers := census.otherAgers ties (g.setOf line) age (decide (line ∈ candidates))
       (0 < agers ∧ g.ways.toNat ≤ age + 1) ∨ (agers < census.total ∧ g.ways.toNat ≤ age)) := by
    simp only [otherAgers_ofPriors h, total_ofPriors, countP_erase_candidates,
      List.countP_pos_iff, countP_lt_length, touchedAge]
    constructor
    · rintro ⟨other, ho, hle⟩
      split at hle
      · rename_i hage
        exact .inl ⟨⟨other, ho, by simp [hage.2, Ne.symm hage.1]⟩, hle⟩
      · rename_i hage
        exact .inr ⟨⟨other, ho, by grind⟩, hle⟩
    · rintro (⟨⟨other, ho, hage⟩, hle⟩ | ⟨⟨other, ho, hage⟩, hle⟩)
      · exact ⟨other, ho, by grind⟩
      · exact ⟨other, ho, by grind⟩
  have hone : line ∈ a.evictedByOneOf g ties candidates ↔ ∃ age, a.get? line = some age ∧
      ∃ other ∈ candidates.toList,
        g.ways.toNat ≤ touchedAge g ties other (a.standing g other) line age := by
    simp only [evictedByOneOf, List.mem_filterMap]
    constructor
    · rintro ⟨⟨line', prior⟩, he, hbind⟩
      obtain ⟨rfl, _⟩ := mem_priors.1 he
      obtain ⟨age, hage, hline⟩ := Option.bind_eq_some_iff.1 hbind
      split at hline
      · obtain rfl : line' = line := Option.some.inj hline
        exact ⟨age, hage, (hcases age hage).2 (by simp_all)⟩
      · cases hline
    · rintro ⟨age, hage, hex⟩
      refine ⟨(line, ⟨a.get? line, decide (line ∈ candidates)⟩),
        mem_priors.2 ⟨rfl, .inl (by simp [hage])⟩, ?_⟩
      have := (hcases age hage).1 hex
      simp_all
  rw [hone]
  simp only [evictedByTouch, mem_evictedBy]
  constructor
  · rintro ⟨age, hage, other, ho, hle⟩
    exact ⟨other, ho, age, hage, hle⟩
  · rintro ⟨other, ho, age, hage, hle⟩
    exact ⟨age, hage, other, ho, hle⟩

end AgedLines

end CacheVerdict
