import Mathlib.Data.List.DropRight
import CacheVerdict.Text.Blank

/-!
# Trimming and words

Blanks at either end of a text make no difference to what is left after trimming (`trim_append`)
nor to its words (`words_trim`). Words that stand apart are read back one by one (`words_spaced`).
-/

namespace CacheVerdict.Text

variable {c : Char} {s t blanks w : List Char} {ws : List (List Char)}

/-- Nothing but blanks. -/
def Blanks (s : List Char) : Prop :=
  ∀ c ∈ s, isBlank c = true

instance (s : List Char) : Decidable (Blanks s) :=
  decidable_of_iff (s.all isBlank = true) List.all_eq_true

/-- Without any blank, and not empty. -/
structure Solid (w : List Char) : Prop where
  ne_nil : w ≠ []
  solid : ∀ c ∈ w, isBlank c = false

instance (w : List Char) : Decidable (Solid w) :=
  decidable_of_iff (w ≠ [] ∧ (w.all fun c => !isBlank c) = true)
    ⟨fun h => ⟨h.1, by simpa using h.2⟩, fun h => ⟨h.ne_nil, by simpa using h.solid⟩⟩

/-- Words one after another, with blanks between them. -/
inductive Spaced : List (List Char) → List Char → Prop where
  | single (w : List Char) : Spaced [w] w
  | cons {w gap s : List Char} {ws : List (List Char)} :
    Spaced ws s → Blanks gap → gap ≠ [] → Spaced (w :: ws) (w ++ gap ++ s)

/-! ### Trimming -/

/-- Blanks in front are trimmed. -/
lemma trimStart_append (h : Blanks blanks) (s : List Char) :
    trimStart (blanks ++ s) = trimStart s :=
  List.dropWhile_append_of_pos h

/-- Blanks behind are trimmed. -/
lemma trimEnd_append (s : List Char) (h : Blanks blanks) : trimEnd (s ++ blanks) = trimEnd s := by
  unfold trimEnd
  rw [List.reverse_append, List.dropWhile_append_of_pos]
  intro c hc
  exact h c (List.mem_reverse.1 hc)

/-- Of blanks nothing is left. -/
lemma trimEnd_of_blanks (h : Blanks blanks) : trimEnd blanks = [] :=
  List.rdropWhile_eq_nil_iff.2 h

/-- What is trimmed does not consist of blanks, unless nothing is left. -/
lemma trimEnd_eq_nil {s : List Char} (h : ∀ c ∈ trimEnd s, isBlank c = true) : trimEnd s = [] := by
  unfold trimEnd at h ⊢
  rw [List.reverse_eq_nil_iff]
  have hhead := List.head?_dropWhile_not isBlank s.reverse
  cases hrest : s.reverse.dropWhile isBlank with
  | nil => rfl
  | cons c rest =>
    rw [hrest] at hhead h
    have hblank : isBlank c = false := hhead
    rw [h c (by simp)] at hblank
    cases hblank

/-- What is before a character that stays, stays. -/
lemma trimEnd_append_cons (s t : List Char) (h : isBlank c = false) :
    trimEnd (s ++ c :: t) = s ++ c :: trimEnd t := by
  unfold trimEnd
  rw [List.reverse_append, List.reverse_cons, List.append_assoc, List.dropWhile_append]
  split
  · rename_i hempty
    rw [List.isEmpty_iff.1 hempty, List.singleton_append, List.dropWhile_cons_of_neg (by simp [h])]
    simp
  · simp

/-- Blanks at both ends are dropped alike, however many there are. -/
lemma trim_append {before after : List Char} (hbefore : Blanks before) (s : List Char)
    (hafter : Blanks after) : trim (before ++ s ++ after) = trim s := by
  unfold trim
  rw [List.append_assoc, trimStart_append hbefore]
  unfold trimStart
  rw [List.dropWhile_append]
  split
  · rename_i hempty
    rw [List.isEmpty_iff.1 hempty, trimEnd_of_blanks fun c hc => ?_, trimEnd_of_blanks]
    · intro c hc
      cases hc
    · exact hafter c (List.dropWhile_subset _ hc)
  · exact trimEnd_append _ hafter

/-- Trimming at the back cuts off blanks. -/
lemma exists_blanks_trimEnd (s : List Char) : ∃ blanks, Blanks blanks ∧ trimEnd s ++ blanks = s :=
  ⟨s.rtakeWhile isBlank, fun _ hc => List.mem_rtakeWhile_imp hc,
    List.rdropWhile_append_rtakeWhile⟩

/-- Trimming at the end first changes nothing. -/
lemma trim_trimEnd (s : List Char) : trim (trimEnd s) = trim s := by
  obtain ⟨blanks, hblanks, hs⟩ := exists_blanks_trimEnd s
  have htrim := trim_append (List.forall_mem_nil _) (trimEnd s) hblanks
  rw [List.nil_append, hs] at htrim
  exact htrim.symm

/-- Trimming cuts off blanks. -/
lemma exists_blanks_trim (s : List Char) :
    ∃ before after, Blanks before ∧ Blanks after ∧ before ++ trim s ++ after = s := by
  obtain ⟨after, hafter, hend⟩ := exists_blanks_trimEnd (trimStart s)
  refine ⟨s.takeWhile isBlank, after, fun c hc => List.mem_takeWhile_imp hc, hafter, ?_⟩
  rw [List.append_assoc, trim, hend]
  exact List.takeWhile_append_dropWhile

/-- Once trimmed, a text stays as it is. -/
lemma trim_trim (s : List Char) : trim (trim s) = trim s := by
  obtain ⟨before, after, hbefore, hafter, hs⟩ := exists_blanks_trim s
  have htrim := trim_append hbefore (trim s) hafter
  rw [hs] at htrim
  exact htrim.symm

/-- What stands before the first character of a kind, and what stands behind it. -/
lemma cutAt_append {p : Char → Bool} (hs : ∀ c ∈ s, p c = false) (hc : p c = true)
    (t : List Char) : cutAt p (s ++ c :: t) = some (s, t) := by
  have hbefore : ∀ c ∈ s, (!p c) = true := fun c hmem => by rw [hs c hmem]; rfl
  rw [cutAt, List.dropWhile_append_of_pos hbefore, List.takeWhile_append_of_pos hbefore,
    List.dropWhile_cons_of_neg (by simp [hc]), List.takeWhile_cons_of_neg (by simp [hc]),
    List.append_nil]

/-! ### Words -/

/-- A text has no words if it consists of blanks. -/
lemma words_cons_eq_nil (c : Char) (s : List Char) :
    words (c :: s) = [] ↔ isBlank c = true ∧ words s = [] := by
  unfold words
  rw [List.splitOnP_cons_eq_if_modifyHead]
  cases hsplit : s.splitOnP isBlank with
  | nil => exact absurd hsplit (List.splitOnP_ne_nil _ _)
  | cons first rest => cases isBlank c <;> simp

/-- Only blanks hold no word. -/
lemma words_eq_nil {s : List Char} : words s = [] ↔ ∀ c ∈ s, isBlank c = true := by
  induction s with
  | nil => simp [words]
  | cons c s ih => rw [words_cons_eq_nil, ih, List.forall_mem_cons]

/-- No word goes on behind a blank. -/
lemma words_append_cons (s t : List Char) (h : isBlank c = true) :
    words (s ++ c :: t) = words s ++ words t := by
  unfold words
  rw [List.splitOnP_append_cons s t h, List.filter_append]

/-- A blank in front adds no word. -/
lemma words_cons (s : List Char) (h : isBlank c = true) : words (c :: s) = words s := by
  have hnil : words [] = [] := words_eq_nil.2 (List.forall_mem_nil _)
  simpa only [hnil, List.nil_append] using words_append_cons [] s h

/-- Blanks behind add no words. -/
lemma words_append_blanks (s : List Char) (h : Blanks blanks) : words (s ++ blanks) = words s := by
  cases blanks with
  | nil => rw [List.append_nil]
  | cons c rest =>
    obtain ⟨hc, hrest⟩ := List.forall_mem_cons.1 h
    rw [words_append_cons s rest hc, words_eq_nil.2 hrest, List.append_nil]

/-- Blanks in front add no words. -/
lemma words_blanks_append (h : Blanks blanks) (s : List Char) : words (blanks ++ s) = words s := by
  induction blanks with
  | nil => rfl
  | cons c rest ih =>
    obtain ⟨hc, hrest⟩ := List.forall_mem_cons.1 h
    rw [List.cons_append, words_cons _ hc, ih hrest]

/-- Trimming drops no word. -/
lemma words_trim (s : List Char) : words (trim s) = words s := by
  obtain ⟨before, after, hbefore, hafter, hs⟩ := exists_blanks_trim s
  have hwords : words (before ++ trim s ++ after) = words (trim s) := by
    rw [words_append_blanks _ hafter, words_blanks_append hbefore]
  rw [← hwords, hs]

/-- What is left after trimming has a word, if it is not empty. -/
lemma words_trim_ne_nil {s : List Char} (h : trim s ≠ []) : words (trim s) ≠ [] := by
  intro hwords
  exact h (trimEnd_eq_nil (words_eq_nil.1 hwords))

/-- What has no blanks may be appended to a word. -/
lemma Solid.append (h : Solid w) (ht : ∀ c ∈ t, isBlank c = false) : Solid (w ++ t) where
  ne_nil hnil := h.ne_nil (List.append_eq_nil_iff.1 hnil).1
  solid := List.forall_mem_append.2 ⟨h.solid, ht⟩

/-- A word in front is not trimmed. -/
lemma Solid.trimStart_append (h : Solid w) (s : List Char) : trimStart (w ++ s) = w ++ s := by
  obtain ⟨c, rest, rfl⟩ := List.exists_cons_of_ne_nil h.ne_nil
  exact List.dropWhile_cons_of_neg (by simp [h.solid c List.mem_cons_self])

/-- A word behind is not trimmed. -/
lemma Solid.trimEnd_append (h : Solid w) (s : List Char) : trimEnd (s ++ w) = s ++ w := by
  refine List.rdropWhile_eq_self_iff.2 fun hne => ?_
  rw [List.getLast_append_of_ne_nil hne h.ne_nil]
  simp [h.solid _ (List.getLast_mem h.ne_nil)]

/-- Between words nothing is trimmed. -/
lemma Solid.trim_append {w' : List Char} (h : Solid w) (s : List Char) (h' : Solid w') :
    trim (w ++ s ++ w') = w ++ s ++ w' := by
  have hstart := h.trimStart_append (s ++ w')
  rw [← List.append_assoc] at hstart
  rw [Text.trim, hstart, h'.trimEnd_append]

/-- A word has no blanks to trim. -/
lemma Solid.trim (h : Solid w) : trim w = w := by
  have hstart := h.trimStart_append []
  rw [List.append_nil] at hstart
  rw [Text.trim, hstart]
  exact h.trimEnd_append []

/-- A word is one word. -/
lemma Solid.words (h : Solid w) : words w = [w] := by
  rw [Text.words, List.splitOnP_eq_singleton h.solid]
  refine List.filter_eq_self.2 fun v hv => ?_
  rw [List.mem_singleton.1 hv]
  simp [h.ne_nil]

/-- The first word begins as the text does. -/
lemma Solid.words_append (h : Solid w) (s : List Char) :
    ∃ t ws, Text.words (w ++ s) = (w ++ t) :: ws := by
  have hfirst : Solid (w ++ s.takeWhile fun c => !isBlank c) := by
    refine h.append fun c hc => ?_
    simpa using List.mem_takeWhile_imp hc
  have hsplit : s.takeWhile (fun c => !isBlank c) ++ s.dropWhile (fun c => !isBlank c) = s :=
    List.takeWhile_append_dropWhile
  refine ⟨s.takeWhile fun c => !isBlank c, Text.words (s.dropWhile fun c => !isBlank c), ?_⟩
  have hhead := List.head?_dropWhile_not (fun c => !isBlank c) s
  nth_rewrite 1 [← hsplit]
  cases hrest : s.dropWhile fun c => !isBlank c with
  | nil =>
    rw [List.append_nil, hfirst.words]
    rfl
  | cons c rest =>
    rw [hrest] at hhead
    have hblank : isBlank c = true := by simpa using hhead
    rw [← List.append_assoc, words_append_cons _ _ hblank, hfirst.words, words_cons _ hblank]
    rfl

/-- One blank is enough between words. -/
lemma spaced_intercalate (h : ws ≠ []) : Spaced ws (List.intercalate [' '] ws) := by
  induction ws with
  | nil => exact absurd rfl h
  | cons w ws ih =>
    by_cases hws : ws = []
    · subst hws
      rw [List.intercalate_singleton]
      exact .single w
    · rw [List.intercalate_cons_of_ne_nil hws]
      exact (ih hws).cons (List.forall_mem_singleton.2 rfl) (List.cons_ne_nil _ _)

/-- Between words there is nothing but blanks. -/
lemma not_mem_intercalate (hc : c ≠ ' ') (hws : ∀ w ∈ ws, c ∉ w) :
    c ∉ List.intercalate [' '] ws := by
  induction ws with
  | nil => exact List.not_mem_nil
  | cons w ws ih =>
    obtain ⟨hw, hrest⟩ := List.forall_mem_cons.1 hws
    by_cases hnil : ws = []
    · subst hnil
      rwa [List.intercalate_singleton]
    · rw [List.intercalate_cons_of_ne_nil hnil]
      simp [hw, hc, ih hrest]

/-- Words that stand apart are read back. -/
lemma words_spaced (h : Spaced ws s) (hws : ∀ w ∈ ws, Solid w) : words s = ws := by
  induction h with
  | single w => exact (hws w (List.mem_singleton_self w)).words
  | @cons w gap s ws hs hgap hne ih =>
    obtain ⟨hw, hws⟩ := List.forall_mem_cons.1 hws
    obtain ⟨c, rest, rfl⟩ := List.exists_cons_of_ne_nil hne
    obtain ⟨hc, hrest⟩ := List.forall_mem_cons.1 hgap
    rw [List.append_assoc, List.cons_append, words_append_cons _ _ hc, hw.words,
      words_blanks_append hrest, ih hws]
    rfl

end CacheVerdict.Text
