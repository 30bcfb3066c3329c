import Mathlib.Data.List.Chain
import CacheVerdict.Listing.Reader
import CacheVerdict.Proofs.Listing.Outline

/-!
# Lines of listings

What surrounds the text of a line makes no difference: indentation, blanks at the end and a comment
are dropped (`Framed.trim_dropComment`), and a line without a text changes nothing
(`Idle.readLine`). Reading a list of statements can therefore be followed statement by statement,
wherever they are written (`Leads`).
-/

namespace CacheVerdict

open Text Listing

variable {s t blanks : List Char}

/-! ### Comments -/

/-- A text is uncommented if no two slashes follow one another. -/
lemma uncommented_iff_isChain :
    Uncommented s ↔ s.IsChain fun a b => ¬ (a = '/' ∧ b = '/') := by
  rw [List.isChain_iff_forall_rel_of_append_cons_cons, Uncommented]
  constructor
  · rintro h a b l₁ l₂ rfl ⟨rfl, rfl⟩
    exact h ⟨l₁, l₂, by simp⟩
  · rintro h ⟨l₁, l₂, rfl⟩
    exact @h '/' '/' l₁ l₂ (by simp) ⟨rfl, rfl⟩

/-- No mark arises where one text ends and the next begins. -/
lemma Uncommented.append (hs : Uncommented s) (ht : Uncommented t)
    (h : s.getLast? ≠ some '/' ∨ t.head? ≠ some '/') : Uncommented (s ++ t) := by
  rw [uncommented_iff_isChain] at hs ht ⊢
  refine List.isChain_append.2 ⟨hs, ht, fun a ha b hb => ?_⟩
  rintro ⟨rfl, rfl⟩
  exact h.elim (· ha) (· hb)

/-- Blanks contain no slash. -/
lemma not_mem_blanks (h : Blanks blanks) : '/' ∉ blanks := by
  intro hmem
  cases h '/' hmem

/-- Blanks do not end in a slash. -/
lemma getLast?_blanks_ne (h : Blanks blanks) : blanks.getLast? ≠ some '/' :=
  fun hlast => not_mem_blanks h (List.mem_of_getLast? hlast)

/-- Blanks start no comment. -/
lemma uncommented_blanks (h : Blanks blanks) : Uncommented blanks :=
  Outline.uncommented_of_not_mem (not_mem_blanks h)

/-- Blanks in front start no comment. -/
lemma Uncommented.blanks_append (h : Blanks blanks) (ht : Uncommented t) :
    Uncommented (blanks ++ t) :=
  (uncommented_blanks h).append ht (.inl (getLast?_blanks_ne h))

/-- Blanks behind start no comment. -/
lemma Uncommented.append_blanks (hs : Uncommented s) (h : Blanks blanks) :
    Uncommented (s ++ blanks) :=
  hs.append (uncommented_blanks h) (.inr fun hhead => not_mem_blanks h (List.mem_of_head? hhead))

namespace Listing

/-- Without a comment nothing is dropped. -/
lemma dropComment_of_uncommented (h : Uncommented s) : dropComment s = s := by
  rw [uncommented_iff_isChain] at h
  fun_induction dropComment s with
  | case1 => rfl
  | case2 rest => exact absurd ⟨rfl, rfl⟩ (List.isChain_cons_cons.1 h).1
  | case3 c rest _ ih => rw [ih h.tail]

/-- A comment is dropped, where it is not taken to begin one character earlier. -/
lemma dropComment_append (h : Uncommented s) (hlast : s.getLast? ≠ some '/') (comment : List Char) :
    dropComment (s ++ '/' :: '/' :: comment) = s := by
  induction s with
  | nil => rfl
  | cons c s ih =>
    rw [uncommented_iff_isChain] at h ih
    cases s with
    | nil =>
      have hc : c ≠ '/' := fun hc => hlast (by rw [hc]; rfl)
      rw [List.singleton_append, dropComment, dropComment]
      rintro rest rfl
      exact absurd rfl hc
    | cons c' s =>
      rw [List.cons_append, dropComment]
      · rw [ih h.tail (by rwa [List.getLast?_cons_cons] at hlast)]
      · rintro rest rfl heq
        exact (List.isChain_cons_cons.1 h).1 ⟨rfl, (List.cons.inj heq).1⟩

end Listing

namespace Outline

variable {statement : Statement} {raw : List Char}

/-- Words with blanks between them start no comment. -/
lemma uncommented_spaced {ws : List (List Char)} (h : Spaced ws t) (hws : ∀ w ∈ ws, IsWord w) :
    Uncommented t := by
  induction h with
  | single w => exact (hws w (List.mem_singleton_self w)).uncommented
  | @cons w gap s ws _ hgap hne ih =>
    obtain ⟨hw, hws⟩ := List.forall_mem_cons.1 hws
    refine (hw.uncommented.append_blanks hgap).append (ih hws) (.inl ?_)
    rw [List.getLast?_append_of_ne_nil _ hne]
    exact getLast?_blanks_ne hgap

/-- A statement as it may be shown starts no comment. -/
lemma Shown.uncommented (h : Shown statement t) : Uncommented t := by
  cases h with
  | directive hwords hspaced => exact uncommented_spaced hspaced hwords.isWord
  | @code c digits gap hdigits hgap =>
    have htail : Uncommented (':' :: (gap ++ c.text.toList)) :=
      (uncommented_of_not_mem (by decide : '/' ∉ [':'])).append
        (.blanks_append hgap c.uncommented) (.inl (by decide))
    exact (isWord_hex hdigits).uncommented.append htail (.inr (by simp))

/-! ### What is read of a line -/

/-- What is left of a line after its comment. -/
lemma Framed.dropComment_eq (h : Framed t raw) (ht : Uncommented t) :
    ∃ before after, Blanks before ∧ Blanks after ∧ dropComment raw = before ++ t ++ after := by
  cases h with
  | @bare before after hbefore hafter =>
    refine ⟨before, after, hbefore, hafter, dropComment_of_uncommented ?_⟩
    exact (Uncommented.blanks_append hbefore ht).append_blanks hafter
  | @commented before after comment hbefore hafter hne =>
    refine ⟨before, after, hbefore, hafter, dropComment_append ?_ ?_ comment⟩
    · exact (Uncommented.blanks_append hbefore ht).append_blanks hafter
    · rw [List.getLast?_append_of_ne_nil _ hne]
      exact getLast?_blanks_ne hafter

/-- Indentation, blanks and a comment around a statement are dropped. -/
lemma Framed.trim_dropComment (h : Framed t raw) (ht : Uncommented t) :
    trim (dropComment raw) = trim t := by
  obtain ⟨before, after, hbefore, hafter, hraw⟩ := h.dropComment_eq ht
  rw [hraw, trim_append hbefore t hafter]

/-- Outside procedures a line is read by its words. -/
lemma Framed.readLine_outside (h : Framed t raw) (ht : Uncommented t) {l : Listing}
    (hl : l.draft = none) (line : Nat) {word : String} {args : List String}
    (hwords : (words t).map String.ofList = word :: args) :
    l.readLine line raw = readOutside line l word args := by
  rw [readLine, h.trim_dropComment ht]
  simp only [words_trim, hwords, hl]

/-- Inside a procedure a line is read by its words, or as a whole. -/
lemma Framed.readLine_inside (h : Framed t raw) (ht : Uncommented t) {l : Listing} {d : Draft}
    (hl : l.draft = some d) (line : Nat) {word : String} {args : List String}
    (hwords : (words t).map String.ofList = word :: args) :
    l.readLine line raw = readInside line l d (trim t) word args := by
  rw [readLine, h.trim_dropComment ht]
  simp only [words_trim, hwords, hl]

/-- A line that is blank or a comment changes nothing. -/
lemma Idle.readLine (h : Idle raw) (l : Listing) (line : Nat) : l.readLine line raw = .ok l := by
  have hdrop : Blanks (dropComment raw) := by
    cases h with
    | bare hblanks => rwa [dropComment_of_uncommented (uncommented_blanks hblanks)]
    | commented hblanks =>
      rwa [dropComment_append (uncommented_blanks hblanks) (getLast?_blanks_ne hblanks)]
  rw [Listing.readLine]
  simp only [words_trim, words_eq_nil.2 hdrop]
  rfl

/-! ### Statement by statement -/

/-- Wherever the statements are written, reading them leads from the one to the other. -/
def Leads (P : Listing → Prop) (ss : List Statement) (Q : Listing → Prop) : Prop :=
  ∀ raws, Lines ss raws → ∀ l first, P l → ∃ l', l.readLines first raws = .ok l' ∧ Q l'

namespace Leads

variable {P Q R : Listing → Prop} {ss ss' : List Statement}

/-- No statements lead nowhere else. -/
lemma nil (P : Listing → Prop) : Leads P [] P := by
  intro raws hraws
  generalize hss : [] = ss at hraws
  induction hraws with
  | nil => exact fun l _ hl => ⟨l, rfl, hl⟩
  | idle hidle _ ih =>
    intro l first hl
    rw [readLines, hidle.readLine]
    exact ih hss l (first + 1) hl
  | line => cases hss

/-- One statement, and then the others. -/
lemma cons (hrest : Leads Q ss R)
    (hstep : ∀ t raw l line, Shown statement t → Framed t raw → P l →
      ∃ l', l.readLine line raw = .ok l' ∧ Q l') : Leads P (statement :: ss) R := by
  intro raws hraws
  generalize hss : statement :: ss = all at hraws
  induction hraws with
  | nil => cases hss
  | idle hidle _ ih =>
    intro l first hl
    rw [readLines, hidle.readLine]
    exact ih hss l (first + 1) hl
  | @line s _ t raw raws hshown hframed hraws _ =>
    obtain ⟨rfl, rfl⟩ := List.cons.inj hss
    intro l first hl
    obtain ⟨l', hread, hl'⟩ := hstep t raw l first hshown hframed hl
    rw [readLines, hread]
    exact hrest raws hraws l' (first + 1) hl'

/-- A statement leads as far as every line that shows it does. -/
lemma single (hstep : ∀ t raw l line, Shown statement t → Framed t raw → P l →
    ∃ l', l.readLine line raw = .ok l' ∧ Q l') : Leads P [statement] Q :=
  cons (nil Q) hstep

end Leads

/-- What is written one after another can be cut between the statements. -/
lemma Lines.exists_append {ss ss' : List Statement} {raws : List (List Char)}
    (h : Lines (ss ++ ss') raws) : ∃ front back, raws = front ++ back ∧ Lines ss front ∧
      Lines ss' back := by
  generalize hall : ss ++ ss' = all at h
  induction h generalizing ss with
  | nil =>
    obtain ⟨rfl, rfl⟩ := List.append_eq_nil_iff.1 hall
    exact ⟨[], [], rfl, .nil, .nil⟩
  | @idle all raw raws hidle _ ih =>
    obtain ⟨front, back, rfl, hfront, hback⟩ := ih hall
    exact ⟨raw :: front, back, rfl, .idle hidle hfront, hback⟩
  | @line s rest t raw raws hshown hframed hraws ih =>
    cases ss with
    | nil =>
      rw [List.nil_append] at hall
      subst hall
      exact ⟨[], raw :: raws, rfl, .nil, .line hshown hframed hraws⟩
    | cons s' ss =>
      obtain ⟨rfl, hrest⟩ := List.cons.inj hall
      obtain ⟨front, back, rfl, hfront, hback⟩ := ih hrest
      exact ⟨raw :: front, back, rfl, .line hshown hframed hfront, hback⟩

end Outline

/-- Lines are read one after another. -/
lemma Listing.readLines_append (l : Listing) (first : Nat) (front back : List (List Char)) :
    l.readLines first (front ++ back) =
      (l.readLines first front).bind fun l' => l'.readLines (first + front.length) back := by
  induction front generalizing l first with
  | nil => rfl
  | cons raw front ih =>
    rw [List.cons_append, readLines, readLines]
    cases l.readLine first raw with
    | error => rfl
    | ok l' =>
      change l'.readLines (first + 1) (front ++ back) =
        (l'.readLines (first + 1) front).bind fun l' => l'.readLines _ back
      rw [ih, List.length_cons, Nat.add_assoc, Nat.add_comm 1]

namespace Outline.Leads

variable {P Q R : Listing → Prop} {ss ss' : List Statement}

/-- Statements one after another lead from the first to the last. -/
lemma append (h : Leads P ss Q) (h' : Leads Q ss' R) : Leads P (ss ++ ss') R := by
  intro raws hraws l first hl
  obtain ⟨front, back, rfl, hfront, hback⟩ := hraws.exists_append
  obtain ⟨l', hread, hl'⟩ := h front hfront l first hl
  rw [readLines_append, hread]
  exact h' back hback l' _ hl'

/-- What each step adds has been added in the end. A step may rely on those before it. -/
lemma flatMap {α : Type} {I : List α → Listing → Prop} {f : α → List Statement} {all : List α}
    (step : ∀ done a, done ++ [a] <+: all → Leads (I done) (f a) (I (done ++ [a]))) :
    Leads (I []) (all.flatMap f) (I all) := by
  have hrun (done rest : List α) (hall : done ++ rest = all) :
      Leads (I done) (rest.flatMap f) (I all) := by
    induction rest generalizing done with
    | nil =>
      rw [List.append_nil] at hall
      rw [hall]
      exact nil _
    | cons a rest ih =>
      have hall' : done ++ [a] ++ rest = all := by
        rw [List.append_assoc, List.singleton_append, hall]
      rw [List.flatMap_cons]
      exact (step done a ⟨rest, hall'⟩).append (ih _ hall')
  exact hrun [] all rfl

end Outline.Leads

/-! ### Lines of a text -/

/-- A text is read as the lines that it is put together from. -/
lemma Listing.readLines_lines (l : Listing) (first : Nat) {raws : List (List Char)}
    (h : ∀ raw ∈ raws, '\n' ∉ raw) :
    l.readLines first (Text.lines (List.intercalate ['\n'] raws)) = l.readLines first raws := by
  by_cases hnil : raws = []
  · subst hnil
    rfl
  · have hsplit : (List.intercalate ['\n'] raws).splitOnP (· == '\n') = raws :=
      List.splitOn_intercalate '\n' h hnil
    rw [Text.lines, hsplit]
    split
    · rename_i hlast
      obtain ⟨front, rfl⟩ := List.getLast?_eq_some_iff.1 hlast
      have hidle : Outline.Idle [] := .bare (List.forall_mem_nil _)
      rw [List.dropLast_concat, readLines_append]
      cases l.readLines first front with
      | error => rfl
      | ok l' =>
        change _ = l'.readLines (first + front.length) [[]]
        rw [readLines, hidle.readLine]
        rfl
    · rfl

end CacheVerdict
