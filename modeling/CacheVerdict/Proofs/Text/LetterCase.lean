import CacheVerdict.Proofs.Text.Blank
import CacheVerdict.Text.Numeral

/-!
# Letter case

Text in upper case is cut up as it was before: the classes of characters by which it is cut know no
letter, so trimming, words and pieces of a text in upper case are those of the text, in upper case
(`trim_upper`, `firstWord_upper`, `cutAt_upper`, `splitOnP_upper`). Digits have the same values in both
cases (`readOnto_upper`).
-/

namespace CacheVerdict.Text

/-! ### Letters -/

/-- The lower-case letters, counted from `a`. -/
def smallLetter (k : Nat) : Char :=
  Char.ofNat (97 + k)

/-- Only the lower-case letters have another upper case. -/
lemma toUpper_eq_or_small (c : Char) :
    c.isLower = false ∧ c.toUpper = c ∨ ∃ k < 26, c = smallLetter k := by
  unfold Char.toUpper
  split
  · rename_i h
    have hlower : 97 ≤ c.toNat := h.1
    have hupper : c.toNat ≤ 122 := h.2
    refine .inr ⟨c.toNat - 97, by omega, ?_⟩
    rw [smallLetter, Nat.add_sub_cancel' hlower, Char.ofNat_toNat]
  · rename_i h
    refine .inl ⟨Bool.eq_false_iff.2 fun hlower => h ?_, rfl⟩
    obtain ⟨hfrom, hto⟩ := Bool.and_eq_true_iff.1 hlower
    exact ⟨of_decide_eq_true hfrom, of_decide_eq_true hto⟩

/-- A function of characters that takes the same value on each lower-case letter and its upper case
does so on all characters. -/
lemma apply_toUpper {α : Type} {f : Char → α}
    (h : ∀ k < 26, f (smallLetter k).toUpper = f (smallLetter k)) (c : Char) :
    f c.toUpper = f c := by
  obtain ⟨-, heq⟩ | ⟨k, hk, rfl⟩ := toUpper_eq_or_small c
  · rw [heq]
  · exact h k hk

/-- Letter case does not make a blank. -/
lemma isBlank_toUpper (c : Char) : isBlank c.toUpper = isBlank c :=
  apply_toUpper (by decide) c

/-- Lower case does not make a blank. -/
lemma isBlank_toLower (c : Char) : isBlank c.toLower = isBlank c := by
  have hall : ∀ k < 26, isBlank (Char.ofNat (65 + k)).toLower = isBlank (Char.ofNat (65 + k)) := by
    decide
  by_cases h : c.val ≥ 'A'.val ∧ c.val ≤ 'Z'.val
  · have hfrom : 65 ≤ c.toNat := h.1
    have hto : c.toNat ≤ 90 := h.2
    have hcapital := hall (c.toNat - 65) (by omega)
    rwa [Nat.add_sub_cancel' hfrom, Char.ofNat_toNat] at hcapital
  · exact congrArg isBlank (dif_neg h)

/-- Letter case does not make a digit. -/
lemma isDigit_toUpper (c : Char) : c.toUpper.isDigit = c.isDigit :=
  apply_toUpper (f := Char.isDigit) (by decide) c

/-- Lower case forgets upper case. -/
lemma toLower_toUpper (c : Char) : c.toUpper.toLower = c.toLower :=
  apply_toUpper (f := Char.toLower) (by decide) c

/-- Upper case is upper case. -/
lemma toUpper_toUpper (c : Char) : c.toUpper.toUpper = c.toUpper :=
  apply_toUpper (f := Char.toUpper) (by decide) c

/-- Letter case does not change the value of a digit. -/
lemma digitValue?_toUpper (c : Char) : Numeral.digitValue? c.toUpper = Numeral.digitValue? c :=
  apply_toUpper (by decide) c

/-- What is no letter is the upper case of itself only. -/
lemma toUpper_eq_iff {c d : Char} (hd : d.isAlpha = false) : c.toUpper = d ↔ c = d := by
  have hall : ∀ k < 26, (smallLetter k).toUpper.isAlpha = true ∧ (smallLetter k).isAlpha = true := by
    decide
  obtain ⟨-, heq⟩ | ⟨k, hk, rfl⟩ := toUpper_eq_or_small c
  · rw [heq]
  · obtain ⟨hupper, hlower⟩ := hall k hk
    constructor
    · rintro rfl
      rw [hupper] at hd
      cases hd
    · rintro rfl
      rw [hlower] at hd
      cases hd

/-- No upper case is a lower-case letter. -/
lemma isLower_toUpper (c : Char) : c.toUpper.isLower = false := by
  have hall : ∀ k < 26, (smallLetter k).toUpper.isLower = false := by decide
  obtain ⟨hlower, heq⟩ | ⟨k, hk, rfl⟩ := toUpper_eq_or_small c
  · rw [heq]
    exact hlower
  · exact hall k hk

/-! ### Texts in upper case -/

variable {c : Char} {s t : List Char}

/-- An empty text in upper case is empty. -/
@[simp]
lemma upper_nil : upper [] = [] := rfl

/-- Upper case goes letter by letter. -/
@[simp]
lemma upper_cons (c : Char) (s : List Char) : upper (c :: s) = c.toUpper :: upper s := rfl

/-- Upper case goes part by part. -/
lemma upper_append (s t : List Char) : upper (s ++ t) = upper s ++ upper t :=
  List.map_append

/-- Upper case goes both ways. -/
lemma upper_reverse (s : List Char) : upper s.reverse = (upper s).reverse :=
  List.map_reverse

/-- Only the empty text is empty in upper case. -/
lemma upper_eq_nil : upper s = [] ↔ s = [] :=
  List.map_eq_nil_iff

/-- A text in upper case stays as it is. -/
lemma upper_upper (s : List Char) : upper (upper s) = upper s := by
  rw [upper, upper, List.map_map]
  exact List.map_congr_left fun c _ => toUpper_toUpper c

/-- Lower case forgets the upper case of a text. -/
lemma lower_upper (s : List Char) : lower (upper s) = lower s := by
  rw [lower, upper, List.map_map]
  exact List.map_congr_left fun c _ => toLower_toUpper c

section

variable {p : Char → Bool} (hp : ∀ c, p c.toUpper = p c)

include hp

/-- What is dropped does not hang on letter case. -/
lemma dropWhile_upper (s : List Char) : (upper s).dropWhile p = upper (s.dropWhile p) := by
  have hcomp : p ∘ Char.toUpper = p := funext hp
  rw [upper, List.dropWhile_map, hcomp]
  rfl

/-- What is taken does not hang on letter case. -/
lemma takeWhile_upper (s : List Char) : (upper s).takeWhile p = upper (s.takeWhile p) := by
  have hcomp : p ∘ Char.toUpper = p := funext hp
  rw [upper, List.takeWhile_map, hcomp]
  rfl

/-- What stands before and behind a character of a kind without letters. -/
lemma cutAt_upper (s : List Char) :
    cutAt p (upper s) = (cutAt p s).map fun parts => (upper parts.1, upper parts.2) := by
  have hnot (c : Char) : (!p c.toUpper) = !p c := by rw [hp]
  unfold cutAt
  rw [dropWhile_upper hnot, takeWhile_upper hnot]
  cases s.dropWhile fun c => !p c <;> rfl

/-- Where a text is split does not hang on letter case. -/
lemma splitOnP_upper (s : List Char) : (upper s).splitOnP p = (s.splitOnP p).map upper := by
  induction s with
  | nil => rfl
  | cons c s ih =>
    rw [upper_cons, List.splitOnP_cons_eq_if_modifyHead, List.splitOnP_cons_eq_if_modifyHead, hp, ih]
    split
    · rfl
    · cases s.splitOnP p <;> rfl

end

/-- What is trimmed does not hang on letter case. -/
lemma trim_upper (s : List Char) : trim (upper s) = upper (trim s) := by
  unfold trim trimEnd trimStart
  rw [dropWhile_upper isBlank_toUpper, ← upper_reverse, dropWhile_upper isBlank_toUpper, upper_reverse]

/-- The first word in upper case is that of the text in upper case. -/
lemma firstWord_upper (s : List Char) : firstWord (upper s) = upper (firstWord s) := by
  have hnot (c : Char) : (!isBlank c.toUpper) = !isBlank c := by rw [isBlank_toUpper]
  unfold firstWord trimStart
  rw [dropWhile_upper isBlank_toUpper, takeWhile_upper hnot]

/-- The last character of a text, if it is no letter. -/
lemma getLast?_upper_iff (hc : c.isAlpha = false) : (upper s).getLast? = some c ↔ s.getLast? = some c := by
  rw [upper, List.getLast?_map]
  cases s.getLast? with
  | none => simp
  | some d => simp [toUpper_eq_iff hc]

end CacheVerdict.Text

namespace CacheVerdict.Numeral

open Text

/-- Digits are read alike in both cases. -/
lemma readOnto_upper (radix limit acc : Nat) (s : List Char) :
    readOnto radix limit acc (upper s) = readOnto radix limit acc s := by
  induction s generalizing acc with
  | nil => rfl
  | cons c s ih =>
    have hdigit : digit? radix c.toUpper = digit? radix c := by
      rw [digit?, digitValue?_toUpper, digit?]
    rw [upper_cons, readOnto, readOnto, hdigit]
    cases digit? radix c with
    | none => rfl
    | some d => simp only [ih]

end CacheVerdict.Numeral
