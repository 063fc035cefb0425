import Mathlib.Data.List.Basic
import BlobCensus.Architecture

/-!
# The phrase that decides

A format description may hold several phrases `ELF dd-bit`. The one that begins first is read, and its
digits are a width or they are not: what stands behind it no longer counts, even if it names a width.
-/
namespace BlobCensus.Architecture

open DecimalDigit (isDigit)

/-- Two decimal digits, of any script. -/
def IsPair (digits : String) : Prop :=
  ∃ tens ones, isDigit tens = true ∧ isDigit ones = true ∧ digits = String.ofList [tens, ones]

/-- A phrase with these digits stands in the text just behind `front`. -/
def PhraseAfter (text front digits : String) : Prop :=
  IsPair digits ∧ ∃ back, text = front ++ "ELF " ++ digits ++ "-bit" ++ back

/-- No phrase begins in the text before the end of `front`. -/
def Clear (text front : String) : Prop :=
  ∀ earlier digits, PhraseAfter text earlier digits → front.length ≤ earlier.length

variable {text digits front rest : List Char}

theorem phraseDigits?_eq_some_iff : phraseDigits? text = some digits ↔
    ∃ tens ones back, isDigit tens = true ∧ isDigit ones = true ∧ digits = [tens, ones] ∧
      text = "ELF ".toList ++ digits ++ "-bit".toList ++ back := by
  unfold phraseDigits?
  constructor
  · intro h
    simp only [Option.ite_none_right_eq_some, Option.some.injEq] at h
    obtain ⟨⟨hfront, hdigits, hback⟩, rfl⟩ := h
    obtain ⟨body, rfl⟩ : ∃ body, text = "ELF ".toList ++ body :=
      ⟨text.drop 4, by rw [← hfront, List.take_append_drop]⟩
    obtain _ | ⟨tens, _ | ⟨ones, tail⟩⟩ := body
    · simp at hback
    · simp at hback
    · have htail : tail.take 4 = "-bit".toList := hback
      have hpair : isDigit tens = true ∧ isDigit ones = true := by simpa using hdigits
      refine ⟨tens, ones, tail.drop 4, hpair.1, hpair.2, rfl, ?_⟩
      rw [List.append_assoc _ _ (tail.drop 4), ← htail, List.take_append_drop]
      rfl
  · rintro ⟨tens, ones, back, htens, hones, rfl, rfl⟩
    simp [htens, hones]

theorem firstPhraseDigits?_cons (c : Char) (rest : List Char) :
    firstPhraseDigits? (c :: rest) = (phraseDigits? (c :: rest)).or (firstPhraseDigits? rest) := by
  rw [firstPhraseDigits?]
  cases phraseDigits? (c :: rest) <;> rfl

/-- No phrase begins before this place of the text. -/
def NoneBefore (text : List Char) (place : ℕ) : Prop :=
  ∀ before after, text = before ++ after → before.length < place → phraseDigits? after = none

theorem noneBefore_zero (text : List Char) : NoneBefore text 0 :=
  fun _ _ _ hlt => absurd hlt (Nat.not_lt_zero _)

theorem noneBefore_cons {c : Char} {place : ℕ} : NoneBefore (c :: text) (place + 1) ↔
    phraseDigits? (c :: text) = none ∧ NoneBefore text place := by
  constructor
  · intro h
    refine ⟨h [] _ rfl (Nat.succ_pos place), fun before after he hlt => ?_⟩
    exact h (c :: before) after (congrArg (c :: ·) he) (Nat.succ_lt_succ hlt)
  · rintro ⟨hhere, hlater⟩ before after he hlt
    cases before with
    | nil =>
      obtain rfl : c :: text = after := he
      exact hhere
    | cons d before => exact hlater before after (List.cons.inj he).2 (Nat.lt_of_succ_lt_succ hlt)

theorem firstPhraseDigits?_eq_none_iff :
    firstPhraseDigits? text = none ↔ ∀ place, NoneBefore text place := by
  induction text with
  | nil => simp [firstPhraseDigits?, NoneBefore, phraseDigits?]
  | cons c text ih =>
    rw [firstPhraseDigits?_cons, Option.or_eq_none_iff, ih]
    constructor
    · rintro ⟨hhere, hlater⟩ place
      cases place with
      | zero => exact noneBefore_zero _
      | succ place => exact noneBefore_cons.mpr ⟨hhere, hlater place⟩
    · intro h
      exact ⟨(noneBefore_cons.mp (h 1)).1, fun place => (noneBefore_cons.mp (h (place + 1))).2⟩

/-- The first place where a phrase begins is the one that is read. -/
theorem firstPhraseDigits?_eq_some_iff : firstPhraseDigits? text = some digits ↔
    ∃ front rest, text = front ++ rest ∧ phraseDigits? rest = some digits ∧
      NoneBefore text front.length := by
  induction text with
  | nil => simp [firstPhraseDigits?, phraseDigits?]
  | cons c text ih =>
    rw [firstPhraseDigits?_cons, Option.or_eq_some_iff, ih]
    constructor
    · rintro (hhere | ⟨hnone, front, rest, rfl, hrest, hclear⟩)
      · exact ⟨[], c :: text, rfl, hhere, noneBefore_zero _⟩
      · exact ⟨c :: front, rest, rfl, hrest, noneBefore_cons.mpr ⟨hnone, hclear⟩⟩
    · rintro ⟨front, rest, he, hrest, hclear⟩
      cases front with
      | nil =>
        obtain rfl : c :: text = rest := he
        exact .inl hrest
      | cons d front =>
        obtain ⟨hnone, hclear⟩ := noneBefore_cons.mp hclear
        exact .inr ⟨hnone, front, rest, (List.cons.inj he).2, hrest, hclear⟩

section Text

variable {text front digits : String}

theorem phraseAfter_iff : PhraseAfter text front digits ↔
    ∃ rest, text.toList = front.toList ++ rest ∧ phraseDigits? rest = some digits.toList := by
  simp only [phraseDigits?_eq_some_iff]
  constructor
  · rintro ⟨⟨tens, ones, htens, hones, rfl⟩, back, rfl⟩
    refine ⟨_, ?_, tens, ones, back.toList, htens, hones, String.toList_ofList, rfl⟩
    simp [String.toList_append]
  · rintro ⟨rest, htext, tens, ones, back, htens, hones, hdigits, rfl⟩
    refine ⟨⟨tens, ones, htens, hones, by rw [← hdigits, String.ofList_toList]⟩, String.ofList back, ?_⟩
    apply String.toList_injective
    simp [String.toList_append, htext]

theorem clear_iff : Clear text front ↔ NoneBefore text.toList front.length := by
  simp only [Clear, NoneBefore, phraseAfter_iff]
  constructor
  · intro h before after htext hlt
    by_contra hsome
    obtain ⟨digits, hdigits⟩ := Option.ne_none_iff_exists'.mp hsome
    have hle := h (String.ofList before) (String.ofList digits)
      ⟨after, by simpa using htext, by simpa using hdigits⟩
    rw [String.length_ofList] at hle
    omega
  · rintro h earlier digits ⟨rest, htext, hdigits⟩
    by_contra hlt
    rw [← String.length_toList] at hlt
    rw [h earlier.toList rest htext (Nat.lt_of_not_le hlt)] at hdigits
    cases hdigits

theorem firstPhraseDigits?_toList_eq_some_iff :
    firstPhraseDigits? text.toList = some digits.toList ↔
      ∃ front, PhraseAfter text front digits ∧ Clear text front := by
  rw [firstPhraseDigits?_eq_some_iff]
  constructor
  · rintro ⟨front, rest, htext, hrest, hclear⟩
    refine ⟨String.ofList front, phraseAfter_iff.mpr ⟨rest, ?_, hrest⟩, clear_iff.mpr ?_⟩
    · rwa [String.toList_ofList]
    · rwa [String.length_ofList]
  · rintro ⟨front, here, clear⟩
    obtain ⟨rest, htext, hrest⟩ := phraseAfter_iff.mp here
    refine ⟨front.toList, rest, htext, hrest, ?_⟩
    rw [String.length_toList]
    exact clear_iff.mp clear

theorem ofDescription_of_first (here : PhraseAfter text front digits) (clear : Clear text front) :
    ofDescription text = ofBits digits := by
  have hfirst := firstPhraseDigits?_toList_eq_some_iff.mpr ⟨front, here, clear⟩
  rw [ofDescription, hfirst]
  exact congrArg ofBits String.ofList_toList

/-- A text has a first phrase, or none at all and tells nothing. -/
theorem exists_first_or_none (text : String) :
    (∃ front digits, PhraseAfter text front digits ∧ Clear text front) ∨
      ((∀ front digits, ¬ PhraseAfter text front digits) ∧ ofDescription text = unknown) := by
  cases hfirst : firstPhraseDigits? text.toList with
  | some digits =>
    rw [← String.toList_ofList (l := digits)] at hfirst
    obtain ⟨front, here, clear⟩ := firstPhraseDigits?_toList_eq_some_iff.mp hfirst
    exact .inl ⟨front, _, here, clear⟩
  | none =>
    refine .inr ⟨fun front digits here => ?_, by rw [ofDescription, hfirst]⟩
    obtain ⟨rest, htext, hrest⟩ := phraseAfter_iff.mp here
    rw [firstPhraseDigits?_eq_none_iff.mp hfirst _ _ _ htext (Nat.lt_succ_self _)] at hrest
    cases hrest

theorem ofDescription_eq_iff {a : Architecture} : ofDescription text = a ↔
    (∃ front digits, PhraseAfter text front digits ∧ Clear text front ∧ ofBits digits = a) ∨
      ((∀ front digits, ¬ PhraseAfter text front digits) ∧ a = unknown) := by
  constructor
  · rintro rfl
    obtain ⟨front, digits, here, clear⟩ | ⟨absent, hunknown⟩ := exists_first_or_none text
    · exact .inl ⟨front, digits, here, clear, (ofDescription_of_first here clear).symm⟩
    · exact .inr ⟨absent, hunknown⟩
  · rintro (⟨front, digits, here, clear, rfl⟩ | ⟨absent, rfl⟩)
    · exact ofDescription_of_first here clear
    · obtain ⟨front, digits, here, -⟩ | ⟨-, hunknown⟩ := exists_first_or_none text
      · exact absurd here (absent front digits)
      · exact hunknown

/-- A width that one pair of digits names is told by the phrase with that pair. -/
theorem ofDescription_eq_known_iff {a : Architecture} {phrase : String} (known : a ≠ unknown)
    (named : ∀ bits, ofBits bits = a ↔ bits = digits) (pair : IsPair digits)
    (spelled : "ELF " ++ digits ++ "-bit" = phrase) :
    ofDescription text = a ↔ ∃ u v, text = u ++ phrase ++ v ∧ Clear text u := by
  have hafter (u : String) : PhraseAfter text u digits ↔ ∃ v, text = u ++ phrase ++ v := by
    simp only [PhraseAfter, pair, true_and, ← spelled, String.append_assoc]
  simp only [ofDescription_eq_iff, named, known, and_false, or_false]
  constructor
  · rintro ⟨u, _, here, clear, rfl⟩
    obtain ⟨v, htext⟩ := (hafter u).mp here
    exact ⟨u, v, htext, clear⟩
  · rintro ⟨u, v, htext, clear⟩
    exact ⟨u, digits, (hafter u).mpr ⟨v, htext⟩, clear, rfl⟩

end Text

theorem ofBits_eq_bits32_iff (bits : String) : ofBits bits = bits32 ↔ bits = "32" := by
  unfold ofBits
  grind

theorem ofBits_eq_bits64_iff (bits : String) : ofBits bits = bits64 ↔ bits = "64" := by
  unfold ofBits
  grind

theorem ofBits_eq_unknown_iff (bits : String) :
    ofBits bits = unknown ↔ bits ≠ "32" ∧ bits ≠ "64" := by
  unfold ofBits
  grind

/-- A description tells 32 or 64 bits if it holds the phrase for them and no phrase begins before that,
whatever its digits. It tells nothing if there is no phrase, or if the first one has other digits: then
no later one makes up for it. -/
theorem ofDescription_leftmost (text : String) :
    (ofDescription text = bits32 ↔ ∃ u v, text = u ++ "ELF 32-bit" ++ v ∧ Clear text u) ∧
    (ofDescription text = bits64 ↔ ∃ u v, text = u ++ "ELF 64-bit" ++ v ∧ Clear text u) ∧
    (ofDescription text = unknown ↔
      (∀ u digits, ¬ PhraseAfter text u digits) ∨
      ∃ u digits, PhraseAfter text u digits ∧ Clear text u ∧ digits ≠ "32" ∧ digits ≠ "64") := by
  refine ⟨?_, ?_, ?_⟩
  · exact ofDescription_eq_known_iff (by simp) ofBits_eq_bits32_iff ⟨'3', '2', rfl, rfl, rfl⟩ rfl
  · exact ofDescription_eq_known_iff (by simp) ofBits_eq_bits64_iff ⟨'6', '4', rfl, rfl, rfl⟩ rfl
  · simp only [ofDescription_eq_iff, ofBits_eq_unknown_iff, and_true]
    exact or_comm

/-- A phrase with the digits of another script, though they are those of 64, hides a later width. -/
example : ofDescription "ELF 32 ELF \u0666\u0664-bit, ELF 32-bit" = unknown := by decide

end BlobCensus.Architecture
