import Mathlib
import BlobCensus.NameIndex

/-!
# Names that a pattern stands for

A pattern stands for the names that can be cut into one piece for each of its characters. Working
through the pattern from its end keeps, for every suffix of the name, whether the pattern's end stands
for that suffix, so no way to cut the name is missed however many runs the pattern has.
-/
namespace BlobCensus

namespace Wild

variable {w : Wild} {fits : List Char → Prop} {c : Char} {name : List Char}

/-- The pieces of a name that a pattern's character stands for. -/
def Covers : Wild → List Char → Prop
  | run, piece => '\n' ∉ piece
  | one, piece => ∃ c, c ≠ '\n' ∧ piece = [c]
  | literal c, piece => piece = [c]

/-- The names that begin with a piece for the character and go on with what fits. -/
def Before (w : Wild) (fits : List Char → Prop) (name : List Char) : Prop :=
  ∃ piece rest, piece ++ rest = name ∧ w.Covers piece ∧ fits rest

theorem covers_singleton : w.Covers [c] ↔ w.takes c = true := by
  cases w with
  | run => simpa [Covers, takes] using ne_comm
  | one => simp [Covers, takes]
  | literal d => simp [Covers, takes]

theorem before_nil : w.Before fits [] ↔ w = run ∧ fits [] := by
  cases w <;> simp [Before, Covers]

theorem before_cons_of_ne_run (h : w ≠ run) :
    w.Before fits (c :: name) ↔ w.takes c = true ∧ fits name := by
  rw [← covers_singleton]
  constructor
  · rintro ⟨piece, rest, he, hpiece, hrest⟩
    obtain ⟨d, rfl⟩ : ∃ d, piece = [d] := by
      cases w with
      | run => exact absurd rfl h
      | one =>
        obtain ⟨d, -, rfl⟩ := hpiece
        exact ⟨d, rfl⟩
      | literal d => exact ⟨d, hpiece⟩
    obtain ⟨rfl, rfl⟩ := List.cons.inj he
    exact ⟨hpiece, hrest⟩
  · rintro ⟨hc, hname⟩
    exact ⟨[c], name, rfl, hc, hname⟩

/-- A run ends at once, or takes one more character and goes on. -/
theorem run_before_cons :
    run.Before fits (c :: name) ↔ c ≠ '\n' ∧ run.Before fits name ∨ fits (c :: name) := by
  constructor
  · rintro ⟨piece, rest, he, hpiece, hrest⟩
    cases piece with
    | nil =>
      rw [List.nil_append] at he
      exact .inr (he ▸ hrest)
    | cons d piece =>
      obtain ⟨rfl, rfl⟩ := List.cons.inj he
      simp only [Covers, List.mem_cons, not_or] at hpiece
      exact .inl ⟨Ne.symm hpiece.1, piece, rest, rfl, hpiece.2, hrest⟩
  · rintro (⟨hc, piece, rest, rfl, hpiece, hrest⟩ | hfits)
    · refine ⟨c :: piece, rest, rfl, ?_, hrest⟩
      simp only [Covers, List.mem_cons, not_or]
      exact ⟨Ne.symm hc, hpiece⟩
    · exact ⟨[], c :: name, rfl, List.not_mem_nil, hfits⟩

end Wild

namespace Glob

variable {g : Glob} {w : Wild} {fits : List Char → Prop} {name : List Char} {answers : List Bool}

/-- The names that a pattern stands for. -/
def Spells (g : Glob) : List Char → Prop := g.foldr Wild.Before (· = [])

/-- One answer for each suffix of a name, longest first: whether it fits. -/
def Row (fits : List Char → Prop) : List Char → List Bool → Prop
  | [], answers => ∃ b, answers = [b] ∧ (b = true ↔ fits [])
  | c :: name, answers =>
    ∃ b rest, answers = b :: rest ∧ (b = true ↔ fits (c :: name)) ∧ Row fits name rest

theorem Row.headD (h : Row fits name answers) : answers.headD false = true ↔ fits name := by
  cases name with
  | nil =>
    obtain ⟨b, rfl, hb⟩ := h
    exact hb
  | cons c name =>
    obtain ⟨b, rest, rfl, hb, -⟩ := h
    exact hb

theorem row_emptyRow (name : List Char) : Row (· = []) name (emptyRow name) := by
  induction name with
  | nil => exact ⟨true, rfl, by simp⟩
  | cons c name ih => exact ⟨false, _, rfl, by simp, ih⟩

theorem Row.extend (h : Row fits name answers) : Row (w.Before fits) name (extend w name answers) := by
  induction name generalizing answers with
  | nil =>
    refine ⟨_, rfl, ?_⟩
    rw [Wild.before_nil, ← h.headD]
    by_cases hw : w = .run <;> simp [hw]
  | cons c name ih =>
    have hhead := h.headD
    obtain ⟨b, rest, rfl, hb, hrest⟩ := h
    refine ⟨_, _, rfl, ?_, ih hrest⟩
    by_cases hw : w = .run
    · subst hw
      rw [Wild.run_before_cons]
      simp [Wild.takes, ← (ih hrest).headD, ← hhead]
    · rw [Wild.before_cons_of_ne_run hw]
      simp [hw, ← hrest.headD]

theorem row_spells (g : Glob) (name : List Char) : Row g.Spells name (row g name) := by
  induction g with
  | nil => exact row_emptyRow name
  | cons w g ih => exact ih.extend

theorem accepts_iff_spells (g : Glob) (name : String) :
    g.accepts name = true ↔ g.Spells name.toList :=
  (row_spells g name.toList).headD

theorem spells_cons : Spells (w :: g) name ↔
    ∃ piece rest, piece ++ rest = name ∧ w.Covers piece ∧ g.Spells rest :=
  Iff.rfl

theorem spells_iff_cut : g.Spells name ↔
    ∃ pieces : List (List Char), List.Forall₂ Wild.Covers g pieces ∧ pieces.flatten = name := by
  induction g generalizing name with
  | nil => simp [Spells, eq_comm]
  | cons w g ih =>
    simp only [spells_cons, ih, List.forall₂_cons_left_iff]
    constructor
    · rintro ⟨piece, _, rfl, hpiece, pieces, hpieces, rfl⟩
      exact ⟨piece :: pieces, ⟨piece, pieces, hpiece, hpieces, rfl⟩, rfl⟩
    · rintro ⟨_, ⟨piece, pieces, hpiece, hpieces, rfl⟩, rfl⟩
      exact ⟨piece, pieces.flatten, rfl, hpiece, pieces, hpieces, rfl⟩

theorem spells_append {h : Glob} : Spells (g ++ h) name ↔
    ∃ front back, front ++ back = name ∧ g.Spells front ∧ h.Spells back := by
  induction g generalizing name with
  | nil => simp [Spells]
  | cons w g ih =>
    simp only [List.cons_append, spells_cons, ih]
    constructor
    · rintro ⟨piece, _, rfl, hpiece, front, back, rfl, hfront, hback⟩
      exact ⟨piece ++ front, back, by simp, ⟨piece, front, rfl, hpiece, hfront⟩, hback⟩
    · rintro ⟨_, back, rfl, ⟨piece, front, rfl, hpiece, hfront⟩, hback⟩
      exact ⟨piece, front ++ back, by simp, hpiece, front, back, rfl, hfront, hback⟩

/-- The pieces of a name that one character of a pattern text stands for. -/
def Admits (c : Char) (piece : List Char) : Prop :=
  if c = '*' then '\n' ∉ piece
  else if c = '?' then ∃ d, d ≠ '\n' ∧ piece = [d]
  else piece = [c]

theorem covers_ofChar (c : Char) : (Wild.ofChar c).Covers = Admits c := by
  funext piece
  unfold Wild.ofChar Admits
  split
  · rfl
  · split <;> rfl

variable {text : List Char}

/-- A pattern text stands for itself, whatever wildcards it has. -/
theorem spells_self (text : List Char) : Spells (text.map Wild.ofChar) text := by
  induction text with
  | nil => exact rfl
  | cons c rest ih =>
    refine ⟨[c], rest, rfl, ?_, ih⟩
    rw [covers_ofChar, Admits]
    split
    · rename_i hc
      simp [hc]
    · split
      · rename_i hc
        exact ⟨c, by simp [hc], rfl⟩
      · rfl

/-- A text without wildcards stands for nothing else. -/
theorem spells_plain (run : '*' ∉ text) (one : '?' ∉ text) :
    Spells (text.map Wild.ofChar) name ↔ name = text := by
  refine ⟨fun h => ?_, fun h => h ▸ spells_self text⟩
  induction text generalizing name with
  | nil => exact h
  | cons c rest ih =>
    simp only [List.mem_cons, not_or] at run one
    obtain ⟨piece, more, rfl, hpiece, hmore⟩ := h
    rw [covers_ofChar, Admits, if_neg (Ne.symm run.1), if_neg (Ne.symm one.1)] at hpiece
    rw [hpiece, ih run.2 one.2 hmore]
    rfl

theorem isWild_ofString (pattern : String) :
    (ofString pattern).isWild = true ↔ '*' ∈ pattern.toList ∨ '?' ∈ pattern.toList := by
  have hchar : ∀ c, (Wild.ofChar c).isWildcard = true ↔ c = '*' ∨ c = '?' := by
    intro c
    by_cases hrun : c = '*' <;> by_cases hone : c = '?' <;>
      simp [Wild.ofChar, hrun, hone, Wild.isWildcard]
  simp only [isWild, ofString, List.any_map, List.any_eq_true, Function.comp_apply, hchar]
  constructor
  · rintro ⟨c, hc, rfl | rfl⟩
    · exact .inl hc
    · exact .inr hc
  · rintro (hrun | hone)
    · exact ⟨_, hrun, .inl rfl⟩
    · exact ⟨_, hone, .inr rfl⟩

theorem accepts_plain {pattern : String} (plain : (ofString pattern).isWild = false) (name : String) :
    (ofString pattern).accepts name = (name == pattern) := by
  have hnot : ¬ ('*' ∈ pattern.toList ∨ '?' ∈ pattern.toList) := by
    rw [← isWild_ofString, plain]
    exact Bool.false_ne_true
  rw [Bool.eq_iff_iff, accepts_iff_spells, ofString,
    spells_plain (fun h => hnot (.inl h)) fun h => hnot (.inr h), String.toList_inj, beq_iff_eq]

/-- A pattern text stands for a name if and only if the whole name can be cut into consecutive pieces,
one for each character of the text: `*` takes any piece and `?` one character, neither with a line end,
and every other character takes itself. -/
theorem accepts_iff_cut (pattern name : String) :
    (ofString pattern).accepts name = true ↔
      ∃ pieces : List (List Char),
        List.Forall₂ Admits pattern.toList pieces ∧ pieces.flatten = name.toList := by
  rw [accepts_iff_spells, spells_iff_cut]
  simp only [ofString, List.forall₂_map_left_iff, covers_ofChar]

end Glob

end BlobCensus
