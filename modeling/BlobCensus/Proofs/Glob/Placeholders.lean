import BlobCensus.Proofs.Glob.Matching

/-!
# Placeholders

The name of a library is cut at its placeholders, found from left to right, and the parts in between are
joined by runs. So the pattern stands for whatever the placeholders are filled with, and if the name has
no wildcards of its own it stands for nothing else.
-/
namespace BlobCensus.Glob

/-- What a library name has in the place of a text that it leaves open. -/
def placeholder : List Char := ['%', 's']

/-- The text is cut at its placeholders: each is the first one behind the one before. -/
inductive CutAt : List Char → List (List Char) → Prop
  | last {text : List Char} (free : ¬ placeholder <:+: text) : CutAt text [text]
  | next {text part rest : List Char} {parts : List (List Char)}
      (found : text = part ++ placeholder ++ rest)
      (first : ∀ before after, text = before ++ placeholder ++ after → part.length ≤ before.length)
      (cut : CutAt rest parts) : CutAt text (part :: parts)

/-- The parts of a text between its placeholders. -/
def parts : List Char → List (List Char)
  | '%' :: 's' :: rest => [] :: parts rest
  | c :: rest => (parts rest).modifyHead (c :: ·)
  | [] => [[]]

/-- The text with its placeholders filled. -/
def fill : List (List Char) → List (List Char) → List Char
  | part :: parts, filling :: fillings => part ++ filling ++ fill parts fillings
  | parts, [] => parts.flatten
  | [], _ => []

variable {text name part next : List Char} {ps : List (List Char)}

theorem CutAt.cons {c : Char} (cut : CutAt text ps)
    (fresh : ∀ rest, c :: text ≠ placeholder ++ rest) :
    CutAt (c :: text) (ps.modifyHead (c :: ·)) := by
  cases cut with
  | last free =>
    refine .last fun hfound => ?_
    rcases List.infix_cons_iff.mp hfound with ⟨rest, hrest⟩ | hfound
    · exact fresh rest hrest.symm
    · exact free hfound
  | @next _ part rest ps found first cut =>
    refine .next (by rw [found]; rfl) ?_ cut
    intro before after he
    cases before with
    | nil => exact absurd he (fresh after)
    | cons d before =>
      have hle := first before after (List.cons.inj he).2
      simpa using hle

theorem cutAt_parts (text : List Char) : CutAt text (parts text) := by
  fun_induction parts text with
  | case1 rest ih => exact .next rfl (fun _ _ _ => Nat.zero_le _) ih
  | case2 c rest fresh ih =>
    refine ih.cons fun more he => ?_
    obtain ⟨rfl, rfl⟩ := List.cons.inj he
    exact fresh more rfl rfl
  | case3 => exact .last (by simp [placeholder])

theorem CutAt.unique {qs : List (List Char)} (cut : CutAt text ps) (other : CutAt text qs) : ps = qs := by
  induction cut generalizing qs with
  | last free =>
    cases other with
    | last => rfl
    | next found => exact absurd ⟨_, _, found.symm⟩ free
  | next found first cut ih =>
    cases other with
    | last free => exact absurd ⟨_, _, found.symm⟩ free
    | next found' first' cut' =>
      have hlength := (first _ _ found').antisymm (first' _ _ found)
      simp only [List.append_assoc] at found found'
      obtain ⟨rfl, hrest⟩ := List.append_inj (found.symm.trans found') hlength
      rw [ih (List.append_cancel_left hrest ▸ cut')]

theorem parts_ne_nil (text : List Char) : parts text ≠ [] := by
  fun_induction parts text <;> simp_all

theorem intercalate_modifyHead (separator : List Char) (c : Char) (h : ps ≠ []) :
    separator.intercalate (ps.modifyHead (c :: ·)) = c :: separator.intercalate ps := by
  match ps, h with
  | [part], _ => simp
  | part :: next :: ps, _ => simp [List.intercalate_cons_cons]

theorem widen_eq (text : List Char) : widen text = ['*'].intercalate (parts text) := by
  fun_induction parts text with
  | case1 rest ih =>
    obtain ⟨part, ps, hparts⟩ := List.exists_cons_of_ne_nil (parts_ne_nil rest)
    rw [widen, ih, hparts, List.intercalate_cons_cons]
    rfl
  | case2 c rest fresh ih =>
    rw [intercalate_modifyHead _ _ (parts_ne_nil rest), ← ih, widen]
    exact fresh
  | case3 => rfl

def ofParts (ps : List (List Char)) : Glob := (['*'].intercalate ps).map Wild.ofChar

theorem spells_ofParts_cons : (ofParts (part :: next :: ps)).Spells name ↔
    ∃ front filling back, front ++ filling ++ back = name ∧
      Spells (part.map Wild.ofChar) front ∧ '\n' ∉ filling ∧ (ofParts (next :: ps)).Spells back := by
  have hparts : ofParts (part :: next :: ps) =
      part.map Wild.ofChar ++ (.run :: ofParts (next :: ps)) := by
    simp [ofParts, List.intercalate_cons_cons, Wild.ofChar]
  rw [hparts, spells_append]
  constructor
  · rintro ⟨front, _, rfl, hfront, filling, back, rfl, hfilling, hback⟩
    exact ⟨front, filling, back, by simp, hfront, hfilling, hback⟩
  · rintro ⟨front, filling, back, rfl, hfront, hfilling, hback⟩
    exact ⟨front, filling ++ back, by simp, hfront, filling, back, rfl, hfilling, hback⟩

/-- One filling for each placeholder between the parts, none with a line end. -/
structure Fills (ps fillings : List (List Char)) : Prop where
  length : fillings.length + 1 = ps.length
  unbroken : ∀ filling ∈ fillings, '\n' ∉ filling

theorem fills_cons {filling : List Char} {fillings : List (List Char)} :
    Fills (part :: ps) (filling :: fillings) ↔ '\n' ∉ filling ∧ Fills ps fillings := by
  constructor
  · intro h
    obtain ⟨hfilling, hrest⟩ := List.forall_mem_cons.mp h.unbroken
    exact ⟨hfilling, by simpa using h.length, hrest⟩
  · intro h
    exact ⟨by simpa using h.2.length, List.forall_mem_cons.mpr ⟨h.1, h.2.unbroken⟩⟩

theorem spells_fill {fillings : List (List Char)} (fills : Fills ps fillings) :
    (ofParts ps).Spells (fill ps fillings) := by
  induction fillings generalizing ps with
  | nil =>
    obtain ⟨part, rfl⟩ := List.length_eq_one_iff.mp fills.length.symm
    simpa [ofParts, fill] using spells_self part
  | cons filling fillings ih =>
    have hlength := fills.length
    match ps, fills with
    | [part], fills => simp at hlength
    | part :: next :: ps, fills =>
      obtain ⟨hfilling, hrest⟩ := fills_cons.mp fills
      exact spells_ofParts_cons.mpr ⟨part, filling, _, rfl, spells_self part, hfilling, ih hrest⟩

theorem exists_fills_of_spells (run : ∀ part ∈ ps, '*' ∉ part) (one : ∀ part ∈ ps, '?' ∉ part)
    (h : ps ≠ []) (spells : (ofParts ps).Spells name) :
    ∃ fillings, Fills ps fillings ∧ fill ps fillings = name := by
  induction ps generalizing name with
  | nil => exact absurd rfl h
  | cons part ps ih =>
    rw [List.forall_mem_cons] at run one
    cases ps with
    | nil =>
      refine ⟨[], ⟨rfl, by simp⟩, ?_⟩
      simpa [fill, ofParts, eq_comm] using (spells_plain run.1 one.1).mp (by simpa [ofParts] using spells)
    | cons next ps =>
      obtain ⟨front, filling, back, rfl, hfront, hfilling, hback⟩ := spells_ofParts_cons.mp spells
      obtain ⟨fillings, hfills, rfl⟩ := ih run.2 one.2 (List.cons_ne_nil _ _) hback
      refine ⟨filling :: fillings, fills_cons.mpr ⟨hfilling, hfills⟩, ?_⟩
      rw [(spells_plain run.1 one.1).mp hfront, fill]

/-- A text has its own placeholders for fillings. -/
theorem CutAt.exists_fills (cut : CutAt text ps) :
    ∃ fillings, Fills ps fillings ∧ fill ps fillings = text := by
  induction cut with
  | last free => exact ⟨[], ⟨rfl, by simp⟩, by simp [fill]⟩
  | next found first cut ih =>
    obtain ⟨fillings, hfills, rfl⟩ := ih
    exact ⟨placeholder :: fillings, fills_cons.mpr ⟨by decide, hfills⟩, by rw [found, fill]⟩

theorem CutAt.subset (cut : CutAt text ps) : ∀ part ∈ ps, part ⊆ text := by
  induction cut with
  | last free => simp
  | next found first cut ih =>
    subst found
    refine List.forall_mem_cons.mpr ⟨by simp, fun other hother => ?_⟩
    exact List.Subset.trans (ih other hother) (by simp)

theorem toList_ofLibrary (library : String) :
    (ofLibrary library).toList = ['*'].intercalate (parts library.toList) := by
  rw [ofLibrary, String.toList_ofList, widen_eq]

theorem accepts_ofLibrary_iff (library name : String) :
    (ofString (ofLibrary library)).accepts name = true ↔
      (ofParts (parts library.toList)).Spells name.toList := by
  rw [accepts_iff_spells, ofString, toList_ofLibrary, ofParts]

theorem accepts_fill {library : String} {fillings : List (List Char)}
    (fills : Fills (parts library.toList) fillings) :
    (ofString (ofLibrary library)).accepts (.ofList (fill (parts library.toList) fillings)) = true := by
  rw [accepts_ofLibrary_iff, String.toList_ofList]
  exact spells_fill fills

theorem accepts_self (library : String) : (ofString (ofLibrary library)).accepts library = true := by
  obtain ⟨fillings, hfills, hlibrary⟩ := (cutAt_parts library.toList).exists_fills
  have hself := accepts_fill hfills
  rwa [hlibrary, String.ofList_toList] at hself

theorem exists_fills_of_accepts {library name : String} (run : '*' ∉ library.toList)
    (one : '?' ∉ library.toList) (h : (ofString (ofLibrary library)).accepts name = true) :
    ∃ fillings, Fills (parts library.toList) fillings ∧
      name = .ofList (fill (parts library.toList) fillings) := by
  have hsubset := (cutAt_parts library.toList).subset
  obtain ⟨fillings, hfills, hname⟩ :=
    exists_fills_of_spells (fun part hpart hmem => run (hsubset part hpart hmem))
      (fun part hpart hmem => one (hsubset part hpart hmem)) (parts_ne_nil _)
      ((accepts_ofLibrary_iff library name).mp h)
  exact ⟨fillings, hfills, by rw [hname, String.ofList_toList]⟩

/-- The placeholders of a library name, found from left to right, are read as runs. Whatever text
without a line end each of them is filled with, the pattern stands for the name that comes out, the name
of the library itself among them; and if that has no wildcard of its own, for no other name. -/
theorem accepts_filled (library : String) :
    ∃ ps, (∀ qs, CutAt library.toList qs ↔ qs = ps) ∧
      (ofLibrary library).toList = ['*'].intercalate ps ∧
      (∀ fillings, Fills ps fillings →
        (ofString (ofLibrary library)).accepts (.ofList (fill ps fillings)) = true) ∧
      (ofString (ofLibrary library)).accepts library = true ∧
      ('*' ∉ library.toList → '?' ∉ library.toList → ∀ name : String,
        (ofString (ofLibrary library)).accepts name = true →
          ∃ fillings, Fills ps fillings ∧ name = .ofList (fill ps fillings)) := by
  have hcut := cutAt_parts library.toList
  refine ⟨parts library.toList, fun qs => ⟨fun other => other.unique hcut, fun he => he ▸ hcut⟩,
    toList_ofLibrary library, fun fillings fills => accepts_fill fills, accepts_self library, ?_⟩
  intro run one name h
  exact exists_fills_of_accepts run one h

end BlobCensus.Glob
