import Mathlib
import BlobCensus.Proofs.Json.Reader

/-!
# Documents read back

What is written of a value is read back as that value, in either layout, whatever text it holds and
whatever follows it. Texts are escaped so that the closing quote is the first one that stands alone, a
number ends where no digit follows, and between the items of a list or an object there are only
blanks and the separators.
-/
namespace BlobCensus.JsonReader

open Json (escape quote bracket renderAt renderItems renderFields hexDigit Layout)

section Texts

variable {rest : List Char}

theorem unit?_hexDigit : ∀ n < 32, unit? '0' '0' (hexDigit (n / 16)) (hexDigit (n % 16)) = some n := by
  decide

theorem readChars_plain {c : Char} (hquote : c ≠ '"') (hslash : c ≠ '\\') (hcontrol : ¬ c.toNat < 32) :
    readChars (c :: rest) = push c (readChars rest) := by
  rw [readChars.eq_def]
  simp [hslash, hcontrol]

/-- A control character is written by its value. -/
theorem readChars_control {c : Char} (hcontrol : c.toNat < 32) :
    readChars ('\\' :: 'u' :: '0' :: '0' :: hexDigit (c.toNat / 16) :: hexDigit (c.toNat % 16) :: rest) =
      push c (readChars rest) := by
  have hhigh : isHigh c.toNat = false := by
    simp only [isHigh, Bool.and_eq_false_iff, decide_eq_false_iff_not]
    omega
  have hlow : isLow c.toNat = false := by
    simp only [isLow, Bool.and_eq_false_iff, decide_eq_false_iff_not]
    omega
  simp only [readChars, unit?_hexDigit c.toNat hcontrol, hhigh, hlow, Bool.false_eq_true, if_false,
    Char.ofNat_toNat]

theorem readChars_escape (c : Char) : readChars (escape c ++ rest) = push c (readChars rest) := by
  unfold escape
  split_ifs with hquote hslash hline hreturn htab hback hfeed hcontrol
  · rw [hquote]
    rfl
  · rw [hslash]
    rfl
  · rw [hline]
    rfl
  · rw [hreturn]
    rfl
  · rw [htab]
    rfl
  · have hc : c = Char.ofNat 8 := by rw [← hback, Char.ofNat_toNat]
    rw [hc]
    rfl
  · have hc : c = Char.ofNat 12 := by rw [← hfeed, Char.ofNat_toNat]
    rw [hc]
    rfl
  · exact readChars_control hcontrol
  · exact readChars_plain hquote hslash hcontrol

/-- A quoted text is read back, however it is escaped. -/
theorem readChars_quoted (text : List Char) :
    readChars (text.flatMap escape ++ '"' :: rest) = some (text, rest) := by
  induction text with
  | nil => rfl
  | cons c text ih => rw [List.flatMap_cons, List.append_assoc, readChars_escape, ih, push, Option.map_some]

end Texts

section Numbers

/-- The text cannot go on with a number. -/
def EndsNumber (text : List Char) : Prop :=
  ∀ c ∈ text.head?, c.isDigit = false ∧ c ≠ '.' ∧ c ≠ 'e' ∧ c ≠ 'E'

variable {rest : List Char}

theorem span_digits {digits : List Char} (hdigits : ∀ c ∈ digits, c.isDigit = true)
    (ends : EndsNumber rest) : (digits ++ rest).span Char.isDigit = (digits, rest) := by
  have hrest : rest.takeWhile Char.isDigit = [] ∧ rest.dropWhile Char.isDigit = rest := by
    cases rest with
    | nil => exact ⟨rfl, rfl⟩
    | cons c rest =>
      have hc := (ends c rfl).1
      simp [hc]
  rw [List.span_eq_takeWhile_dropWhile, List.takeWhile_append_of_pos hdigits,
    List.dropWhile_append_of_pos hdigits, hrest.1, hrest.2, List.append_nil]

theorem digitChar_ne_zero : ∀ n < 10, 0 < n → n.digitChar ≠ '0' := by decide

/-- Only zero begins with the digit zero. -/
theorem head?_toDigits {n : ℕ} (h : 0 < n) : (Nat.toDigits 10 n).head? ≠ some '0' := by
  induction n using Nat.strong_induction_on with
  | _ n ih =>
    rw [Nat.toDigits_eq_if (by decide)]
    split_ifs with hsmall
    · simpa using digitChar_ne_zero n hsmall h
    · rw [List.head?_append_of_ne_nil _ Nat.toDigits_ne_nil]
      exact ih (n / 10) (by omega) (by omega)

theorem readFraction_none (ends : EndsNumber rest) : readFraction rest = some ([], rest) := by
  cases rest with
  | nil => rfl
  | cons c rest =>
    have hpoint := (ends c rfl).2.1
    rw [readFraction]
    simpa using hpoint

theorem readExponent_none (ends : EndsNumber rest) : readExponent rest = some (0, rest) := by
  cases rest with
  | nil => rfl
  | cons c rest =>
    obtain ⟨-, -, hlower, hupper⟩ := ends c rfl
    simp [readExponent, hlower, hupper]

theorem readUnsigned_toDigits (n : ℕ) (ends : EndsNumber rest) :
    readUnsigned false (Nat.toDigits 10 n ++ rest) = some ({ digits := n }, rest) := by
  have hdigits : ∀ c ∈ Nat.toDigits 10 n, c.isDigit = true :=
    fun c hc => Nat.isDigit_of_mem_toDigits (by decide) (by decide) hc
  have hwhole : ¬ (Nat.toDigits 10 n = [] ∨
      (Nat.toDigits 10 n).head? = some '0' ∧ Nat.toDigits 10 n ≠ ['0']) := by
    rintro (hnil | ⟨hhead, hlonger⟩)
    · exact Nat.toDigits_ne_nil hnil
    · obtain rfl : n = 0 := Nat.eq_zero_of_not_pos fun hpos => head?_toDigits hpos hhead
      exact hlonger rfl
  simp only [readUnsigned, span_digits hdigits ends, if_neg hwhole, readFraction_none ends,
    readExponent_none ends, List.append_nil, Nat.ofDigitChars_ten_toDigits, List.length_nil]

theorem ne_of_isDigit {c d : Char} (hc : c.isDigit = true) (hd : d.isDigit = false) : c ≠ d := by
  rintro rfl
  rw [hd] at hc
  cases hc

theorem exists_digit (n : ℕ) :
    ∃ c tail, Nat.toDigits 10 n = c :: tail ∧ c.isDigit = true := by
  obtain ⟨c, tail, hdigits⟩ := List.exists_cons_of_ne_nil (@Nat.toDigits_ne_nil n 10)
  exact ⟨c, tail, hdigits, Nat.isDigit_of_mem_toDigits (by decide) (by decide)
    (hdigits ▸ List.mem_cons_self)⟩

end Numbers

section Values

variable {layout : Layout} {rest : List Char}

theorem skip_cons {c : Char} (h : isBlank c = false) : skip (c :: rest) = c :: rest := by
  simp [skip, h]

theorem skip_lineStart (depth : ℕ) : skip (layout.lineStart depth ++ rest) = skip rest := by
  unfold skip
  rw [List.dropWhile_append_of_pos]
  intro c hc
  cases layout with
  | compact => cases hc
  | pretty =>
    rcases List.mem_cons.mp hc with rfl | hc
    · rfl
    · rw [(List.mem_replicate.mp hc).2]
      rfl

section Steps

variable {fuel : ℕ} {text after : List Char} {c : Char}

theorem readValue_quote (text : String) :
    readValue (fuel + 1) (quote text ++ rest) = some (.text text, rest) := by
  rw [quote, List.append_assoc, List.cons_append, List.singleton_append]
  change (readChars _).map _ = _
  simp only [readChars_quoted, Option.map_some, String.ofList_toList]

theorem readValue_toDigits (n : ℕ) (ends : EndsNumber rest) :
    readValue (fuel + 1) (Nat.toDigits 10 n ++ rest) = some (.number { digits := n }, rest) := by
  have hread := readUnsigned_toDigits n ends
  obtain ⟨c, tail, hdigits, hc⟩ := exists_digit n
  rw [hdigits, List.cons_append] at hread ⊢
  have hsign : readNumber (c :: (tail ++ rest)) = some ({ digits := n }, rest) := by
    rw [readNumber.eq_def]
    simp [ne_of_isDigit hc, hread]
  rw [readValue.eq_def]
  simp [ne_of_isDigit hc, hsign]

theorem readValue_list (first : skip text = c :: after) (hc : c ≠ ']') :
    readValue (fuel + 1) ('[' :: text) = readItems fuel [] (c :: after) := by
  simp only [readValue]
  rw [first]
  simp [hc]

theorem readValue_object (first : skip text = c :: after) (hc : c ≠ '}') :
    readValue (fuel + 1) ('{' :: text) = readFields fuel [] (c :: after) := by
  simp only [readValue]
  rw [first]
  simp [hc]

variable {done : List Value} {item : Value} {fields : List (String × Value)} {name : String}

theorem readItems_next (value : readValue fuel text = some (item, after))
    (comma : skip after = ',' :: rest) :
    readItems (fuel + 1) done text = readItems fuel (done ++ [item]) (skip rest) := by
  simp only [readItems, value, comma]

theorem readItems_last (value : readValue fuel text = some (item, after))
    (closes : skip after = ']' :: rest) :
    readItems (fuel + 1) done text = some (.list (done ++ [item]), rest) := by
  simp only [readItems, value, closes]

theorem skip_colon (layout : Layout) (first : skip text = text) :
    skip (layout.colon ++ text) = ':' :: (layout.colon.tail ++ text) ∧
      skip (layout.colon.tail ++ text) = text := by
  cases layout with
  | compact => exact ⟨rfl, first⟩
  | pretty => exact ⟨rfl, first⟩

theorem readFields_next (layout : Layout) (first : skip text = text)
    (value : readValue fuel text = some (item, after)) (comma : skip after = ',' :: rest) :
    readFields (fuel + 1) fields (quote name ++ (layout.colon ++ text)) =
      readFields fuel (put name item fields) (skip rest) := by
  obtain ⟨hcolon, hvalue⟩ := skip_colon layout first
  rw [quote, List.append_assoc, List.cons_append]
  simp only [readFields, List.singleton_append, readChars_quoted, hcolon, hvalue, value, comma,
    String.ofList_toList]

theorem readFields_last (layout : Layout) (first : skip text = text)
    (value : readValue fuel text = some (item, after)) (closes : skip after = '}' :: rest) :
    readFields (fuel + 1) fields (quote name ++ (layout.colon ++ text)) =
      some (.object (put name item fields), rest) := by
  obtain ⟨hcolon, hvalue⟩ := skip_colon layout first
  rw [quote, List.append_assoc, List.cons_append]
  simp only [readFields, List.singleton_append, readChars_quoted, hcolon, hvalue, value, closes,
    String.ofList_toList]

theorem put_of_notMem (fresh : name ∉ fields.map Prod.fst) :
    put name item fields = fields ++ [(name, item)] := by
  induction fields with
  | nil => rfl
  | cons field rest ih =>
    rw [List.map_cons, List.mem_cons, not_or] at fresh
    rw [put, if_neg (Ne.symm fresh.1), ih fresh.2, List.cons_append]

theorem put_of_nodup {names : List String} (distinct : (fields.map Prod.fst ++ name :: names).Nodup) :
    put name item fields = fields ++ [(name, item)] :=
  put_of_notMem fun hmem =>
    (List.nodup_append.mp distinct).2.2 name hmem name List.mem_cons_self rfl

end Steps

/-- What stands after the first of some written items: the others, each after a comma, and the end. -/
def followedBy (layout : Layout) (depth : ℕ) (items : List (List Char)) (last : List Char) : List Char :=
  items.flatMap (fun item => ',' :: layout.lineStart (depth + 1) ++ item) ++
    (layout.lineStart depth ++ last)

theorem followedBy_cons (layout : Layout) (depth : ℕ) (item : List Char) (items : List (List Char))
    (last : List Char) : followedBy layout depth (item :: items) last =
      ',' :: (layout.lineStart (depth + 1) ++ (item ++ followedBy layout depth items last)) := by
  simp [followedBy]

theorem intercalate_cons (separator first : List Char) (items : List (List Char)) :
    separator.intercalate (first :: items) = first ++ items.flatMap (separator ++ ·) := by
  induction items generalizing first with
  | nil => simp
  | cons item rest ih => rw [List.intercalate_cons_cons, ih, List.flatMap_cons]; simp

theorem bracket_cons (layout : Layout) (depth : ℕ) (opening closing : Char) (first : List Char)
    (items : List (List Char)) (rest : List Char) :
    bracket layout depth opening closing (first :: items) ++ rest =
      opening :: (layout.lineStart (depth + 1) ++
        (first ++ followedBy layout depth items (closing :: rest))) := by
  simp [bracket, followedBy, intercalate_cons]

theorem endsNumber_followedBy (layout : Layout) (depth : ℕ) (items : List (List Char))
    {closing : Char} (hclosing : closing = ']' ∨ closing = '}') :
    EndsNumber (followedBy layout depth items (closing :: rest)) := by
  intro c hc
  cases items with
  | cons item items =>
    rw [followedBy_cons] at hc
    obtain rfl := Option.some.inj hc
    decide
  | nil =>
    cases layout with
    | compact =>
      obtain rfl := Option.some.inj hc
      rcases hclosing with rfl | rfl <;> decide
    | pretty =>
      obtain rfl := Option.some.inj hc
      decide

/-- The written form of a value: it begins with a character that is neither blank nor closes anything,
and read with fuel for its length it gives the value, whatever follows that does not make a number
longer. -/
structure ReadsAs (written : List Char) (value : Value) : Prop where
  first : ∃ c tail, written = c :: tail ∧ isBlank c = false ∧ c ≠ ']' ∧ c ≠ '}'
  reads : ∀ fuel rest, written.length ≤ fuel → EndsNumber rest →
    readValue fuel (written ++ rest) = some (value, rest)

theorem ReadsAs.skip_append {written : List Char} {value : Value} (h : ReadsAs written value)
    (rest : List Char) : skip (written ++ rest) = written ++ rest := by
  obtain ⟨c, tail, rfl, hc, -⟩ := h.first
  exact skip_cons hc

theorem ReadsAs.length_pos {written : List Char} {value : Value} (h : ReadsAs written value) :
    0 < written.length := by
  obtain ⟨c, tail, rfl, -⟩ := h.first
  exact Nat.succ_pos _

theorem readsAs_quote (text : String) : ReadsAs (quote text) (.text text) where
  first := ⟨'"', _, rfl, by decide, by decide, by decide⟩
  reads fuel rest enough _ := by
    obtain ⟨more, rfl⟩ := Nat.exists_eq_add_one.mpr (lt_of_lt_of_le (by simp [quote]) enough)
    exact readValue_quote text

theorem readsAs_toDigits (n : ℕ) : ReadsAs (Nat.toDigits 10 n) (.number { digits := n }) where
  first := by
    obtain ⟨c, tail, hdigits, hc⟩ := exists_digit n
    refine ⟨c, tail, hdigits, ?_, ne_of_isDigit hc (by decide), ne_of_isDigit hc (by decide)⟩
    simp [isBlank, ne_of_isDigit hc]
  reads fuel rest enough ends := by
    obtain ⟨more, rfl⟩ := Nat.exists_eq_add_one.mpr (lt_of_lt_of_le Nat.length_toDigits_pos enough)
    exact readValue_toDigits n ends

section Brackets

theorem followedBy_nil (layout : Layout) (depth : ℕ) (last : List Char) :
    followedBy layout depth [] last = layout.lineStart depth ++ last := rfl

theorem length_followedBy_pos (layout : Layout) (depth : ℕ) (items : List (List Char)) (c : Char) :
    0 < (followedBy layout depth items [c]).length := by
  simp [followedBy]

/-- Among others, a value is read up to where it ends. -/
theorem ReadsAs.reads_followedBy {written : List Char} {value : Value} (h : ReadsAs written value)
    (layout : Layout) (depth : ℕ) (items : List (List Char)) {closing : Char}
    (hclosing : closing = ']' ∨ closing = '}') {fuel : ℕ} (rest : List Char)
    (enough : (written ++ followedBy layout depth items [closing]).length ≤ fuel + 1) :
    readValue fuel (written ++ followedBy layout depth items (closing :: rest)) =
      some (value, followedBy layout depth items (closing :: rest)) := by
  have hend := length_followedBy_pos layout depth items closing
  rw [List.length_append] at enough
  exact h.reads fuel _ (by omega) (endsNumber_followedBy layout depth items hclosing)

theorem exists_fuel {written rest : List Char} {fuel : ℕ} (hwritten : 0 < written.length)
    (enough : (written ++ rest).length ≤ fuel) : ∃ more, fuel = more + 1 := by
  rw [List.length_append] at enough
  exact Nat.exists_eq_add_one.mpr (by omega)

theorem readItems_followedBy (layout : Layout) (depth : ℕ) (first : List Char × Value)
    (items : List (List Char × Value)) (hfirst : ReadsAs first.1 first.2)
    (hitems : ∀ e ∈ items, ReadsAs e.1 e.2) (fuel : ℕ) (done : List Value) (rest : List Char)
    (enough : (first.1 ++ followedBy layout depth (items.map Prod.fst) [']']).length ≤ fuel) :
    readItems fuel done (first.1 ++ followedBy layout depth (items.map Prod.fst) (']' :: rest)) =
      some (.list (done ++ (first :: items).map Prod.snd), rest) := by
  induction items generalizing first fuel done with
  | nil =>
    obtain ⟨fuel, rfl⟩ := exists_fuel hfirst.length_pos enough
    refine readItems_last (hfirst.reads_followedBy layout depth _ (.inl rfl) rest enough) ?_
    rw [List.map_nil, followedBy_nil, skip_lineStart]
    exact skip_cons (by decide)
  | cons second items ih =>
    obtain ⟨hsecond, hitems⟩ := List.forall_mem_cons.mp hitems
    obtain ⟨fuel, rfl⟩ := exists_fuel hfirst.length_pos enough
    have hread := hfirst.reads_followedBy layout depth _ (.inl rfl) rest enough
    rw [List.map_cons, followedBy_cons] at enough hread ⊢
    rw [readItems_next hread (skip_cons (by decide)), skip_lineStart, hsecond.skip_append,
      ih second hsecond hitems fuel]
    · simp
    · have hpos := hfirst.length_pos
      simp only [List.length_append, List.length_cons] at enough ⊢
      omega

theorem readsAs_list (layout : Layout) (depth : ℕ) (items : List (List Char × Value))
    (hitems : ∀ e ∈ items, ReadsAs e.1 e.2) :
    ReadsAs (bracket layout depth '[' ']' (items.map Prod.fst)) (.list (items.map Prod.snd)) := by
  cases items with
  | nil =>
    refine ⟨⟨'[', _, rfl, by decide, by decide, by decide⟩, fun fuel rest enough _ => ?_⟩
    obtain ⟨fuel, rfl⟩ : ∃ more, fuel = more + 1 :=
      Nat.exists_eq_add_one.mpr (lt_of_lt_of_le Nat.two_pos enough)
    rfl
  | cons first items =>
    obtain ⟨hfirst, hitems⟩ := List.forall_mem_cons.mp hitems
    have hwhole := bracket_cons layout depth '[' ']' first.1 (items.map Prod.fst)
    have hwritten := (List.append_nil _).symm.trans (hwhole [])
    refine ⟨⟨'[', _, hwritten, by decide, by decide, by decide⟩, fun fuel rest enough _ => ?_⟩
    rw [List.map_cons, hwritten, List.length_cons, List.length_append] at enough
    obtain ⟨fuel, rfl⟩ : ∃ more, fuel = more + 1 := Nat.exists_eq_add_one.mpr (by omega)
    obtain ⟨c, tail, htext, hblank, hbracket, -⟩ := hfirst.first
    have hskip : skip (layout.lineStart (depth + 1) ++ (first.1 ++
        followedBy layout depth (items.map Prod.fst) (']' :: rest))) = c :: (tail ++
        followedBy layout depth (items.map Prod.fst) (']' :: rest)) := by
      rw [skip_lineStart, hfirst.skip_append, htext, List.cons_append]
    rw [List.map_cons, hwhole, readValue_list hskip hbracket, ← List.cons_append, ← htext,
      readItems_followedBy layout depth first items hfirst hitems fuel [] rest (by omega)]
    rfl

/-- A written field: its name, and its value as it is written and read. -/
def writtenField (layout : Layout) (field : String × List Char × Value) : List Char :=
  quote field.1 ++ layout.colon ++ field.2.1

theorem length_writtenField_pos (layout : Layout) (field : String × List Char × Value) :
    0 < (writtenField layout field).length := by
  simp [writtenField, quote]

theorem exists_quote (layout : Layout) (field : String × List Char × Value) :
    ∃ tail, writtenField layout field = '"' :: tail := ⟨_, rfl⟩

theorem skip_writtenField (layout : Layout) (field : String × List Char × Value) (rest : List Char) :
    skip (writtenField layout field ++ rest) = writtenField layout field ++ rest := by
  obtain ⟨tail, htext⟩ := exists_quote layout field
  rw [htext, List.cons_append, skip_cons (by decide)]

/-- Among others, the value of a field is read up to where it ends. -/
theorem ReadsAs.reads_field {layout : Layout} {field : String × List Char × Value}
    (h : ReadsAs field.2.1 field.2.2) (depth : ℕ) (items : List (List Char)) {fuel : ℕ}
    (rest : List Char)
    (enough : (writtenField layout field ++ followedBy layout depth items ['}']).length ≤ fuel + 1) :
    readValue fuel (field.2.1 ++ followedBy layout depth items ('}' :: rest)) =
      some (field.2.2, followedBy layout depth items ('}' :: rest)) := by
  refine h.reads_followedBy layout depth items (.inr rfl) rest ?_
  simp only [writtenField, List.length_append] at enough ⊢
  omega

theorem readFields_followedBy (layout : Layout) (depth : ℕ) (first : String × List Char × Value)
    (fields : List (String × List Char × Value)) (hfirst : ReadsAs first.2.1 first.2.2)
    (hfields : ∀ e ∈ fields, ReadsAs e.2.1 e.2.2) (fuel : ℕ) (done : List (String × Value))
    (distinct : (done.map Prod.fst ++ (first :: fields).map Prod.fst).Nodup) (rest : List Char)
    (enough : (writtenField layout first ++
      followedBy layout depth (fields.map (writtenField layout)) ['}']).length ≤ fuel) :
    readFields fuel done (writtenField layout first ++
      followedBy layout depth (fields.map (writtenField layout)) ('}' :: rest)) =
      some (.object (done ++ (first :: fields).map fun e => (e.1, e.2.2)), rest) := by
  induction fields generalizing first fuel done with
  | nil =>
    obtain ⟨fuel, rfl⟩ := exists_fuel (length_writtenField_pos layout first) enough
    have hread := hfirst.reads_field depth _ rest enough
    rw [writtenField, List.append_assoc, List.append_assoc,
      readFields_last layout (hfirst.skip_append _) hread, put_of_nodup distinct]
    · rfl
    · rw [List.map_nil, followedBy_nil, skip_lineStart]
      exact skip_cons (by decide)
  | cons second fields ih =>
    obtain ⟨hsecond, hfields⟩ := List.forall_mem_cons.mp hfields
    obtain ⟨fuel, rfl⟩ := exists_fuel (length_writtenField_pos layout first) enough
    have hread := hfirst.reads_field depth _ rest enough
    have hpos := length_writtenField_pos layout first
    have hfirstText := hfirst.skip_append
      (followedBy layout depth ((second :: fields).map (writtenField layout)) ('}' :: rest))
    rw [List.map_cons, followedBy_cons] at enough hread hfirstText ⊢
    rw [writtenField, List.append_assoc, List.append_assoc,
      readFields_next layout hfirstText hread (skip_cons (by decide)), skip_lineStart,
      skip_writtenField, put_of_nodup distinct, ih second hsecond hfields fuel]
    · simp
    · simpa using distinct
    · simp only [List.length_append, List.length_cons] at enough ⊢
      omega

theorem readsAs_object (layout : Layout) (depth : ℕ) (fields : List (String × List Char × Value))
    (distinct : (fields.map Prod.fst).Nodup) (hfields : ∀ e ∈ fields, ReadsAs e.2.1 e.2.2) :
    ReadsAs (bracket layout depth '{' '}' (fields.map (writtenField layout)))
      (.object (fields.map fun e => (e.1, e.2.2))) := by
  cases fields with
  | nil =>
    refine ⟨⟨'{', _, rfl, by decide, by decide, by decide⟩, fun fuel rest enough _ => ?_⟩
    obtain ⟨fuel, rfl⟩ : ∃ more, fuel = more + 1 :=
      Nat.exists_eq_add_one.mpr (lt_of_lt_of_le Nat.two_pos enough)
    rfl
  | cons first fields =>
    obtain ⟨hfirst, hfields⟩ := List.forall_mem_cons.mp hfields
    have hwhole := bracket_cons layout depth '{' '}' (writtenField layout first)
      (fields.map (writtenField layout))
    have hwritten := (List.append_nil _).symm.trans (hwhole [])
    refine ⟨⟨'{', _, hwritten, by decide, by decide, by decide⟩, fun fuel rest enough _ => ?_⟩
    rw [List.map_cons, hwritten, List.length_cons, List.length_append] at enough
    obtain ⟨fuel, rfl⟩ : ∃ more, fuel = more + 1 := Nat.exists_eq_add_one.mpr (by omega)
    obtain ⟨tail, htext⟩ := exists_quote layout first
    have hskip : skip (layout.lineStart (depth + 1) ++ (writtenField layout first ++
        followedBy layout depth (fields.map (writtenField layout)) ('}' :: rest))) = '"' :: (tail ++
        followedBy layout depth (fields.map (writtenField layout)) ('}' :: rest)) := by
      rw [skip_lineStart, skip_writtenField, htext, List.cons_append]
    rw [List.map_cons, hwhole, readValue_object hskip (by decide), ← List.cons_append, ← htext,
      readFields_followedBy layout depth first fields hfirst hfields fuel [] distinct rest (by omega)]
    rfl

end Brackets

mutual

def ofJson : Json → Value
  | .text value => .text value
  | .number value => .number { digits := value }
  | .list items => .list (ofItems items)
  | .object fields => .object (ofFields fields)

def ofItems : List Json → List Value
  | [] => []
  | item :: rest => ofJson item :: ofItems rest

def ofFields : List (String × Json) → List (String × Value)
  | [] => []
  | (name, value) :: rest => (name, ofJson value) :: ofFields rest

end

mutual

/-- No object gives a field twice. -/
def WellKeyed : Json → Prop
  | .text _ | .number _ => True
  | .list items => WellKeyedItems items
  | .object fields => (fields.map Prod.fst).Nodup ∧ WellKeyedFields fields

def WellKeyedItems : List Json → Prop
  | [] => True
  | item :: rest => WellKeyed item ∧ WellKeyedItems rest

def WellKeyedFields : List (String × Json) → Prop
  | [] => True
  | (_, value) :: rest => WellKeyed value ∧ WellKeyedFields rest

end

theorem renderItems_eq (layout : Layout) (depth : ℕ) (items : List Json) :
    renderItems layout depth items = items.map (renderAt layout depth) := by
  induction items with
  | nil => rfl
  | cons item rest ih => rw [renderItems, ih, List.map_cons]

theorem renderFields_eq (layout : Layout) (depth : ℕ) (fields : List (String × Json)) :
    renderFields layout depth fields =
      fields.map fun e => quote e.1 ++ layout.colon ++ renderAt layout depth e.2 := by
  induction fields with
  | nil => rfl
  | cons field rest ih => rw [renderFields, ih, List.map_cons]

theorem ofItems_eq (items : List Json) : ofItems items = items.map ofJson := by
  induction items with
  | nil => rfl
  | cons item rest ih => rw [ofItems, ih, List.map_cons]

theorem ofFields_eq (fields : List (String × Json)) :
    ofFields fields = fields.map fun e => (e.1, ofJson e.2) := by
  induction fields with
  | nil => rfl
  | cons field rest ih => rw [ofFields, ih, List.map_cons]

theorem wellKeyedItems_iff {items : List Json} : WellKeyedItems items ↔ ∀ item ∈ items, WellKeyed item := by
  induction items with
  | nil => simp [WellKeyedItems]
  | cons item rest ih => rw [WellKeyedItems, ih, List.forall_mem_cons]

theorem wellKeyedFields_iff {fields : List (String × Json)} :
    WellKeyedFields fields ↔ ∀ e ∈ fields, WellKeyed e.2 := by
  induction fields with
  | nil => simp [WellKeyedFields]
  | cons field rest ih => rw [WellKeyedFields, ih, List.forall_mem_cons]

/-- A list of texts gives no field twice, having none. -/
theorem wellKeyed_texts {α : Type} (items : List α) (write : α → String) :
    WellKeyed (.list (items.map fun item => .text (write item))) :=
  wellKeyedItems_iff.mpr (List.forall_mem_map.mpr fun _ _ => trivial)

mutual

/-- A value is read back from its written form. -/
theorem readsAs_renderAt (layout : Layout) : ∀ (value : Json) (depth : ℕ), WellKeyed value →
    ReadsAs (renderAt layout depth value) (ofJson value)
  | .text value, _, _ => readsAs_quote value
  | .number value, _, _ => readsAs_toDigits value
  | .list items, depth, keyed => by
    have hitems := readsAs_items layout items (depth + 1) keyed
    have hlist := readsAs_list layout depth
      (items.map fun item => (renderAt layout (depth + 1) item, ofJson item))
      (List.forall_mem_map.mpr hitems)
    rw [renderAt, renderItems_eq, ofJson, ofItems_eq]
    simpa [Function.comp_def] using hlist
  | .object fields, depth, keyed => by
    have hfields := readsAs_fields layout fields (depth + 1) keyed.2
    have hobject := readsAs_object layout depth
      (fields.map fun e => (e.1, renderAt layout (depth + 1) e.2, ofJson e.2))
      (by simpa [Function.comp_def] using keyed.1) (List.forall_mem_map.mpr hfields)
    rw [renderAt, renderFields_eq, ofJson, ofFields_eq]
    simpa [Function.comp_def, writtenField] using hobject

theorem readsAs_items (layout : Layout) : ∀ (items : List Json) (depth : ℕ), WellKeyedItems items →
    ∀ item ∈ items, ReadsAs (renderAt layout depth item) (ofJson item)
  | [], _, _ => by simp
  | item :: rest, depth, keyed => List.forall_mem_cons.mpr
    ⟨readsAs_renderAt layout item depth keyed.1, readsAs_items layout rest depth keyed.2⟩

theorem readsAs_fields (layout : Layout) : ∀ (fields : List (String × Json)) (depth : ℕ),
    WellKeyedFields fields → ∀ e ∈ fields, ReadsAs (renderAt layout depth e.2) (ofJson e.2)
  | [], _, _ => by simp
  | (_, value) :: rest, depth, keyed => List.forall_mem_cons.mpr
    ⟨readsAs_renderAt layout value depth keyed.1, readsAs_fields layout rest depth keyed.2⟩

end

/-- A document is read back, with or without blanks after it. -/
theorem read_render (layout : Layout) {value : Json} (keyed : WellKeyed value) (after : String)
    (blank : ∀ c ∈ after.toList, isBlank c = true) :
    read (value.render layout ++ after) = some (ofJson value) := by
  have hreads := readsAs_renderAt layout value 0 keyed
  have hafter : skip after.toList = [] := List.dropWhile_eq_nil_iff.mpr blank
  have hends : EndsNumber after.toList := by
    intro c hc
    have hblank := blank c (List.mem_of_mem_head? hc)
    simp only [isBlank, Bool.or_eq_true, beq_iff_eq] at hblank
    rcases hblank with ((rfl | rfl) | rfl) | rfl <;> decide
  have htext : (value.render layout ++ after).toList = renderAt layout 0 value ++ after.toList := by
    rw [String.toList_append, Json.render, String.toList_ofList]
  have hlength : (renderAt layout 0 value).length ≤
      (renderAt layout 0 value ++ after.toList).length := by simp
  rw [read, htext, hreads.skip_append, hreads.reads _ _ hlength hends]
  simp only [hafter, if_true]

section Line

theorem notMem_escape (c : Char) : '\n' ∉ escape c := by
  have hhex : ∀ n < 32, '\n' ∉ ['\\', 'u', '0', '0', hexDigit (n / 16), hexDigit (n % 16)] := by decide
  unfold escape
  split_ifs with hquote hslash hline hreturn htab hback hfeed hcontrol
  on_goal 8 => exact hhex c.toNat hcontrol
  on_goal 8 => simpa using Ne.symm hline
  all_goals decide

theorem notMem_quote (text : String) : '\n' ∉ quote text := by
  simp only [quote, List.cons_append, List.mem_cons, List.mem_append, List.mem_flatMap, not_or,
    not_exists, not_and]
  exact ⟨by decide, fun c _ => notMem_escape c, by decide, List.not_mem_nil⟩

theorem notMem_toDigits (n : ℕ) : '\n' ∉ Nat.toDigits 10 n := by
  intro hmem
  have hdigit := Nat.isDigit_of_mem_toDigits (by decide) (by decide) hmem
  simp at hdigit

theorem notMem_bracket {depth : ℕ} {opening closing : Char} {items : List (List Char)}
    (hopening : opening ≠ '\n') (hclosing : closing ≠ '\n') (h : ∀ item ∈ items, '\n' ∉ item) :
    '\n' ∉ bracket .compact depth opening closing items := by
  cases items with
  | nil => simpa [bracket] using ⟨hopening.symm, hclosing.symm⟩
  | cons first items =>
    obtain ⟨hfirst, hitems⟩ := List.forall_mem_cons.mp h
    rw [← List.append_nil (bracket ..), bracket_cons]
    simp only [followedBy, Json.Layout.lineStart, List.nil_append, List.mem_cons, List.mem_append,
      List.mem_flatMap, List.cons_append, not_or, not_exists, not_and]
    refine ⟨hopening.symm, hfirst, fun item hitem => ⟨by decide, hitems item hitem⟩,
      hclosing.symm, List.not_mem_nil⟩

mutual

theorem notMem_renderAt : ∀ (value : Json) (depth : ℕ), '\n' ∉ renderAt .compact depth value
  | .text value, _ => notMem_quote value
  | .number value, _ => notMem_toDigits value
  | .list items, depth => by
    rw [renderAt, renderItems_eq]
    exact notMem_bracket (by decide) (by decide)
      (List.forall_mem_map.mpr (notMem_items items (depth + 1)))
  | .object fields, depth => by
    rw [renderAt, renderFields_eq]
    refine notMem_bracket (by decide) (by decide) (List.forall_mem_map.mpr fun e he => ?_)
    simp only [Json.Layout.colon, List.mem_append, List.mem_singleton, not_or]
    exact ⟨⟨notMem_quote e.1, by decide⟩, notMem_fields fields (depth + 1) e he⟩

theorem notMem_items : ∀ (items : List Json) (depth : ℕ),
    ∀ item ∈ items, '\n' ∉ renderAt .compact depth item
  | [], _ => by simp
  | item :: rest, depth =>
    List.forall_mem_cons.mpr ⟨notMem_renderAt item depth, notMem_items rest depth⟩

theorem notMem_fields : ∀ (fields : List (String × Json)) (depth : ℕ),
    ∀ e ∈ fields, '\n' ∉ renderAt .compact depth e.2
  | [], _ => by simp
  | (_, value) :: rest, depth =>
    List.forall_mem_cons.mpr ⟨notMem_renderAt value depth, notMem_fields rest depth⟩

end

end Line

end Values

end BlobCensus.JsonReader
