import BlobCensus.Proofs.Disk.Names

/-!
# Trees of directories

In a well-formed directory every entry bears a proper name and no two bear the same one, on every level.
Then the names that lead to an entry are all proper, and the regular files are listed by exactly the
names that lead to them.
-/
namespace BlobCensus.Directory

/-- Every entry bears a proper name that no other entry beside it bears. -/
def WellFormed : Directory → Prop
  | empty => True
  | file n _ rest => n.IsName ∧ rest.get? n = none ∧ rest.WellFormed
  | link n _ rest => n.IsName ∧ rest.get? n = none ∧ rest.WellFormed
  | folder n inside rest =>
    n.IsName ∧ rest.get? n = none ∧ inside.WellFormed ∧ rest.WellFormed

instance decidableWellFormed : (d : Directory) → Decidable d.WellFormed
  | empty => isTrue trivial
  | file n _ rest | link n _ rest =>
    have := decidableWellFormed rest
    inferInstanceAs (Decidable (n.IsName ∧ rest.get? n = none ∧ rest.WellFormed))
  | folder n inside rest =>
    have := decidableWellFormed inside
    have := decidableWellFormed rest
    inferInstanceAs
      (Decidable (n.IsName ∧ rest.get? n = none ∧ inside.WellFormed ∧ rest.WellFormed))

/-- The names lead to a directory. -/
def IsFolder (d : Directory) (place : List Segment) : Prop :=
  ∃ inside, d.entryAt place = some (.folder inside)

instance (d : Directory) (place : List Segment) : Decidable (d.IsFolder place) :=
  match h : d.entryAt place with
  | some (.folder inside) => isTrue ⟨inside, h⟩
  | some (.file _) | some (.link _) | none => isFalse fun ⟨_, hfolder⟩ => by simp [h] at hfolder

/-- The names lead to a directory or a regular file. -/
def IsProper (d : Directory) (place : List Segment) : Prop :=
  ∃ entry, d.entryAt place = some entry ∧ ∀ target, entry ≠ .link target

variable {d inside other : Directory} {n : Segment} {place names : List Segment} {entry : Entry}

theorem IsFolder.isProper (h : d.IsFolder place) : d.IsProper place := by
  obtain ⟨inside, h⟩ := h
  exact ⟨_, h, fun _ => Entry.noConfusion⟩

theorem isFolder_nil (d : Directory) : d.IsFolder [] := ⟨d, rfl⟩

section Places

theorem entryAt_nil (d : Directory) : d.entryAt [] = some (.folder d) := rfl

theorem entryAt_singleton : d.entryAt [n] = d.get? n := rfl

theorem entryAt_cons_eq_some : d.entryAt (n :: names) = some entry ↔
    (names = [] ∧ d.get? n = some entry) ∨
      ∃ inside, d.get? n = some (.folder inside) ∧ inside.entryAt names = some entry := by
  cases names with
  | nil =>
    rw [entryAt_singleton]
    refine ⟨fun h => .inl ⟨rfl, h⟩, ?_⟩
    rintro (⟨-, h⟩ | ⟨inside, h, hinside⟩)
    · exact h
    · exact h.trans hinside
  | cons m rest =>
    cases hget : d.get? n with
    | none => simp [entryAt, hget]
    | some found => cases found <;> simp [entryAt, hget]

theorem entryAt_congr (same : d.get? n = other.get? n) :
    d.entryAt (n :: names) = other.entryAt (n :: names) := by
  refine Option.ext fun entry => ?_
  rw [entryAt_cons_eq_some, entryAt_cons_eq_some, same]

theorem entryAt_append (h : d.entryAt place = some (.folder inside)) :
    d.entryAt (place ++ names) = inside.entryAt names := by
  induction place generalizing d with
  | nil =>
    obtain rfl : d = inside := by simpa [entryAt_nil] using h
    rfl
  | cons n rest ih =>
    have hbelow : ∀ mid, d.get? n = some (.folder mid) →
        d.entryAt (n :: rest ++ names) = mid.entryAt (rest ++ names) := by
      intro mid hmid
      rw [List.cons_append]
      generalize rest ++ names = more
      cases more with
      | nil => exact entryAt_singleton.trans hmid
      | cons => simp only [entryAt, hmid]
    rcases entryAt_cons_eq_some.mp h with ⟨rfl, hget⟩ | ⟨mid, hget, hmid⟩
    · exact hbelow inside hget
    · rw [hbelow mid hget, ih hmid]

/-- On the way to an entry there are only directories. -/
theorem exists_folder (h : d.entryAt (place ++ n :: names) = some entry) :
    ∃ inside, d.entryAt place = some (.folder inside) ∧
      inside.entryAt (n :: names) = some entry := by
  induction place generalizing d with
  | nil => exact ⟨d, rfl, h⟩
  | cons m rest ih =>
    rcases entryAt_cons_eq_some.mp h with ⟨hnil, -⟩ | ⟨mid, hget, hmid⟩
    · exact absurd hnil (List.append_ne_nil_of_right_ne_nil _ (List.cons_ne_nil _ _))
    · obtain ⟨inside, hinside, hentry⟩ := ih hmid
      exact ⟨inside, entryAt_cons_eq_some.mpr (.inr ⟨mid, hget, hinside⟩), hentry⟩

theorem IsFolder.dropLast (h : d.IsFolder place) : d.IsFolder place.dropLast := by
  rcases List.eq_nil_or_concat place with rfl | ⟨before, last, rfl⟩
  · exact h
  · obtain ⟨inside, h⟩ := h
    rw [List.concat_eq_append] at h ⊢
    obtain ⟨parent, hparent, -⟩ := exists_folder h
    exact ⟨parent, by rwa [List.dropLast_concat]⟩

end Places

namespace WellFormed

theorem of_get? (wf : d.WellFormed) (h : d.get? n = some entry) :
    n.IsName ∧ ∀ inside, entry = .folder inside → inside.WellFormed := by
  induction d with
  | empty => simp [get?] at h
  | file m content rest ih | link m target rest ih =>
    obtain ⟨hm, -, hrest⟩ := wf
    by_cases heq : m = n
    · rw [get?, if_pos heq] at h
      obtain rfl := Option.some.inj h
      exact ⟨heq ▸ hm, fun _ => Entry.noConfusion⟩
    · rw [get?, if_neg heq] at h
      exact ih hrest h
  | folder m below rest _ ih =>
    obtain ⟨hm, -, hbelow, hrest⟩ := wf
    by_cases heq : m = n
    · rw [get?, if_pos heq] at h
      obtain rfl := Option.some.inj h
      refine ⟨heq ▸ hm, fun inside hinside => ?_⟩
      obtain rfl := Entry.folder.inj hinside
      exact hbelow
    · rw [get?, if_neg heq] at h
      exact ih hrest h

theorem of_entryAt (wf : d.WellFormed) (h : d.entryAt names = some (.folder inside)) :
    inside.WellFormed := by
  induction names generalizing d with
  | nil =>
    obtain rfl : d = inside := by simpa [entryAt_nil] using h
    exact wf
  | cons n rest ih =>
    rcases entryAt_cons_eq_some.mp h with ⟨-, hget⟩ | ⟨mid, hget, hmid⟩
    · exact (wf.of_get? hget).2 inside rfl
    · exact ih ((wf.of_get? hget).2 mid rfl) hmid

theorem isName_of_entryAt (wf : d.WellFormed) (h : d.entryAt names = some entry) :
    ∀ n ∈ names, n.IsName := by
  induction names generalizing d with
  | nil => simp
  | cons n rest ih =>
    rcases entryAt_cons_eq_some.mp h with ⟨rfl, hget⟩ | ⟨inside, hget, hinside⟩
    · simpa using (wf.of_get? hget).1
    · obtain ⟨hn, hfolder⟩ := wf.of_get? hget
      exact List.forall_mem_cons.mpr ⟨hn, ih (hfolder inside rfl) hinside⟩

end WellFormed

theorem get?_of_entryAt (h : d.entryAt (n :: names) = some entry) : d.get? n ≠ none := by
  rcases entryAt_cons_eq_some.mp h with ⟨-, hget⟩ | ⟨inside, hget, -⟩ <;> simp [hget]

/-- A regular file is the first entry, or below it, or elsewhere in the directory. -/
theorem entryAt_eq_file (d : Directory) {m : Segment} {first : Entry} {rest : Directory} {content : List UInt8}
    (hget : ∀ n, d.get? n = if m = n then some first else rest.get? n)
    (fresh : rest.get? m = none) : d.entryAt names = some (.file content) ↔
      (names = [m] ∧ first = .file content) ∨
      (∃ inside more, first = .folder inside ∧ names = m :: more ∧
        inside.entryAt more = some (.file content)) ∨
      rest.entryAt names = some (.file content) := by
  cases names with
  | nil => simp [entryAt_nil]
  | cons n more =>
    by_cases hn : m = n
    · subst hn
      have hrest : rest.entryAt (m :: more) ≠ some (.file content) :=
        fun h => get?_of_entryAt h fresh
      rw [entryAt_cons_eq_some, hget, if_pos rfl]
      simp [hrest]
    · have hother : d.get? n = rest.get? n := by rw [hget, if_neg hn]
      rw [entryAt_congr hother]
      simp [Ne.symm hn]

/-- The regular files are listed by the names that lead to them. -/
theorem mem_files_iff (wf : d.WellFormed) :
    names ∈ d.files ↔ ∃ content, d.entryAt names = some (.file content) := by
  induction d generalizing names with
  | empty =>
    cases names with
    | nil => simp [files, entryAt_nil]
    | cons n names => simp [files, entryAt_cons_eq_some, get?]
  | file m content rest ih =>
    obtain ⟨-, fresh, hrest⟩ := wf
    simp only [files, List.mem_cons, ih hrest,
      entryAt_eq_file (.file m content rest) (fun _ => rfl) fresh]
    simp [exists_or]
  | link m target rest ih =>
    obtain ⟨-, fresh, hrest⟩ := wf
    simp only [files, ih hrest, entryAt_eq_file (.link m target rest) (fun _ => rfl) fresh]
    simp
  | folder m inside rest ihInside ih =>
    obtain ⟨-, fresh, hinside, hrest⟩ := wf
    simp only [files, List.mem_append, List.mem_map, ihInside hinside, ih hrest,
      entryAt_eq_file (.folder m inside rest) (fun _ => rfl) fresh]
    constructor
    · rintro (⟨more, ⟨content, h⟩, rfl⟩ | ⟨content, h⟩)
      · exact ⟨content, .inr (.inl ⟨inside, more, rfl, rfl, h⟩)⟩
      · exact ⟨content, .inr (.inr h)⟩
    · rintro ⟨content, ⟨-, hfile⟩ | ⟨_, more, hfolder, rfl, h⟩ | h⟩
      · exact Entry.noConfusion hfile
      · obtain rfl := Entry.folder.inj hfolder
        exact .inl ⟨more, ⟨content, h⟩, rfl⟩
      · exact .inr ⟨content, h⟩

end BlobCensus.Directory
