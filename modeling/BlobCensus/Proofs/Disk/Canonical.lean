import BlobCensus.Proofs.Disk.Tree

/-!
# Canonical paths

Wherever a path leads, it leads to a directory or a regular file, and its canonical path is the path of
the names that lead there through directories alone. Such a path stands for itself, if it is short
enough to be handed over at all.
-/
namespace BlobCensus.Disk

open Directory

/-- The tree is well-formed, and the working directory is a directory of it. -/
structure WellFormed (disk : Disk) : Prop where
  tree : disk.tree.WellFormed
  workingDirectory : disk.tree.IsFolder disk.workingDirectory

instance (disk : Disk) : Decidable disk.WellFormed :=
  decidable_of_iff (disk.tree.WellFormed ∧ disk.tree.IsFolder disk.workingDirectory)
    ⟨fun ⟨tree, workingDirectory⟩ => ⟨tree, workingDirectory⟩,
      fun h => ⟨h.tree, h.workingDirectory⟩⟩

variable {disk : Disk} {tree inside : Directory} {fits : List Segment → Bool}
  {jump : List Segment → List Step → Except IoCause (List Segment)}
  {place target names more : List Segment} {steps : List Step} {n : Segment} {entry : Entry}
  {p q : Path} {links : ℕ}

theorem mustBeFolder_eq_ok : mustBeFolder tree place = .ok () ↔ tree.IsFolder place := by
  unfold mustBeFolder IsFolder
  split <;> simp_all

theorem enter_eq_ok (h : enter fits tree place n = .ok entry) :
    tree.IsFolder place ∧ tree.entryAt (place ++ [n]) = some entry := by
  unfold enter at h
  split at h
  · split at h
    · rename_i inside hplace
      refine ⟨⟨inside, hplace⟩, ?_⟩
      rw [entryAt_append hplace, entryAt_singleton]
      unfold lookUp at h
      split at h
      · cases h
      · split at h
        · rename_i hget
          rw [hget, Except.ok.inj h]
        · cases h
    · cases h
    · cases h
  · cases h

section Walk

theorem walk_stay_eq_ok : walk fits tree jump place (.stay :: steps) = .ok target ↔
    tree.IsFolder place ∧ walk fits tree jump place steps = .ok target := by
  rw [walk, ← mustBeFolder_eq_ok]
  cases mustBeFolder tree place <;> simp [bind, Except.bind]

theorem walk_up_eq_ok : walk fits tree jump place (.up :: steps) = .ok target ↔
    tree.IsFolder place ∧ walk fits tree jump place.dropLast steps = .ok target := by
  rw [walk, ← mustBeFolder_eq_ok]
  cases mustBeFolder tree place <;> simp [bind, Except.bind]

theorem walk_down_eq_ok : walk fits tree jump place (.down n :: steps) = .ok target ↔
    ∃ entry, enter fits tree place n = .ok entry ∧
      ((∃ p, entry = .link p ∧ jump (p.startFrom place) (p.steps ++ steps) = .ok target) ∨
        ((∀ p, entry ≠ .link p) ∧ walk fits tree jump (place ++ [n]) steps = .ok target)) := by
  rw [walk]
  cases enter fits tree place n with
  | error cause => simp [bind, Except.bind]
  | ok entry => cases entry <;> simp [bind, Except.bind]

end Walk

theorem isFolder_startFrom (h : tree.IsFolder place) (p : Path) :
    tree.IsFolder (p.startFrom place) := by
  unfold Path.startFrom
  split
  · exact isFolder_nil tree
  · exact h

section Follow

/-- What following some more steps leads to is proper. -/
theorem walk_isProper
    (hjump : ∀ place steps target, tree.IsFolder place → jump place steps = .ok target →
      tree.IsProper target)
    (hplace : tree.IsProper place) (h : walk fits tree jump place steps = .ok target) :
    tree.IsProper target := by
  induction steps generalizing place with
  | nil => exact Except.ok.inj h ▸ hplace
  | cons step rest ih =>
    cases step with
    | stay => exact ih hplace (walk_stay_eq_ok.mp h).2
    | up =>
      obtain ⟨hfolder, hrest⟩ := walk_up_eq_ok.mp h
      exact ih hfolder.dropLast.isProper hrest
    | down n =>
      obtain ⟨entry, henter, hnext⟩ := walk_down_eq_ok.mp h
      obtain ⟨hfolder, hentry⟩ := enter_eq_ok henter
      rcases hnext with ⟨p, -, hlink⟩ | ⟨hproper, hrest⟩
      · exact hjump _ _ _ (isFolder_startFrom hfolder p) hlink
      · exact ih ⟨entry, hentry, hproper⟩ hrest

theorem followWithin_isProper (hplace : tree.IsFolder place)
    (h : followWithin fits tree links place steps = .ok target) : tree.IsProper target := by
  induction links generalizing place steps target with
  | zero => exact walk_isProper (fun _ _ _ _ h => by cases h) hplace.isProper h
  | succ links ih =>
    exact walk_isProper (fun _ _ _ hfolder h => ih hfolder h) hplace.isProper h

/-- A canonical path is the path of names that lead through directories to something proper. -/
theorem WellFormed.canonical_isProper (wf : disk.WellFormed) (h : disk.canonical p = .ok q) :
    ∃ names, q = .ofNames names ∧ disk.tree.IsProper names := by
  unfold canonical at h
  cases htext : mustBeText p with
  | error => rw [htext] at h; cases h
  | ok =>
    rw [htext] at h
    cases hfollow : followWithin (fun place => (Path.ofNames place).isShort) disk.tree maxLinks
        (disk.startOf p) p.steps with
    | error => simp only [hfollow] at h; cases h
    | ok names =>
      simp only [hfollow] at h
      exact ⟨names, (Except.ok.inj h).symm,
        followWithin_isProper (isFolder_startFrom wf.workingDirectory p) hfollow⟩

end Follow

section Names

theorem walk_names (wf : tree.WellFormed) (shorter : ∀ names more, fits (names ++ more) → fits names)
    (hplace : fits place) (h : tree.IsProper (place ++ names)) :
    walk fits tree jump place (names.map .down) =
      if fits (place ++ names) then .ok (place ++ names) else .error .nameTooLong := by
  induction names generalizing place with
  | nil => simp [walk, hplace]
  | cons n rest ih =>
    obtain ⟨entry, hentry, hproper⟩ := h
    obtain ⟨inside, hinside, hbelow⟩ := exists_folder hentry
    obtain ⟨first, hfirst⟩ := Option.ne_none_iff_exists'.mp (get?_of_entryAt hbelow)
    rw [List.map_cons, walk]
    have hsplit : place ++ n :: rest = (place ++ [n]) ++ rest := by simp
    by_cases hfits : fits (place ++ [n]) = true
    · have henter : enter fits tree place n = .ok first := by
        have hname : ¬ maxNameLength < n.length := by
          have hn := wf.isName_of_entryAt hentry n (by simp)
          exact Nat.not_lt.mpr hn.fits
        rw [enter, if_pos hfits, hinside]
        simp only [lookUp, if_neg hname, hfirst]
      have hrest := ih hfits (hsplit ▸ ⟨entry, hentry, hproper⟩)
      rw [henter, hsplit]
      cases first with
      | link p =>
        rcases entryAt_cons_eq_some.mp hbelow with ⟨-, hget⟩ | ⟨_, hget, -⟩
        · rw [hget, Option.some.injEq] at hfirst
          exact absurd hfirst (hproper p)
        · rw [hget] at hfirst
          cases hfirst
      | file content => exact hrest
      | folder inside => exact hrest
    · have hlonger : ¬ fits (place ++ n :: rest) = true := fun hlong =>
        hfits (shorter _ rest (hsplit ▸ hlong))
      rw [if_neg hlonger, enter, if_neg hfits]
      rfl

theorem followWithin_names (fits : List Segment → Bool) (links : ℕ) (wf : tree.WellFormed)
    (shorter : ∀ names more, fits (names ++ more) → fits names) (hroot : fits [])
    (h : tree.IsProper names) : followWithin fits tree links [] (Path.ofNames names).steps =
      if fits names then .ok names else .error .nameTooLong := by
  obtain ⟨jump, hwalk⟩ : ∃ jump, followWithin fits tree links = walk fits tree jump := by
    cases links <;> exact ⟨_, rfl⟩
  have hfolder : mustBeFolder tree [] = .ok () := mustBeFolder_eq_ok.mpr (isFolder_nil tree)
  rw [hwalk]
  by_cases hne : names = []
  · subst hne
    have hsteps : (Path.ofNames []).steps = [.stay, .stay] := by decide
    rw [hsteps, walk, hfolder, if_pos hroot]
    change walk fits tree jump [] [.stay] = _
    rw [walk, hfolder]
    rfl
  · obtain ⟨entry, hentry, hproper⟩ := h
    rw [Path.steps_ofNames (wf.isName_of_entryAt hentry) hne, walk, hfolder]
    exact walk_names wf shorter hroot ⟨entry, hentry, hproper⟩

theorem isShort_shorter (names more : List Segment)
    (h : (Path.ofNames (names ++ more)).isShort = true) : (Path.ofNames names).isShort = true :=
  Path.isShort_of_append h

namespace WellFormed

variable (wf : disk.WellFormed)
include wf

theorem isName (h : disk.tree.IsProper names) : ∀ n ∈ names, n.IsName := by
  obtain ⟨entry, hentry, -⟩ := h
  exact wf.tree.isName_of_entryAt hentry

/-- The path of what is proper is its own canonical path, if it is short. -/
theorem canonical_ofNames (h : disk.tree.IsProper names) :
    disk.canonical (.ofNames names) =
      if (Path.ofNames names).isShort then .ok (.ofNames names) else .error .nameTooLong := by
  have hfollow := followWithin_names (fun place => (Path.ofNames place).isShort) maxLinks wf.tree
    isShort_shorter rfl h
  rw [canonical, Path.mustBeText_ofNames (wf.isName h)]
  simp only [startOf, Path.startFrom, Path.isAbsolute_ofNames, if_true]
  change (do return Path.ofNames (← followWithin _ disk.tree maxLinks [] (Path.ofNames names).steps)) = _
  rw [hfollow]
  split <;> rfl

theorem find_ofNames (h : disk.tree.entryAt names = some entry)
    (proper : ∀ target, entry ≠ .link target) : disk.find (.ofNames names) =
      if (Path.ofNames names).isShort then .ok entry else .error .nameTooLong := by
  have hfollow := followWithin_names (fun _ => true) maxLinks wf.tree
    (fun _ _ _ => rfl) rfl ⟨entry, h, proper⟩
  rw [find, Path.mustBeText_ofNames (wf.isName ⟨entry, h, proper⟩)]
  simp only [startOf, Path.startFrom, Path.isAbsolute_ofNames, if_true, follow, hfollow, bind,
    Except.bind, h]

theorem isFile_ofNames {content : List UInt8} (h : disk.tree.entryAt names = some (.file content)) :
    disk.isFile (.ofNames names) = (Path.ofNames names).isShort := by
  rw [isFile, entry?, wf.find_ofNames h fun _ => Entry.noConfusion]
  cases (Path.ofNames names).isShort <;> rfl

/-- A canonical path that is found is short, and what is found is what its names lead to. -/
theorem entryAt_of_found (h : disk.tree.IsProper names)
    (found : disk.entry? (.ofNames names) = some entry) :
    disk.tree.entryAt names = some entry ∧ (Path.ofNames names).isShort = true := by
  obtain ⟨there, hthere, hproper⟩ := h
  unfold entry? at found
  rw [wf.find_ofNames hthere hproper] at found
  split at found
  · rename_i hshort
    exact ⟨hthere.trans found, hshort⟩
  · cases found

end WellFormed

end Names

end BlobCensus.Disk
