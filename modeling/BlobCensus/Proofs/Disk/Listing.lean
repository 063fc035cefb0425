import BlobCensus.Proofs.Disk.Below
import BlobCensus.Proofs.Disk.Canonical

/-!
# Listed files

A listing starts at whatever its root leads to. In a directory it goes on through directories alone, and
lists each regular file by the names on the way, so that links are neither listed nor followed, wherever
they lead. It opens a directory by its path, and passes over those whose path is too long for that.
-/
namespace BlobCensus

namespace Directory

variable {d : Directory} {n : Segment} {names : List Segment} {content : List UInt8}

theorem names_ne_nil (h : d.entryAt names = some (.file content)) : names ≠ [] := by
  intro hnil
  rw [hnil] at h
  cases h

theorem notMem_files_of_fresh (wf : d.WellFormed) (fresh : d.get? n = none) : n :: names ∉ d.files := by
  intro h
  obtain ⟨content, hcontent⟩ := (mem_files_iff wf).mp h
  exact get?_of_entryAt hcontent fresh

theorem nodup_files (wf : d.WellFormed) : d.files.Nodup := by
  induction d with
  | empty => exact List.nodup_nil
  | file n content rest ih =>
    obtain ⟨-, fresh, hrest⟩ := wf
    exact List.nodup_cons.mpr ⟨notMem_files_of_fresh hrest fresh, ih hrest⟩
  | link n target rest ih => exact ih wf.2.2
  | folder n inside rest ihInside ih =>
    obtain ⟨-, fresh, hinside, hrest⟩ := wf
    have hbelow : (inside.files.map (n :: ·)).Nodup :=
      (ihInside hinside).map fun _ _ h => (List.cons.inj h).2
    refine List.nodup_append'.mpr ⟨hbelow, ih hrest, fun names hnames hother => ?_⟩
    obtain ⟨more, -, rfl⟩ := List.mem_map.mp hnames
    exact notMem_files_of_fresh hrest fresh hother

end Directory

namespace Disk

open Directory

variable {disk : Disk} {tree inside : Directory} {fits : List Segment → Bool}
  {jump : List Segment → List Step → Except IoCause (List Segment)}
  {place target last names : List Segment} {steps more : List Step} {n : Segment} {entry : Entry}
  {root p : Path} {links : ℕ} {content : List UInt8}

section Longer

theorem walk_append
    (hjump : ∀ place steps, jump place steps = .ok target → jump place (steps ++ more) = .ok last)
    (hend : walk fits tree jump target more = .ok last)
    (h : walk fits tree jump place steps = .ok target) :
    walk fits tree jump place (steps ++ more) = .ok last := by
  induction steps generalizing place with
  | nil => exact Except.ok.inj h ▸ hend
  | cons step rest ih =>
    rw [List.cons_append]
    cases step with
    | stay =>
      obtain ⟨hfolder, hrest⟩ := walk_stay_eq_ok.mp h
      exact walk_stay_eq_ok.mpr ⟨hfolder, ih hrest⟩
    | up =>
      obtain ⟨hfolder, hrest⟩ := walk_up_eq_ok.mp h
      exact walk_up_eq_ok.mpr ⟨hfolder, ih hrest⟩
    | down n =>
      obtain ⟨entry, henter, hnext⟩ := walk_down_eq_ok.mp h
      refine walk_down_eq_ok.mpr ⟨entry, henter, ?_⟩
      rcases hnext with ⟨p, hlink, hrest⟩ | ⟨hproper, hrest⟩
      · refine .inl ⟨p, hlink, ?_⟩
        rw [← List.append_assoc]
        exact hjump _ _ hrest
      · exact .inr ⟨hproper, ih hrest⟩

/-- However many links were followed on the way, what goes on without links needs no more of them. -/
theorem followWithin_append (hend : ∀ jump, walk fits tree jump target more = .ok last)
    (h : followWithin fits tree links place steps = .ok target) :
    followWithin fits tree links place (steps ++ more) = .ok last := by
  induction links generalizing place steps with
  | zero => exact walk_append (fun _ _ h => by cases h) (hend _) h
  | succ links ih => exact walk_append (fun _ _ h => ih h) (hend _) h

theorem walk_of_append_stay
    (hjump : ∀ place steps, jump place (steps ++ [.stay]) = .ok target → jump place steps = .ok target)
    (h : walk fits tree jump place (steps ++ [.stay]) = .ok target) :
    walk fits tree jump place steps = .ok target := by
  induction steps generalizing place with
  | nil => exact (walk_stay_eq_ok.mp h).2
  | cons step rest ih =>
    rw [List.cons_append] at h
    cases step with
    | stay =>
      obtain ⟨hfolder, hrest⟩ := walk_stay_eq_ok.mp h
      exact walk_stay_eq_ok.mpr ⟨hfolder, ih hrest⟩
    | up =>
      obtain ⟨hfolder, hrest⟩ := walk_up_eq_ok.mp h
      exact walk_up_eq_ok.mpr ⟨hfolder, ih hrest⟩
    | down n =>
      obtain ⟨entry, henter, hnext⟩ := walk_down_eq_ok.mp h
      refine walk_down_eq_ok.mpr ⟨entry, henter, ?_⟩
      rcases hnext with ⟨p, hlink, hrest⟩ | ⟨hproper, hrest⟩
      · refine .inl ⟨p, hlink, hjump _ _ ?_⟩
        rwa [List.append_assoc]
      · exact .inr ⟨hproper, ih hrest⟩

/-- A slash at the end of a path leads nowhere else. -/
theorem followWithin_of_append_stay (h : followWithin fits tree links place (steps ++ [.stay]) = .ok target) :
    followWithin fits tree links place steps = .ok target := by
  induction links generalizing place steps with
  | zero => exact walk_of_append_stay (fun _ _ h => by cases h) h
  | succ links ih => exact walk_of_append_stay (fun _ _ h => ih h) h

theorem follow_append (wf : tree.WellFormed) (h : follow tree place steps = .ok target)
    (proper : tree.IsProper (target ++ names)) :
    follow tree place (steps ++ names.map .down) = .ok (target ++ names) :=
  followWithin_append (fun _ => walk_names wf (fun _ _ _ => rfl) rfl proper) h

end Longer

section Find

theorem find_of_follow (htext : mustBeText p = .ok ())
    (hfollow : follow disk.tree (disk.startOf p) p.steps = .ok place)
    (hentry : disk.tree.entryAt place = some entry) :
    disk.find p = if p.isShort then .ok entry else .error .nameTooLong := by
  rw [find, htext]
  simp only [hfollow, bind, Except.bind, hentry]

theorem follow_of_find (h : disk.find p = .ok entry) : mustBeText p = .ok () ∧ p.isShort = true ∧
    ∃ place, follow disk.tree (disk.startOf p) p.steps = .ok place ∧
      disk.tree.entryAt place = some entry := by
  unfold find at h
  cases htext : mustBeText p with
  | error => rw [htext] at h; cases h
  | ok =>
    by_cases hshort : p.isShort = true
    · cases hfollow : follow disk.tree (disk.startOf p) p.steps with
      | error => simp [htext, hshort, hfollow, bind, Except.bind] at h
      | ok place =>
        simp only [htext, hshort, hfollow, bind, Except.bind, if_true] at h
        refine ⟨rfl, hshort, place, rfl, ?_⟩
        cases hentry : disk.tree.entryAt place with
        | none => rw [hentry] at h; cases h
        | some found => rw [hentry] at h; exact congrArg some (Except.ok.inj h)
    · simp [htext, hshort, bind, Except.bind] at h

theorem isLink_of_steps (hsteps : p.steps = steps ++ [.down n])
    (hfollow : follow disk.tree (disk.startOf p) steps = .ok place) :
    disk.isLink p = true ↔ ∃ target, disk.tree.entryAt (place ++ [n]) = some (.link target) := by
  rw [isLink, hsteps, List.getLast?_concat, List.dropLast_concat]
  simp only [hfollow]
  split <;> simp_all

end Find

theorem exists_follow_below (found : disk.find root = .ok (.folder inside))
    (hnames : ∀ n ∈ names, n.IsName) : ∃ place lead,
    disk.tree.entryAt place = some (.folder inside) ∧
    (root.below names).steps = lead ++ names.map .down ∧
    follow disk.tree (disk.startOf (root.below names)) lead = .ok place := by
  obtain ⟨htext, -, place, hfollow, hplace⟩ := follow_of_find found
  obtain ⟨lead, hsteps, hlead⟩ := Path.exists_steps_below htext hnames
  refine ⟨place, lead, hplace, hsteps, ?_⟩
  rw [startOf, Path.startFrom, Path.isAbsolute_below htext hnames]
  rcases hlead with hlead | hlead
  · exact hlead ▸ hfollow
  · rw [hlead] at hfollow
    exact followWithin_of_append_stay hfollow

theorem listFiles_of_folder (found : disk.find root = .ok (.folder inside)) : disk.listFiles root =
    (inside.files.filter fun names => (root.below names.dropLast).isShort).map root.below := by
  rw [listFiles, entry?, found]
  rfl

theorem listFiles_of_file (found : disk.find root = .ok (.file content)) :
    disk.listFiles root = if disk.isLink root then [] else [root] := by
  rw [listFiles, entry?, found]
  rfl

theorem listFiles_of_error {cause : IoCause} (missing : disk.find root = .error cause) :
    disk.listFiles root = [] := by
  rw [listFiles, entry?, missing]
  rfl

namespace WellFormed

variable (wf : disk.WellFormed)
include wf

theorem find_ne_link : disk.find p ≠ .ok (.link root) := by
  intro h
  obtain ⟨-, -, place, hfollow, hplace⟩ := follow_of_find h
  obtain ⟨entry, hentry, hproper⟩ := followWithin_isProper (isFolder_startFrom wf.workingDirectory p) hfollow
  exact hproper root (Option.some.inj (hentry.symm.trans hplace))

section Root

variable (found : disk.find root = .ok (.folder inside))
include found

theorem wellFormed_of_found : inside.WellFormed := by
  obtain ⟨-, -, place, -, hplace⟩ := follow_of_find found
  exact wf.tree.of_entryAt hplace

theorem find_below (h : inside.entryAt names = some entry) (proper : ∀ target, entry ≠ .link target) :
    disk.find (root.below names) =
      if (root.below names).isShort then .ok entry else .error .nameTooLong := by
  have hnames := (wf.wellFormed_of_found found).isName_of_entryAt h
  obtain ⟨place, lead, hplace, hsteps, hfollow⟩ := exists_follow_below found hnames
  have hentry : disk.tree.entryAt (place ++ names) = some entry := (entryAt_append hplace).trans h
  have htext := Path.mustBeText_below (follow_of_find found).1 hnames
  refine find_of_follow htext ?_ hentry
  rw [hsteps]
  exact follow_append wf.tree hfollow ⟨entry, hentry, proper⟩

theorem isLink_below (hne : names ≠ []) (h : inside.entryAt names = some entry) :
    disk.isLink (root.below names) = true ↔ ∃ target, entry = .link target := by
  have hnames := (wf.wellFormed_of_found found).isName_of_entryAt h
  obtain ⟨place, lead, hplace, hsteps, hfollow⟩ := exists_follow_below found hnames
  obtain ⟨before, n, rfl⟩ := (List.eq_nil_or_concat names).resolve_left hne
  rw [List.concat_eq_append] at h hsteps hfollow ⊢
  have hentry : disk.tree.entryAt (place ++ (before ++ [n])) = some entry :=
    (entryAt_append hplace).trans h
  rw [← List.append_assoc] at hentry
  obtain ⟨parent, hparent, -⟩ := exists_folder hentry
  have hproper : disk.tree.IsProper (place ++ before) := IsFolder.isProper ⟨parent, hparent⟩
  have hbefore := follow_append wf.tree hfollow hproper
  rw [List.map_append, ← List.append_assoc] at hsteps
  rw [isLink_of_steps hsteps hbefore, hentry]
  simp only [Option.some.injEq]

theorem mem_listFiles_iff : p ∈ disk.listFiles root ↔ ∃ names content,
    inside.entryAt names = some (.file content) ∧ p = root.below names ∧
      (root.below names.dropLast).isShort = true := by
  have hmem : ∀ names, names ∈ inside.files ↔ ∃ content, inside.entryAt names = some (.file content) :=
    fun _ => mem_files_iff (wf.wellFormed_of_found found)
  rw [listFiles_of_folder found, List.mem_map]
  constructor
  · intro ⟨names, hnames, hpath⟩
    obtain ⟨hfile, hshort⟩ := List.mem_filter.mp hnames
    obtain ⟨content, hcontent⟩ := (hmem names).mp hfile
    exact ⟨names, content, hcontent, hpath.symm, hshort⟩
  · intro ⟨names, content, hcontent, hpath, hshort⟩
    exact ⟨names, List.mem_filter.mpr ⟨(hmem names).mpr ⟨content, hcontent⟩, hshort⟩, hpath.symm⟩

/-- A file is listed if every directory on the way to it can be opened by its path. -/
theorem listed_iff_opened (h : inside.entryAt names = some (.file content)) :
    root.below names ∈ disk.listFiles root ↔ ∀ before n after, names = before ++ n :: after →
      ∃ d, disk.find (root.below before) = .ok (.folder d) := by
  have hinside := wf.wellFormed_of_found found
  have hnames := hinside.isName_of_entryAt h
  rw [wf.mem_listFiles_iff found]
  constructor
  · intro ⟨others, _, hfile, hpath, hshort⟩ before n after hsplit
    have hothers := hinside.isName_of_entryAt hfile
    obtain rfl : names = others :=
      (Path.same_below (follow_of_find found).1 hnames hothers).mp (congrArg Path.components hpath)
    subst hsplit
    obtain ⟨d, hd, -⟩ := exists_folder h
    have hafter : ∀ m ∈ (n :: after).dropLast, m.IsName := fun m hm =>
      hnames m (List.mem_append_right before (List.mem_of_mem_dropLast hm))
    rw [List.dropLast_append_of_ne_nil (List.cons_ne_nil n after), Path.below_append] at hshort
    refine ⟨d, ?_⟩
    rw [wf.find_below found hd fun _ => Entry.noConfusion, if_pos (Path.isShort_of_below hafter hshort)]
  · intro opened
    obtain ⟨before, n, rfl⟩ := (List.eq_nil_or_concat names).resolve_left (names_ne_nil h)
    obtain ⟨d, hd⟩ := opened before n [] List.concat_eq_append
    refine ⟨_, content, h, rfl, ?_⟩
    rw [List.concat_eq_append, List.dropLast_concat]
    exact (follow_of_find hd).2.1

theorem pairwise_below : (disk.listFiles root).Pairwise fun p q => ¬ p.Same q := by
  have hinside := wf.wellFormed_of_found found
  have hnames : ∀ names ∈ inside.files, ∀ n ∈ names, n.IsName := by
    intro names hfile
    obtain ⟨content, hcontent⟩ := (mem_files_iff hinside).mp hfile
    exact hinside.isName_of_entryAt hcontent
  rw [listFiles_of_folder found, List.pairwise_map]
  refine ((nodup_files hinside).filter _).imp_of_mem fun {names more} hfirst hother hne hsame => ?_
  have hfirst := hnames names (List.mem_of_mem_filter hfirst)
  have hother := hnames more (List.mem_of_mem_filter hother)
  exact hne ((Path.same_below (follow_of_find found).1 hfirst hother).mp hsame)

theorem regular_below (h : inside.entryAt names = some (.file content)) :
    disk.isLink (root.below names) = false ∧ disk.find (root.below names) =
      if (root.below names).isShort then .ok (.file content) else .error .nameTooLong := by
  refine ⟨Bool.eq_false_iff.mpr fun hlink => ?_, wf.find_below found h fun _ => Entry.noConfusion⟩
  obtain ⟨target, htarget⟩ := (wf.isLink_below found (names_ne_nil h) h).mp hlink
  cases htarget

end Root

/-- Under a canonical root files are listed by the paths of the names that lead to them. -/
theorem mem_listFiles (hplace : disk.tree.IsFolder place) (short : (Path.ofNames place).isShort) :
    p ∈ disk.listFiles (.ofNames place) ↔
      ∃ names content, p = .ofNames (place ++ names) ∧ names ≠ [] ∧
        disk.tree.entryAt (place ++ names) = some (.file content) ∧
        (Path.ofNames (place ++ names.dropLast)).isShort := by
  obtain ⟨inside, hinside⟩ := hplace
  have found : disk.find (.ofNames place) = .ok (.folder inside) := by
    rw [wf.find_ofNames hinside fun _ => Entry.noConfusion, if_pos short]
  have hplaces := wf.tree.isName_of_entryAt hinside
  have hsegments := fun names content (h : inside.entryAt names = some (.file content)) =>
    (wf.wellFormed_of_found found).isName_of_entryAt h
  rw [wf.mem_listFiles_iff found]
  constructor
  · intro ⟨names, content, hcontent, hpath, hshort⟩
    have hnames := hsegments names content hcontent
    rw [Path.below_ofNames hplaces hnames] at hpath
    rw [Path.below_ofNames hplaces fun n hn => hnames n (List.mem_of_mem_dropLast hn)] at hshort
    exact ⟨names, content, hpath, names_ne_nil hcontent, (entryAt_append hinside).trans hcontent, hshort⟩
  · intro ⟨names, content, hpath, _, hcontent, hshort⟩
    rw [entryAt_append hinside] at hcontent
    have hnames := hsegments names content hcontent
    rw [← Path.below_ofNames hplaces hnames] at hpath
    rw [← Path.below_ofNames hplaces fun n hn => hnames n (List.mem_of_mem_dropLast hn)] at hshort
    exact ⟨names, content, hcontent, hpath, hshort⟩

theorem listFiles_cases (root : Path) : disk.listFiles root = [] ∨
    (∃ content, disk.find root = .ok (.file content) ∧ disk.isLink root = false ∧
      disk.listFiles root = [root]) ∨
    ∃ inside, disk.find root = .ok (.folder inside) := by
  cases found : disk.find root with
  | error cause => exact .inl (listFiles_of_error found)
  | ok entry =>
    cases entry with
    | file content =>
      have hlist := listFiles_of_file found
      cases hlink : disk.isLink root with
      | true => exact .inl (by rw [hlist, hlink]; rfl)
      | false => exact .inr (.inl ⟨content, rfl, rfl, by rw [hlist, hlink]; rfl⟩)
    | link target => exact absurd found wf.find_ne_link
    | folder inside => exact .inr (.inr ⟨inside, rfl⟩)

theorem regular_of_mem (h : p ∈ disk.listFiles root) : disk.isLink p = false ∧ ∃ content,
    disk.find p = if p.isShort then .ok (.file content) else .error .nameTooLong := by
  rcases wf.listFiles_cases root with hlist | ⟨content, found, hlink, hlist⟩ | ⟨inside, found⟩
  · simp [hlist] at h
  · obtain rfl : p = root := by simpa [hlist] using h
    have hshort := (follow_of_find found).2.1
    exact ⟨hlink, content, by rw [found, if_pos hshort]⟩
  · obtain ⟨names, content, hcontent, rfl, -⟩ := (wf.mem_listFiles_iff found).mp h
    obtain ⟨hlink, hfind⟩ := wf.regular_below found hcontent
    exact ⟨hlink, content, hfind⟩

theorem pairwise_listFiles (root : Path) : (disk.listFiles root).Pairwise fun p q => ¬ p.Same q := by
  rcases wf.listFiles_cases root with hlist | ⟨content, -, -, hlist⟩ | ⟨inside, found⟩
  · rw [hlist]
    exact List.Pairwise.nil
  · rw [hlist]
    exact List.pairwise_singleton _ _
  · exact wf.pairwise_below found

/-- Every regular file below a root is listed once, if each directory on the way can be opened by its
path, and nothing else is listed. Where a root leads to no directory, at most the root is listed. -/
theorem listFiles_once (root : Path) :
    ((disk.listFiles root).Pairwise fun p q => ¬ p.Same q) ∧
    (∀ p ∈ disk.listFiles root, disk.isLink p = false ∧ ∃ content,
      disk.find p = if p.isShort then .ok (.file content) else .error .nameTooLong) ∧
    (∀ inside, disk.find root = .ok (.folder inside) →
      (∀ p, p ∈ disk.listFiles root ↔ ∃ names content,
        inside.entryAt names = some (.file content) ∧ p = root.below names ∧
          (root.below names.dropLast).isShort = true) ∧
      ∀ names content, inside.entryAt names = some (.file content) →
        (root.below names ∈ disk.listFiles root ↔ ∀ before n after, names = before ++ n :: after →
          ∃ d, disk.find (root.below before) = .ok (.folder d))) ∧
    (∀ content, disk.find root = .ok (.file content) →
      disk.listFiles root = if disk.isLink root then [] else [root]) ∧
    (∀ target, disk.find root ≠ .ok (.link target)) ∧
    ∀ cause, disk.find root = .error cause → disk.listFiles root = [] :=
  ⟨wf.pairwise_listFiles root, fun _ => wf.regular_of_mem,
    fun _ found => ⟨fun _ => wf.mem_listFiles_iff found, fun _ _ => wf.listed_iff_opened found⟩,
    fun _ => listFiles_of_file, fun _ => wf.find_ne_link, fun _ => listFiles_of_error⟩

end WellFormed

section LinkCycle

def linkCycle : Directory :=
  .file (Utf8.encode "a.so") [] <|
  .link (Utf8.encode "again") (.ofString "../way") <|
  .folder (Utf8.encode "lib")
    (.file (Utf8.encode "b.so") [] <| .link (Utf8.encode "c.so") (.ofString "../a.so") .empty) <|
  .link (Utf8.encode "loop") (.ofString "loop") <|
  .link (Utf8.encode "nowhere") (.ofString "/none") <|
  .link (Utf8.encode "up") (.ofString "..") .empty

def linkCycleDisk : Disk :=
  { tree :=
      .folder (Utf8.encode "docs") linkCycle <|
      .link (Utf8.encode "one.so") (.ofString "docs/a.so") <|
      .link (Utf8.encode "way") (.ofString "docs") .empty }

/-- A directory that a link leads to is listed, and going around in no circle. -/
theorem listFiles_once_link_cycle :
    linkCycleDisk.WellFormed ∧
    linkCycleDisk.find (.ofString "/way") = .ok (.folder linkCycle) ∧
    linkCycleDisk.isLink (.ofString "/way") = true ∧
    linkCycleDisk.listFiles (.ofString "/way") = [.ofString "/way/a.so", .ofString "/way/lib/b.so"] ∧
    (∀ p, p ∈ linkCycleDisk.listFiles (.ofString "/way") ↔
      ∃ names content, linkCycle.entryAt names = some (.file content) ∧
        p = (Path.ofString "/way").below names ∧
        ((Path.ofString "/way").below names.dropLast).isShort = true) ∧
    linkCycleDisk.listFiles (.ofString "docs/./lib//") = [.ofString "docs/./lib//b.so"] ∧
    linkCycleDisk.isLink (.ofString "one.so") = true ∧
    linkCycleDisk.listFiles (.ofString "one.so") = [] ∧
    linkCycleDisk.listFiles (.ofString "docs/a.so") = [.ofString "docs/a.so"] ∧
    linkCycleDisk.find (.ofString "docs/nowhere") = .error .notFound ∧
    linkCycleDisk.listFiles (.ofString "docs/nowhere") = [] := by
  have wf : linkCycleDisk.WellFormed := by decide +kernel
  have found : linkCycleDisk.find (.ofString "/way") = .ok (.folder linkCycle) := by decide +kernel
  have file : linkCycleDisk.find (.ofString "one.so") = .ok (.file []) := by decide +kernel
  have link : linkCycleDisk.isLink (.ofString "one.so") = true := by decide +kernel
  have missing : linkCycleDisk.find (.ofString "docs/nowhere") = .error .notFound := by decide +kernel
  obtain ⟨-, -, hway, -⟩ := wf.listFiles_once (.ofString "/way")
  obtain ⟨-, -, -, hone, -⟩ := wf.listFiles_once (.ofString "one.so")
  obtain ⟨-, -, -, -, -, hnowhere⟩ := wf.listFiles_once (.ofString "docs/nowhere")
  refine ⟨wf, found, by decide +kernel, by decide +kernel, (hway linkCycle found).1, by decide +kernel, link, ?_,
    by decide +kernel, missing, hnowhere _ missing⟩
  rw [hone [] file, if_pos link]

end LinkCycle

section DeepFolders

def deepFolders : List Segment := .replicate 17 (.replicate 250 0x61)

def deepFoldersDisk : Disk :=
  { tree := deepFolders.foldr (fun n inside => .folder n inside .empty)
      (.file (Utf8.encode "a.so") [] .empty) }

/-- Not every regular file is listed. -/
theorem unlisted_below :
    ¬ ∀ (disk : Disk) (root : Path) (inside : Directory), disk.WellFormed →
      disk.find root = .ok (.folder inside) → ∀ names content,
        inside.entryAt names = some (.file content) → root.below names ∈ disk.listFiles root := by
  intro always
  have wf : deepFoldersDisk.WellFormed := by decide +kernel
  have found : deepFoldersDisk.find (.ofNames []) = .ok (.folder deepFoldersDisk.tree) := by decide +kernel
  have hfile : deepFoldersDisk.tree.entryAt (deepFolders ++ [Utf8.encode "a.so"]) = some (.file []) := by
    decide +kernel
  have hnone : deepFoldersDisk.listFiles (.ofNames []) = [] := by decide +kernel
  have hlisted := always deepFoldersDisk _ _ wf found _ _ hfile
  rw [hnone] at hlisted
  exact List.not_mem_nil hlisted

end DeepFolders

end Disk

end BlobCensus
