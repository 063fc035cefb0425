import BlobCensus.Proofs.Session.Expansion

/-!
# Edges

The edges of a path as the tools tell them, with no session in sight. Whether the tools break down or
not, an edge leads from a file of known architecture to a listed file of the same architecture that is
named like a library in its texts.
-/
namespace BlobCensus.Workbench

theorem exists_of_bind_ok {α β : Type} {answer : Except Breakdown α}
    {next : α → Except Breakdown β} {b : β} (h : answer >>= next = .ok b) :
    ∃ a, answer = .ok a ∧ next a = .ok b := by
  cases answer with
  | error breakdown => cases h
  | ok a => exact ⟨a, rfl, h⟩

section MapM

variable {α β : Type} {f : α → Except Breakdown β} {xs : List α}

theorem exists_of_mapM_ok {ys : List β} (h : xs.mapM f = .ok ys) : ∀ x ∈ xs, ∃ y, f x = .ok y := by
  induction xs generalizing ys with
  | nil => simp
  | cons x rest ih =>
    rw [List.mapM_cons] at h
    obtain ⟨y, hy, h⟩ := exists_of_bind_ok h
    obtain ⟨zs, hzs, -⟩ := exists_of_bind_ok h
    simpa using ⟨⟨y, hy⟩, ih hzs⟩

theorem mapM_eq_ok {g : α → β} (h : ∀ x ∈ xs, f x = .ok (g x)) : xs.mapM f = .ok (xs.map g) := by
  induction xs with
  | nil => rfl
  | cons x rest ih =>
    rw [List.mapM_cons, h x List.mem_cons_self, ih fun y hy => h y (List.mem_cons_of_mem x hy)]
    rfl

end MapM

variable {w : Workbench} {root p q : Path} {files : List Path} {a : Architecture}

theorem mem_distinct {play paths : List Path} (spelling : Path.OneSpelling play)
    (hpaths : paths ⊆ play) {seen : List (List Component)} (hq : q ∈ paths)
    (fresh : q.components ∉ seen) : q ∈ distinct seen paths := by
  induction paths generalizing seen with
  | nil => cases hq
  | cons first rest ih =>
    have hfirst : first ∈ play := hpaths List.mem_cons_self
    have hrest : rest ⊆ play := fun r hr => hpaths (List.mem_cons_of_mem first hr)
    unfold distinct
    rcases List.mem_cons.mp hq with rfl | hq
    · simp [fresh]
    · split
      · exact ih hrest hq fresh
      · -- A later path that is left out is a spelling of the first, hence the first itself.
        by_cases hsame : q.components = first.components
        · rw [spelling q (hrest hq) first hfirst hsame]
          exact List.mem_cons_self
        · exact List.mem_cons_of_mem first (ih hrest hq (by simp [hsame, fresh]))

theorem mapM_verdict (told : ∀ p ∈ files, ∃ a, w.verdict p = .ok a) (wanted : Architecture) :
    ∃ classified, files.mapM (fun p => return (p, ← w.verdict p)) = .ok classified ∧
      (classified.filter (·.2 == wanted)).map Prod.fst =
        files.filter fun p => w.verdict p = .ok wanted := by
  induction files with
  | nil => exact ⟨[], rfl, rfl⟩
  | cons p rest ih =>
    obtain ⟨a, ha⟩ := told p List.mem_cons_self
    obtain ⟨classified, hrest, hfilter⟩ := ih fun q hq => told q (List.mem_cons_of_mem p hq)
    refine ⟨(p, a) :: classified, ?_, ?_⟩
    · rw [List.mapM_cons, hrest, ha]
      rfl
    · by_cases hwanted : a = wanted <;> simp [ha, hwanted, hfilter]

/-- The listed files for a library that have the wanted architecture. -/
def filesOfArchitecture (w : Workbench) (root : Path) (wanted : Architecture) (library : String) :
    List Path :=
  (w.filesNamed root library).filter fun q => w.verdict q = .ok wanted

theorem filesFor_eq {wanted : Architecture} {library : String}
    (told : ∀ p ∈ w.filesNamed root library, ∃ a, w.verdict p = .ok a)
    (known : wanted.isKnown = true) :
    w.filesFor root library wanted = .ok (w.filesOfArchitecture root wanted library) := by
  obtain ⟨classified, hclassified, hfilter⟩ := mapM_verdict told wanted
  rw [filesFor, filesOfArchitecture, ← hfilter, hclassified]
  simp [known, bind, Except.bind, pure, Except.pure]

theorem expansion_eq (told : ∀ p ∈ w.inspector.listFiles root, ∃ a, w.verdict p = .ok a) (p : Path) :
    w.expansion root p = (w.blobAt p).map fun blob =>
      if blob.isKnown then
        distinct [] (blob.dependencies.flatMap (w.filesOfArchitecture root blob.architecture))
      else [] := by
  unfold expansion
  cases w.blobAt p with
  | error breakdown => rfl
  | ok blob =>
    have hfiles : blob.isKnown = true →
        blob.dependencies.mapM (fun library => w.filesFor root library blob.architecture) =
          .ok (blob.dependencies.map (w.filesOfArchitecture root blob.architecture)) := by
      intro known
      have htold : ∀ library, ∀ q ∈ w.filesNamed root library, ∃ a, w.verdict q = .ok a :=
        fun library q hq => told q (filesNamed_subset w root library hq)
      rw [funext fun library => filesFor_eq (htold library) known]
      exact List.mapM_pure
    change (if (!blob.isKnown) = true then _ else _) = Except.ok (if blob.isKnown = true then _ else _)
    by_cases known : blob.isKnown = true
    · rw [if_neg (by simp [known]), if_pos known, hfiles known]
      rfl
    · rw [if_pos (by simp [known]), if_neg known]
      rfl

/-- The edges of a path, as the tools tell them. -/
theorem edges_eq {play : List Path} (spelling : Path.OneSpelling play)
    (listed : w.inspector.listFiles root ⊆ play) (hp : p ∈ play) :
    w.edges root p = ((w.expansion root p).toOption).getD [] := by
  have hrun := ((expand_answers spelling listed hp).runIn (.fresh w root play)).2
  rw [edges, expandOrLeaf]
  simp only [hrun]
  cases w.expansion root p <;> rfl

theorem architecture_of_blobAt {blob : Blob} (h : w.blobAt p = .ok blob) :
    w.verdict p = .ok blob.architecture := by
  obtain ⟨a, hverdict, h⟩ := exists_of_bind_ok h
  split at h
  · obtain ⟨texts, -, h⟩ := exists_of_bind_ok h
    cases h
    exact hverdict
  · cases h
    exact hverdict

theorem told_of_filesFor {library : String} {found : List Path} (known : a.isKnown = true)
    (h : w.filesFor root library a = .ok found) :
    ∀ c ∈ w.filesNamed root library, ∃ b, w.verdict c = .ok b := by
  unfold filesFor at h
  simp only [known, Bool.not_true, Bool.false_eq_true, if_false] at h
  obtain ⟨classified, hclassified, -⟩ := exists_of_bind_ok h
  intro c hc
  obtain ⟨e, he⟩ := exists_of_mapM_ok hclassified c hc
  obtain ⟨b, hb, -⟩ := exists_of_bind_ok he
  exact ⟨b, hb⟩

theorem blobAt_known_iff {blob : Blob} :
    (w.blobAt p = .ok blob ∧ blob.isKnown = true) ↔
      ∃ a texts, a.isKnown = true ∧ w.verdict p = .ok a ∧ w.inspector.texts p = .ok texts ∧
        blob = ⟨p, p.baseName, a, references w.settings p.baseName texts⟩ := by
  constructor
  · intro h
    obtain ⟨hblob, known⟩ := h
    obtain ⟨a, hverdict, hblob⟩ := exists_of_bind_ok hblob
    split at hblob
    · rename_i ha
      obtain ⟨texts, htexts, hblob⟩ := exists_of_bind_ok hblob
      cases hblob
      exact ⟨a, texts, ha, hverdict, htexts, rfl⟩
    · rename_i ha
      cases hblob
      exact absurd known ha
  · intro h
    obtain ⟨a, texts, known, hverdict, htexts, rfl⟩ := h
    refine ⟨?_, known⟩
    simp only [blobAt, hverdict, bind, Except.bind, known, if_true, blobAs, htexts]
    rfl

/-- What a file of known architecture expands to, if all files named like a library in its texts can be
told. -/
theorem expansion_of_texts (known : a.isKnown = true) (hverdict : w.verdict p = .ok a) {texts : List String}
    (htexts : w.inspector.texts p = .ok texts)
    (told : ∀ library ∈ references w.settings p.baseName texts, ∀ c ∈ w.filesNamed root library,
      ∃ b, w.verdict c = .ok b) :
    w.expansion root p = .ok (distinct []
      ((references w.settings p.baseName texts).map (w.filesOfArchitecture root a)).flatten) := by
  obtain ⟨hblob, hknown⟩ := blobAt_known_iff.mpr ⟨a, texts, known, hverdict, htexts, rfl⟩
  have hfiles := mapM_eq_ok fun library hlibrary => filesFor_eq (told library hlibrary) known
  simp only [expansion, hblob, bind, Except.bind, hknown, hfiles]
  rfl

theorem exists_texts_of_expansion {found : List Path} (h : w.expansion root p = .ok found)
    (hq : q ∈ found) : ∃ a texts, a.isKnown = true ∧ w.verdict p = .ok a ∧
      w.inspector.texts p = .ok texts ∧
      ∀ library ∈ references w.settings p.baseName texts, ∀ c ∈ w.filesNamed root library,
        ∃ b, w.verdict c = .ok b := by
  obtain ⟨blob, hblob, hfound⟩ := exists_of_bind_ok h
  split at hfound
  · cases hfound
    cases hq
  · rename_i hknown
    obtain ⟨resolved, hresolved, -⟩ := exists_of_bind_ok hfound
    obtain ⟨a, texts, known, hverdict, htexts, rfl⟩ :=
      blobAt_known_iff.mp ⟨hblob, by simpa using hknown⟩
    refine ⟨a, texts, known, hverdict, htexts, fun library hlibrary => ?_⟩
    obtain ⟨files, hfiles⟩ := exists_of_mapM_ok hresolved library hlibrary
    exact told_of_filesFor known hfiles

section Edges

variable {play : List Path} (spelling : Path.OneSpelling play)
  (listed : w.inspector.listFiles root ⊆ play) (hp : p ∈ play)
include spelling listed

theorem mem_distinct_filesOfArchitecture {libraries : List String} :
    q ∈ distinct [] (libraries.map (w.filesOfArchitecture root a)).flatten ↔
      ∃ library ∈ libraries, q ∈ w.filesNamed root library ∧ w.verdict q = .ok a := by
  constructor
  · intro hq
    obtain ⟨files, hfiles, hmem⟩ := List.mem_flatten.mp (mem_of_mem_distinct hq)
    obtain ⟨library, hlibrary, rfl⟩ := List.mem_map.mp hfiles
    exact ⟨library, hlibrary, by simpa [filesOfArchitecture] using hmem⟩
  · rintro ⟨library, hlibrary, hnamed, hq⟩
    apply mem_distinct spelling _ _ List.not_mem_nil
    · intro c hc
      obtain ⟨files, hfiles, hmem⟩ := List.mem_flatten.mp hc
      obtain ⟨name, -, rfl⟩ := List.mem_map.mp hfiles
      exact listed (filesNamed_subset w root name (List.mem_filter.mp hmem).1)
    · apply List.mem_flatten.mpr
      exact ⟨_, List.mem_map_of_mem hlibrary, by simp [filesOfArchitecture, hnamed, hq]⟩

include hp

/-- The edges of a path of known architecture, whatever the tools do: if its texts can be read, and all
files named like a library in them can be told, they lead to those of its own architecture. -/
theorem mem_edges_iff :
    q ∈ w.edges root p ↔ ∃ a texts, a.isKnown = true ∧ w.verdict p = .ok a ∧
      w.inspector.texts p = .ok texts ∧
      (∀ library ∈ references w.settings p.baseName texts, ∀ c ∈ w.filesNamed root library,
        ∃ b, w.verdict c = .ok b) ∧
      ∃ library ∈ references w.settings p.baseName texts,
        q ∈ w.filesNamed root library ∧ w.verdict q = .ok a := by
  rw [edges_eq spelling listed hp]
  constructor
  · intro hq
    cases hexpansion : w.expansion root p with
    | error breakdown =>
      rw [hexpansion] at hq
      cases hq
    | ok found =>
      rw [hexpansion] at hq
      obtain ⟨a, texts, known, hverdict, htexts, told⟩ := exists_texts_of_expansion hexpansion hq
      rw [expansion_of_texts known hverdict htexts told] at hexpansion
      cases hexpansion
      exact ⟨a, texts, known, hverdict, htexts, told,
        (mem_distinct_filesOfArchitecture spelling listed).mp hq⟩
  · intro h
    obtain ⟨a, texts, known, hverdict, htexts, told, hnamed⟩ := h
    rw [expansion_of_texts known hverdict htexts told]
    exact (mem_distinct_filesOfArchitecture spelling listed).mpr hnamed

end Edges

end BlobCensus.Workbench
