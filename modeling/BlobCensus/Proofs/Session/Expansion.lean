import BlobCensus.Closure
import BlobCensus.Proofs.NameIndex
import BlobCensus.Proofs.Session.Job

/-!
# Expansions among others

The expansion of a path gives indexed paths, whatever the tools answer and whatever others do to the
session. If the tools are steady and no path in play has two spellings, it always gives the same:
what a session remembers is then what the tools say.
-/
namespace BlobCensus

namespace Workbench

open Job

variable {w : Workbench} {root p : Path} {index : NameIndex} {inv : Session → Prop}

/-- The architecture of a path as the tools tell it, with nothing remembered. -/
def verdict (w : Workbench) (p : Path) : Except Breakdown Architecture :=
  ((w.examine p).runIn {}).1

theorem examine_answers (w : Workbench) (p : Path) (note : ∀ s e, inv s → inv (s.note e)) :
    Answers inv (w.examine p) (w.verdict p) := by
  unfold verdict examine
  split
  · rfl
  · split
    · rfl
    · refine ensures_modify_bind (fun s => note s _) ?_
      cases w.inspector.describe p <;> rfl

theorem exists_verdict (tells : ∃ text, w.inspector.describe p = .ok text) :
    ∃ a, w.verdict p = .ok a := by
  obtain ⟨text, htext⟩ := tells
  unfold verdict examine
  split
  · exact ⟨_, rfl⟩
  · split
    · exact ⟨_, rfl⟩
    · refine ⟨Architecture.ofDescription text, ?_⟩
      simp only [runIn_bind, runIn_modify, htext, runIn_await, runIn_pure]

/-- The architecture of the path hangs on the description of its format. -/
def Asks (w : Workbench) (p : Path) : Prop :=
  isPlainFile w.settings p = false ∧ w.strategy = .content

instance (w : Workbench) (p : Path) : Decidable (w.Asks p) := inferInstanceAs (Decidable (_ ∧ _))

theorem verdict_of_asks (asks : w.Asks p) :
    w.verdict p = (w.inspector.describe p).map Architecture.ofDescription := by
  unfold verdict examine
  simp only [asks.1, asks.2, Bool.false_eq_true, if_false, Job.runIn_bind, Job.runIn_modify]
  cases w.inspector.describe p <;> rfl

theorem examine_runIn (w : Workbench) (p : Path) (s : Session) :
    (w.examine p).runIn s = (w.verdict p, if w.Asks p then s.note (.described p) else s) := by
  by_cases asks : w.Asks p
  · rw [verdict_of_asks asks, if_pos asks]
    unfold examine
    simp only [asks.1, asks.2, Bool.false_eq_true, if_false, runIn_bind, runIn_modify, runIn_await]
    cases w.inspector.describe p <;> rfl
  · rw [if_neg asks]
    unfold verdict examine
    by_cases plain : isPlainFile w.settings p = true
    · simp [plain]
    · cases hstrategy : w.strategy with
      | directory => simp [plain]
      | content => exact absurd ⟨by simpa using plain, hstrategy⟩ asks

theorem mem_of_mem_distinct {seen : List (List Component)} {paths : List Path} {q : Path}
    (h : q ∈ distinct seen paths) : q ∈ paths := by
  induction paths generalizing seen with
  | nil => exact h
  | cons first rest ih =>
    simp only [distinct] at h
    split at h
    · exact List.mem_cons_of_mem _ (ih h)
    · rcases List.mem_cons.mp h with rfl | h
      · exact List.mem_cons_self
      · exact List.mem_cons_of_mem _ (ih h)

theorem prepare_of_index {s : Session} (h : s.index = some index) : w.prepare root s = (index, s) := by
  simp [prepare, h]

section Indexed

def HasIndex (index : NameIndex) (s : Session) : Prop := s.index = some index

theorem classify_returns (w : Workbench) (p : Path) (index : NameIndex) :
    Returns (HasIndex index) (w.classify p) fun _ => True := by
  refine ensures_get_bind fun s _ => ?_
  split
  · exact returns_pure trivial
  · refine Returns.bind ((examine_answers w p fun _ _ h => h).returns fun _ _ => trivial) fun a _ => ?_
    exact ensures_modify_bind (fun _ h => h) (returns_pure trivial)

theorem scan_returns (w : Workbench) (p : Path) (index : NameIndex) :
    Returns (HasIndex index) (w.scan p) fun _ => True := by
  refine (classify_returns w p index).bind fun a _ => ?_
  split
  · refine ensures_modify_bind (fun _ h => h) ?_
    exact ((answers_await _ _).returns fun _ _ => trivial).bind fun _ _ => returns_pure trivial
  · exact returns_pure trivial

theorem nameIndex_returns (w : Workbench) (root : Path) (index : NameIndex) :
    Returns (HasIndex index) (w.nameIndex root) (· = index) := by
  intro s hs
  have hprep : w.prepare root s = (index, s) := prepare_of_index hs
  refine ⟨?_, ?_⟩
  · change HasIndex index (w.prepare root s).2
    rw [hprep]
    exact hs
  · change Returns (HasIndex index) (pure (w.prepare root s).1) (· = index)
    rw [hprep]
    exact returns_pure rfl

theorem candidates_returns (w : Workbench) (root : Path) (library : String) (index : NameIndex) :
    Returns (HasIndex index) (w.candidates root library) fun found => found ⊆ index.paths := by
  refine (nameIndex_returns w root index).bind fun made hmade => ?_
  subst hmade
  dsimp only
  split
  · rename_i found hfound
    exact returns_pure (NameIndex.matching?_subset hfound)
  · exact ensures_modify_bind (fun _ h => h) (returns_pure (by simp))

theorem resolve_returns (w : Workbench) (root : Path) (library : String) (wanted : Architecture)
    (index : NameIndex) :
    Returns (HasIndex index) (w.resolve root library wanted) fun found => found ⊆ index.paths := by
  unfold resolve
  split
  · exact returns_pure (by simp)
  · refine (candidates_returns w root library index).bind fun paths hpaths => ?_
    split
    · exact ensures_modify_bind (fun _ h => h) (returns_pure (by simp))
    · refine (returns_mapM (fun e : Path × Architecture => e.1 ∈ index.paths)
        fun q hq => ?_).bind fun classified hclassified => ?_
      · exact (classify_returns w q index).bind fun _ _ => returns_pure (hpaths hq)
      · have hfit : ((classified.filter (·.2 == wanted)).map Prod.fst) ⊆ index.paths := by
          intro q hq
          obtain ⟨e, he, rfl⟩ := List.mem_map.mp hq
          exact hclassified e (List.mem_filter.mp he).1
        dsimp only
        split
        · exact ensures_modify_bind (fun _ h => h) (returns_pure hfit)
        · exact returns_pure hfit

theorem expand_returns (w : Workbench) (root p : Path) (index : NameIndex) :
    Returns (HasIndex index) (w.expand root p) fun found => found ⊆ index.paths := by
  refine (scan_returns w p index).bind fun blob _ => ?_
  split
  · exact returns_pure (by simp)
  · refine (returns_mapM (· ⊆ index.paths) fun library _ =>
      resolve_returns w root library blob.architecture index).bind
        fun resolved hresolved => returns_pure ?_
    intro q hq
    obtain ⟨found, hfound, hmem⟩ := List.mem_flatten.mp (mem_of_mem_distinct hq)
    exact hresolved found hfound hmem

end Indexed

end Workbench

/-- What a session remembers is what the tools say of the paths in play. -/
structure Session.Faithful (w : Workbench) (root : Path) (play : List Path) (s : Session) :
    Prop where
  memo : ∀ p ∈ play, ∀ a, s.memo.find? p = some a → w.verdict p = .ok a
  index : ∀ index, s.index = some index → index = NameIndex.ofPaths (w.inspector.listFiles root)

/-- No path of the list has two spellings. -/
def Path.OneSpelling (play : List Path) : Prop :=
  ∀ p ∈ play, ∀ q ∈ play, p.Same q → p = q

instance (play : List Path) : Decidable (Path.OneSpelling play) :=
  inferInstanceAs (Decidable (∀ p ∈ play, ∀ q ∈ play, p.Same q → p = q))

namespace Session.Faithful

variable {w : Workbench} {root p : Path} {play : List Path} {s : Session}

theorem fresh (w : Workbench) (root : Path) (play : List Path) : Faithful w root play {} :=
  ⟨fun _ _ _ h => by simp [Memo.find?] at h, fun _ h => by simp at h⟩

theorem indexed (w : Workbench) (root : Path) (play : List Path) {index : NameIndex}
    (h : index = NameIndex.ofPaths (w.inspector.listFiles root)) :
    Faithful w root play { index := some index } :=
  ⟨fun _ _ _ hfind => by simp [Memo.find?] at hfind, fun _ hindex => (Option.some.inj hindex) ▸ h⟩

theorem reindex (h : s.Faithful w root play) : Faithful w root play { s with index := none } :=
  ⟨h.memo, fun _ hindex => by cases hindex⟩

theorem note (h : s.Faithful w root play) (e : Event) : (s.note e).Faithful w root play :=
  ⟨h.memo, h.index⟩

theorem settle (h : s.Faithful w root play) (spelling : Path.OneSpelling play) (hp : p ∈ play)
    {a : Architecture} (ha : w.verdict p = .ok a) : (s.settle p a).Faithful w root play := by
  refine ⟨fun q hq b hb => ?_, h.index⟩
  simp only [Session.settle, Memo.insert, Memo.find?, List.lookup_cons] at hb
  split at hb
  · rename_i heq
    obtain rfl := spelling q hq p hp (by simpa [Path.Same] using heq)
    cases hb
    exact ha
  · exact h.memo q hq b hb

theorem prepare (h : s.Faithful w root play) :
    (w.prepare root s).1 = NameIndex.ofPaths (w.inspector.listFiles root) ∧
      (w.prepare root s).2.Faithful w root play := by
  unfold Workbench.prepare
  split
  · rename_i index hindex
    exact ⟨h.index index hindex, h⟩
  · refine ⟨rfl, h.memo, fun index hindex => ?_⟩
    exact (Option.some.inj hindex).symm

end Session.Faithful

namespace Workbench

open Job

variable {w : Workbench} {root p : Path} {play : List Path}

/-- The scan of a path of settled architecture, as the tools tell it. -/
def blobAs (w : Workbench) (p : Path) (a : Architecture) : Except Breakdown Blob := do
  let texts ← w.inspector.texts p
  return ⟨p, p.baseName, a, references w.settings p.baseName texts⟩

def blobAt (w : Workbench) (p : Path) : Except Breakdown Blob := do
  let a ← w.verdict p
  if a.isKnown then w.blobAs p a else return ⟨p, p.baseName, a, []⟩

def stockOf (w : Workbench) (files : List Path) : Except Breakdown Inventory := do
  let classified ← files.mapM fun p => return (p, ← w.verdict p)
  let (firsts, further) := partitionNames [] (classified.filter (·.2.isKnown))
  let blobs ← firsts.mapM fun (p, a) => w.blobAs p a
  return ⟨blobs, further⟩

/-- The listed files whose name fits the name of a library. -/
def filesNamed (w : Workbench) (root : Path) (library : String) : List Path :=
  ((NameIndex.ofPaths (w.inspector.listFiles root)).matching? (Glob.ofLibrary library)).getD []

def filesFor (w : Workbench) (root : Path) (library : String) (wanted : Architecture) :
    Except Breakdown (List Path) := do
  if !wanted.isKnown then
    return []
  let classified ← (w.filesNamed root library).mapM fun p => return (p, ← w.verdict p)
  return (classified.filter (·.2 == wanted)).map Prod.fst

def expansion (w : Workbench) (root p : Path) : Except Breakdown (List Path) := do
  let blob ← w.blobAt p
  if !blob.isKnown then
    return []
  let resolved ← blob.dependencies.mapM fun library => w.filesFor root library blob.architecture
  return distinct [] resolved.flatten

section Steady

variable (spelling : Path.OneSpelling play)
include spelling

theorem classify_answers (hp : p ∈ play) :
    Answers (Session.Faithful w root play) (w.classify p) (w.verdict p) := by
  refine ensures_get_bind fun s hs => ?_
  split
  · rename_i a ha
    exact (hs.memo p hp a ha).symm
  · refine Ensures.bind (examine_answers w p fun s e h => h.note e) ?_ ?_
    · intro a ha
      exact ensures_modify_bind (fun s h => h.settle spelling hp ha.symm) ha
    · exact fun _ h => h

theorem mapM_classify_answers (w : Workbench) (root : Path) {files : List Path} (hfiles : files ⊆ play) :
    Answers (Session.Faithful w root play) (files.mapM fun p => return (p, ← w.classify p))
      (files.mapM fun p => return (p, ← w.verdict p)) := by
  apply answers_mapM
  intro p hp
  exact (classify_answers spelling (hfiles hp)).bind fun a _ => answers_pure _ _

omit spelling in
theorem scanAs_answers (w : Workbench) (root p : Path) (play : List Path) (a : Architecture) :
    Answers (Session.Faithful w root play) (w.scanAs p a) (w.blobAs p a) := by
  refine ensures_modify_bind (fun _ h => h.note _) ?_
  exact (answers_await _ _).bind fun texts _ => answers_pure _ _

theorem scan_answers (root : Path) (hp : p ∈ play) :
    Answers (Session.Faithful w root play) (w.scan p) (w.blobAt p) := by
  refine (classify_answers spelling hp).bind fun a _ => ?_
  split
  · exact scanAs_answers w root p play a
  · exact answers_pure _ _

theorem scanAll_answers (w : Workbench) (root : Path) {files : List Path} (hfiles : files ⊆ play) :
    Answers (Session.Faithful w root play) (w.scanAll files) (w.stockOf files) := by
  refine (mapM_classify_answers spelling w root hfiles).bind fun classified _ => ?_
  refine (answers_mapM fun e _ => ?_).bind fun blobs _ => answers_pure _ _
  exact scanAs_answers w root e.1 play e.2

omit spelling in
theorem nameIndex_answers : Answers (Session.Faithful w root play) (w.nameIndex root)
    (.ok (NameIndex.ofPaths (w.inspector.listFiles root))) :=
  fun _ hs => ⟨hs.prepare.2, congrArg Except.ok hs.prepare.1⟩

omit spelling in
theorem filesNamed_subset (w : Workbench) (root : Path) (library : String) :
    w.filesNamed root library ⊆ w.inspector.listFiles root := by
  intro q hq
  unfold filesNamed at hq
  cases hm : (NameIndex.ofPaths (w.inspector.listFiles root)).matching? (Glob.ofLibrary library) with
  | none => simp [hm] at hq
  | some found =>
    rw [hm, Option.getD_some] at hq
    exact (NameIndex.paths_ofPaths_perm _).subset (NameIndex.matching?_subset hm hq)

omit spelling in
theorem candidates_answers (w : Workbench) (root : Path) (play : List Path) (library : String) :
    Answers (Session.Faithful w root play) (w.candidates root library)
      (.ok (w.filesNamed root library)) := by
  refine nameIndex_answers.bind_ok ?_
  unfold filesNamed
  dsimp only
  split
  · rename_i found hfound
    rw [hfound]
    exact answers_pure _ _
  · rename_i hnone
    rw [hnone]
    exact ensures_modify_bind (fun _ h => h.note _) (answers_pure _ _)

theorem resolve_answers (listed : w.inspector.listFiles root ⊆ play) (library : String)
    (wanted : Architecture) :
    Answers (Session.Faithful w root play) (w.resolve root library wanted)
      (w.filesFor root library wanted) := by
  have hcandidates := candidates_answers w root play library
  have hnamed := List.Subset.trans (filesNamed_subset w root library) listed
  unfold resolve filesFor
  generalize w.filesNamed root library = files at hcandidates hnamed ⊢
  split
  · exact answers_pure _ _
  · refine hcandidates.bind_ok ?_
    split
    · rename_i hnone
      rw [List.isEmpty_iff.mp hnone, List.mapM_nil]
      exact ensures_modify_bind (fun _ h => h.note _) (answers_pure _ _)
    · refine (mapM_classify_answers spelling w root hnamed).bind fun classified _ => ?_
      dsimp only
      split
      · exact ensures_modify_bind (fun _ h => h.note _) (answers_pure _ _)
      · exact answers_pure _ _

theorem expand_answers (listed : w.inspector.listFiles root ⊆ play) (hp : p ∈ play) :
    Answers (Session.Faithful w root play) (w.expand root p) (w.expansion root p) := by
  refine (scan_answers spelling root hp).bind fun blob _ => ?_
  split
  · exact answers_pure _ _
  · refine (answers_mapM fun library _ => ?_).bind fun resolved _ => answers_pure _ _
    exact resolve_answers spelling listed library blob.architecture

end Steady

/-- The paths that the expansion of a path leads to. -/
def edges (w : Workbench) (root p : Path) : List Path := (w.expandOrLeaf root p {}).1

theorem resultOf_fst (p : Path) (answer : Except Breakdown (List Path)) (s t : Session) :
    (resultOf p answer s).1 = (resultOf p answer t).1 := by
  cases answer <;> rfl

theorem resultOf_keeps {inv : Session → Prop} (note : ∀ s e, inv s → inv (s.note e)) (p : Path)
    (answer : Except Breakdown (List Path)) {s : Session} (hs : inv s) :
    inv (resultOf p answer s).2 := by
  cases answer with
  | ok paths => exact hs
  | error breakdown => exact note s _ hs

theorem resultOf_subset {p : Path} {answer : Except Breakdown (List Path)} {known : List Path}
    (h : ∀ paths, answer = .ok paths → paths ⊆ known) (s : Session) :
    (resultOf p answer s).1 ⊆ known := by
  cases answer with
  | ok paths => exact h paths rfl
  | error breakdown => exact List.nil_subset _

/-- Whatever others do, the expansion of a path in play leads to its edges. -/
theorem expand_edges (spelling : Path.OneSpelling play)
    (listed : w.inspector.listFiles root ⊆ play) (hp : p ∈ play) :
    (w.expand root p).Ensures (Session.Faithful w root play)
      fun answer => ∀ s, (resultOf p answer s).1 = w.edges root p := by
  have h := expand_answers spelling listed hp
  have hfresh := (h.runIn (.fresh w root play)).2
  refine h.mono fun given hgiven s => ?_
  rw [hgiven, ← hfresh]
  exact resultOf_fst p _ s _

theorem expandOrLeaf_edges (spelling : Path.OneSpelling play)
    (listed : w.inspector.listFiles root ⊆ play) (hp : p ∈ play) {s : Session}
    (faithful : s.Faithful w root play) : (w.expandOrLeaf root p s).1 = w.edges root p :=
  ((expand_edges spelling listed hp).runIn faithful).2 _

theorem edges_subset (spelling : Path.OneSpelling play)
    (listed : w.inspector.listFiles root ⊆ play) (hp : p ∈ play) :
    w.edges root p ⊆ w.inspector.listFiles root := by
  obtain ⟨s, hs⟩ : ∃ s : Session, s = { index := some (.ofPaths (w.inspector.listFiles root)) } :=
    ⟨_, rfl⟩
  have hindex : HasIndex (.ofPaths (w.inspector.listFiles root)) s := by rw [hs]; rfl
  have hfaithful : s.Faithful w root play := by
    rw [hs]
    exact .indexed w root play rfl
  rw [← expandOrLeaf_edges spelling listed hp hfaithful]
  intro q hq
  exact (NameIndex.paths_ofPaths_perm _).subset
    (resultOf_subset ((expand_returns w root p _).runIn hindex).2 _ hq)

end Workbench

end BlobCensus
