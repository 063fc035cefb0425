import BlobCensus.Proofs.Session.Edges
import BlobCensus.Proofs.Survey.History

/-!
# Resolving library names in a session

Any number of requests for the files of a library share an index and what has been settled of single
files. The files are listed for the first request that needs them and never again, and the files named
like a library are dealt out to the architectures, each to its own, whatever was asked before.
-/
namespace BlobCensus

namespace Event

def isListing : Event → Bool
  | listed _ => true
  | _ => false

/-- Neither a listing of files nor a library that is missing. -/
def isQuiet : Event → Bool
  | listed _ | missing _ => false
  | _ => true

theorem isListing_of_isQuiet {e : Event} (h : e.isQuiet = true) : e.isListing = false := by
  cases e with
  | listed => exact absurd h Bool.false_ne_true
  | _ => rfl

/-- What is logged as information is that a library is missing. -/
theorem eq_missing_of_info {e : Event} {text : String} (h : e.logLine? = some (.info, text)) :
    ∃ library, e = .missing library := by
  cases e with
  | missing library => exact ⟨library, rfl⟩
  | _ => simp [logLine?] at h

end Event

namespace Job

variable {α β : Type} {only : Event → Prop}

/-- Run alone, the job notes only such events, and leaves the index as it is. -/
def Notes (only : Event → Prop) (job : Job α) : Prop :=
  ∀ s, (job.runIn s).2.index = s.index ∧
    ∃ new, (job.runIn s).2.events = s.events ++ new ∧ ∀ e ∈ new, only e

theorem Notes.mono {job : Job α} {other : Event → Prop} (h : Notes only job)
    (imp : ∀ e, only e → other e) : Notes other job := by
  intro s
  obtain ⟨hindex, new, hnew, honly⟩ := h s
  exact ⟨hindex, new, hnew, fun e he => imp e (honly e he)⟩

theorem notes_pure (a : α) : Notes only (pure a) :=
  fun _ => ⟨rfl, [], (List.append_nil _).symm, by simp⟩

theorem notes_await (answer : Except Breakdown α) : Notes only (await answer) :=
  fun _ => ⟨rfl, [], (List.append_nil _).symm, by simp⟩

theorem notes_note {e : Event} (h : only e) : Notes only (modify (·.note e) : Job PUnit) :=
  fun s => ⟨rfl, [e], s.events_note e, by simpa using h⟩

theorem notes_get : Notes only (get : Job Session) :=
  fun _ => ⟨rfl, [], (List.append_nil _).symm, by simp⟩

theorem notes_settle (p : Path) (a : Architecture) :
    Notes only (modify (·.settle p a) : Job PUnit) :=
  fun _ => ⟨rfl, [], (List.append_nil _).symm, by simp⟩

theorem Notes.bind {job : Job α} {f : α → Job β} (h : Notes only job) (next : ∀ a, Notes only (f a)) :
    Notes only (job >>= f) := by
  intro s
  obtain ⟨hindex, new, hnew, honly⟩ := h s
  rw [runIn_bind]
  rcases hrun : job.runIn s with ⟨answer | a, t⟩
  · rw [hrun] at hindex hnew
    exact ⟨hindex, new, hnew, honly⟩
  · rw [hrun] at hindex hnew
    obtain ⟨hindex', more, hmore, honly'⟩ := next a t
    refine ⟨hindex'.trans hindex, new ++ more, ?_, ?_⟩
    · rw [hmore, hnew, List.append_assoc]
    · exact List.forall_mem_append.mpr ⟨honly, honly'⟩

theorem notes_mapM {f : α → Job β} {xs : List α} (h : ∀ x ∈ xs, Notes only (f x)) :
    Notes only (xs.mapM f) := by
  induction xs with
  | nil =>
    rw [List.mapM_nil]
    exact notes_pure []
  | cons x rest ih =>
    rw [List.forall_mem_cons] at h
    rw [List.mapM_cons]
    exact h.1.bind fun y => (ih h.2).bind fun ys => notes_pure _

end Job

namespace Workbench

open Job

variable {w : Workbench} {root p : Path} {library : String} {wanted : Architecture} {s : Session}

theorem examine_notes (w : Workbench) (p : Path) : Notes (· = .described p) (w.examine p) := by
  unfold examine
  split
  · exact notes_pure _
  · split
    · exact notes_pure _
    · refine Notes.bind ?_ fun _ => (notes_await _).bind fun _ => notes_pure _
      exact notes_note rfl

theorem classify_notes (w : Workbench) (p : Path) : Notes (· = .described p) (w.classify p) := by
  refine notes_get.bind fun s => ?_
  split
  · exact notes_pure _
  · exact (examine_notes w p).bind fun a => (notes_settle p a).bind fun _ => notes_pure a

/-- What is noted when an index is needed: nothing if the session has one. -/
def indexing (w : Workbench) (root : Path) (s : Session) : List Event :=
  if s.index.isSome then []
  else [.listed root, .indexed (NameIndex.ofPaths (w.inspector.listFiles root)).size root]

theorem prepare_events (w : Workbench) (root : Path) (s : Session) :
    (w.prepare root s).2.events = s.events ++ w.indexing root s ∧
      (w.prepare root s).2.index.isSome = true := by
  unfold prepare indexing
  cases hindex : s.index with
  | some index => simp [hindex]
  | none => simp [Session.events, Session.note]

theorem nameIndex_runIn (w : Workbench) (root : Path) (s : Session) :
    (w.nameIndex root).runIn s = (.ok (w.prepare root s).1, (w.prepare root s).2) := rfl

/-- What is noted when a library is looked up whose pattern is refused. -/
def refusal (w : Workbench) (root : Path) (library : String) : List Event :=
  match (NameIndex.ofPaths (w.inspector.listFiles root)).matching? (Glob.ofLibrary library) with
  | some _ => []
  | none => [.refusedPattern (Glob.ofLibrary library)]

/-- What is noted after the index is made: nothing is listed, and a library is missing only if no file
bears its name. -/
structure Looked (w : Workbench) (root : Path) (library : String) (events : List Event) : Prop where
  listings : events.filter Event.isListing = []
  missing : ∀ other, .missing other ∈ events ↔ other = library ∧ w.filesNamed root library = []

section Quiet

variable {events : List Event} (quiet : ∀ e ∈ events, e.isQuiet = true)
include quiet

theorem filter_isListing_of_quiet : events.filter Event.isListing = [] := by
  rw [List.filter_eq_nil_iff]
  intro e he
  rw [Event.isListing_of_isQuiet (quiet e he)]
  exact Bool.false_ne_true

theorem missing_notMem_of_quiet (other : String) : .missing other ∉ events :=
  fun h => Bool.false_ne_true (quiet _ h)

theorem Looked.of_ne_nil (named : w.filesNamed root library ≠ []) : w.Looked root library events where
  listings := filter_isListing_of_quiet quiet
  missing other :=
    iff_of_false (missing_notMem_of_quiet quiet other) fun h => named h.2

theorem Looked.of_eq_nil (unnamed : w.filesNamed root library = []) :
    w.Looked root library (events ++ [.missing library]) where
  listings := by
    rw [List.filter_append, filter_isListing_of_quiet quiet]
    rfl
  missing other := by
    rw [List.mem_append, or_iff_right (missing_notMem_of_quiet quiet other)]
    simp [unnamed]

end Quiet

theorem refusal_quiet (w : Workbench) (root : Path) (library : String) :
    ∀ e ∈ w.refusal root library, e.isQuiet = true := by
  unfold refusal
  split <;> simp [Event.isQuiet]

theorem Looked.info_iff {new : List Event} (looked : w.Looked root library new) :
    (Level.info, s!"missing: {library}") ∈ (w.indexing root s ++ new).filterMap Event.logLine? ↔
      w.filesNamed root library = [] := by
  have hindexing : ∀ other, .missing other ∉ w.indexing root s := by
    unfold indexing
    split <;> simp
  rw [List.mem_filterMap]
  constructor
  · rintro ⟨e, he, hlog⟩
    obtain ⟨other, rfl⟩ := Event.eq_missing_of_info hlog
    rcases List.mem_append.mp he with he | he
    · exact absurd he (hindexing other)
    · exact ((looked.missing other).mp he).2
  · intro hnone
    exact ⟨.missing library, List.mem_append_right _ ((looked.missing library).mpr ⟨rfl, hnone⟩), rfl⟩

section Told

variable (faithful : s.Faithful w root (w.inspector.listFiles root))
include faithful

theorem candidates_runIn (library : String) :
    ∃ t, (w.candidates root library).runIn s = (.ok (w.filesNamed root library), t) ∧
      t.Faithful w root (w.inspector.listFiles root) ∧ t.index.isSome = true ∧
      t.events = s.events ++ (w.indexing root s ++ w.refusal root library) := by
  obtain ⟨hmade, hfaithful⟩ := faithful.prepare
  obtain ⟨hevents, hindex⟩ := prepare_events w root s
  unfold candidates filesNamed refusal
  rw [runIn_bind, nameIndex_runIn, hmade]
  dsimp only
  cases (NameIndex.ofPaths (w.inspector.listFiles root)).matching? (Glob.ofLibrary library) with
  | some found => exact ⟨_, rfl, hfaithful, hindex, by rw [hevents, List.append_nil]⟩
  | none =>
    refine ⟨_, rfl, hfaithful.note _, hindex, ?_⟩
    rw [Session.events_note, hevents, List.append_assoc]

variable (told : ∀ p ∈ w.inspector.listFiles root, ∃ text, w.inspector.describe p = .ok text)
  (spelling : Path.OneSpelling (w.inspector.listFiles root))
include told spelling

/-- Files are classified as the tools tell, and only their formats are asked for. -/
theorem mapM_classify_runIn {files : List Path} (hfiles : files ⊆ w.inspector.listFiles root)
    (wanted : Architecture) :
    ∃ classified t asked,
      (files.mapM fun p => return (p, ← w.classify p)).runIn s = (.ok classified, t) ∧
      (classified.filter (·.2 == wanted)).map Prod.fst =
        files.filter (fun p => w.verdict p = .ok wanted) ∧
      t.Faithful w root (w.inspector.listFiles root) ∧ t.index = s.index ∧
      t.events = s.events ++ asked ∧ ∀ e ∈ asked, ∃ p ∈ files, e = .described p := by
  obtain ⟨classified, hclassified, hfilter⟩ :=
    mapM_verdict (fun p hp => exists_verdict (told p (hfiles hp))) wanted
  obtain ⟨hfaithful, hanswer⟩ := (mapM_classify_answers spelling w root hfiles).runIn faithful
  have hnotes : Notes (fun e => ∃ p ∈ files, e = .described p)
      (files.mapM fun p => return (p, ← w.classify p)) := by
    refine notes_mapM fun p hp => Notes.bind ?_ fun a => notes_pure _
    exact (classify_notes w p).mono fun e he => ⟨p, hp, he⟩
  obtain ⟨hindex, asked, hevents, hasked⟩ := hnotes s
  exact ⟨classified, _, asked, Prod.ext (hanswer.trans hclassified) rfl, hfilter, hfaithful, hindex,
    hevents, hasked⟩

/-- A request for a known architecture is answered with the files of that architecture. -/
theorem resolve_runIn (library : String) (known : wanted.isKnown = true) :
    ∃ t new, (w.resolve root library wanted).runIn s = (.ok (w.filesOfArchitecture root wanted library), t) ∧
      t.Faithful w root (w.inspector.listFiles root) ∧ t.index.isSome = true ∧
      t.events = s.events ++ (w.indexing root s ++ new) ∧ w.Looked root library new := by
  obtain ⟨t, hrun, hfaithful, hindex, hevents⟩ := candidates_runIn faithful library
  unfold resolve
  rw [if_neg (by simp [known]), runIn_bind_ok hrun]
  dsimp only
  cases hnamed : w.filesNamed root library with
  | nil =>
    have hlooked := Looked.of_eq_nil (refusal_quiet w root library) hnamed
    refine ⟨t.note (.missing library), _, ?_, hfaithful.note _, hindex, ?_, hlooked⟩
    · rw [filesOfArchitecture, hnamed]
      rfl
    · rw [Session.events_note, hevents]
      simp only [List.append_assoc]
  | cons p rest =>
    obtain ⟨classified, u, asked, hclassify, hfilter, hfaithful', hindex', hevents', hasked⟩ :=
      mapM_classify_runIn hfaithful told spelling (filesNamed_subset w root library) wanted
    rw [← hnamed, if_neg (by simp [hnamed]), runIn_bind_ok hclassify, hfilter, ← filesOfArchitecture]
    have hnonempty : w.filesNamed root library ≠ [] := hnamed ▸ List.cons_ne_nil p rest
    obtain ⟨noted, hnoted, hquiet⟩ : ∃ noted, u.events = s.events ++ (w.indexing root s ++ noted) ∧
        ∀ e ∈ noted, e.isQuiet = true := by
      refine ⟨w.refusal root library ++ asked, ?_, List.forall_mem_append.mpr
        ⟨refusal_quiet w root library, fun e he => ?_⟩⟩
      · rw [hevents', hevents]
        simp only [List.append_assoc]
      · obtain ⟨p, -, rfl⟩ := hasked e he
        rfl
    cases (w.filesOfArchitecture root wanted library).isEmpty with
    | true =>
      refine ⟨u.note (.noCandidate wanted library), noted ++ [.noCandidate wanted library], ?_,
        hfaithful'.note _, hindex' ▸ hindex, ?_, .of_ne_nil ?_ hnonempty⟩
      · rw [if_pos rfl, runIn_bind, runIn_modify]
        rfl
      · rw [Session.events_note, hnoted]
        simp only [List.append_assoc]
      · exact List.forall_mem_append.mpr ⟨hquiet, by simp [Event.isQuiet]⟩
    | false => exact ⟨u, noted, rfl, hfaithful', hindex' ▸ hindex, hnoted, .of_ne_nil hquiet hnonempty⟩

end Told

inductive Query where
  | prepare
  | resolve (library : String) (wanted : Architecture)

namespace Query

def needsIndex : Query → Bool
  | prepare => true
  | resolve _ wanted => wanted.isKnown

def job (w : Workbench) (root : Path) : Query → Job (List Path)
  | prepare => do
    let _ ← w.nameIndex root
    return []
  | resolve library wanted => w.resolve root library wanted

end Query

/-- The answer to a query, and what was noted in the work on it. -/
structure Response where
  answer : Except Breakdown (List Path)
  events : List Event

/-- Responds to a query in a session. -/
def respond (w : Workbench) (root : Path) (query : Query) (s : Session) : Response × Session :=
  let (answer, t) := (query.job w root).runIn s
  (⟨answer, t.events.drop s.events.length⟩, t)

/-- The response that a query is due, whatever was asked before. -/
def Fulfils (w : Workbench) (root : Path) : Query → Response → Prop
  | .prepare, response => response.answer = .ok []
  | .resolve library wanted, response =>
    if wanted.isKnown then
      response.answer = .ok (w.filesOfArchitecture root wanted library) ∧
        ((Level.info, s!"missing: {library}") ∈ response.events.filterMap Event.logLine? ↔
          w.filesNamed root library = [])
    else response = ⟨.ok [], []⟩

theorem respond_eq (query : Query) {answer : Except Breakdown (List Path)} {t : Session}
    {new : List Event} (hrun : (query.job w root).runIn s = (answer, t))
    (hevents : t.events = s.events ++ new) : w.respond root query s = (⟨answer, new⟩, t) := by
  unfold respond
  rw [hrun]
  simp only [hevents, List.drop_left]

theorem listings_indexing : (w.indexing root s).filter Event.isListing =
    if s.index.isSome then [] else [.listed root] := by
  unfold indexing
  split <;> rfl

section Told

variable (told : ∀ p ∈ w.inspector.listFiles root, ∃ text, w.inspector.describe p = .ok text)
  (spelling : Path.OneSpelling (w.inspector.listFiles root))
include told spelling

/-- One query: it gets the response it is due, and the files are listed if it is the first that needs
the index. -/
theorem respond_step (query : Query) (faithful : s.Faithful w root (w.inspector.listFiles root)) :
    w.Fulfils root query (w.respond root query s).1 ∧
      (w.respond root query s).2.Faithful w root (w.inspector.listFiles root) ∧
      (w.respond root query s).2.index.isSome = (query.needsIndex || s.index.isSome) ∧
      (w.respond root query s).1.events.filter Event.isListing =
        if query.needsIndex && s.index.isNone then [.listed root] else [] := by
  cases query with
  | prepare =>
    obtain ⟨hevents, hindex⟩ := prepare_events w root s
    have hrun : (Query.prepare.job w root).runIn s = (.ok [], (w.prepare root s).2) := rfl
    rw [respond_eq .prepare hrun hevents]
    refine ⟨rfl, faithful.prepare.2, hindex, ?_⟩
    rw [listings_indexing]
    cases s.index <;> rfl
  | resolve library wanted =>
    cases known : wanted.isKnown with
    | false =>
      have hrun : ((Query.resolve library wanted).job w root).runIn s = (.ok [], s) := by
        simp [Query.job, resolve, known]
      rw [respond_eq _ hrun (List.append_nil _).symm]
      simp [Fulfils, Query.needsIndex, known, faithful]
    | true =>
      obtain ⟨t, new, hrun, hfaithful, hindex, hevents, hlooked⟩ :=
        resolve_runIn faithful told spelling library known
      rw [respond_eq (.resolve library wanted) hrun hevents]
      refine ⟨?_, hfaithful, ?_, ?_⟩
      · simp only [Fulfils, known, if_true, true_and]
        exact hlooked.info_iff
      · simp [Query.needsIndex, known, hindex]
      · rw [List.filter_append, hlooked.listings, listings_indexing]
        cases s.index <;> simp [Query.needsIndex, known]

theorem respond_run (queries : List Query)
    (faithful : s.Faithful w root (w.inspector.listFiles root)) :
    List.Forall₂ (w.Fulfils root) queries (Session.answers (w.respond root) queries s) ∧
      ((Session.answers (w.respond root) queries s).flatMap Response.events).filter Event.isListing =
        if queries.any Query.needsIndex && s.index.isNone then [.listed root] else [] := by
  induction queries generalizing s with
  | nil => exact ⟨.nil, rfl⟩
  | cons query rest ih =>
    obtain ⟨hfulfils, hfaithful, hindex, hlistings⟩ := respond_step told spelling query faithful
    obtain ⟨hall, hrest⟩ := ih hfaithful
    refine ⟨.cons hfulfils hall, ?_⟩
    rw [Session.answers, List.flatMap_cons, List.filter_append, hlistings, hrest, List.any_cons]
    simp only [← Option.not_isSome, hindex]
    cases query.needsIndex <;> cases s.index.isSome <;> simp

omit spelling in
/-- Every file named like a library has one architecture, or none that is known. -/
theorem filesOfArchitecture_partition (library : String) :
    (w.filesOfArchitecture root .bits32 library).Disjoint (w.filesOfArchitecture root .bits64 library) ∧
      (w.filesOfArchitecture root .bits32 library ++ w.filesOfArchitecture root .bits64 library ++
        w.filesOfArchitecture root .unknown library).Perm (w.filesNamed root library) := by
  have hverdict : ∀ p ∈ w.filesNamed root library, ∃ a, w.verdict p = .ok a :=
    fun p hp => exists_verdict (told p (filesNamed_subset w root library hp))
  unfold filesOfArchitecture
  generalize w.filesNamed root library = files at hverdict
  constructor
  · intro p h32 h64
    have hsame := (of_decide_eq_true (List.mem_filter.mp h32).2).symm.trans
      (of_decide_eq_true (List.mem_filter.mp h64).2)
    cases hsame
  · induction files with
    | nil => exact .nil
    | cons p rest ih =>
      rw [List.forall_mem_cons] at hverdict
      obtain ⟨⟨a, ha⟩, hrest⟩ := hverdict
      have hperm := (ih hrest).cons p
      rw [List.append_assoc] at hperm ⊢
      cases a with
      | bits32 => simpa [ha] using hperm
      | bits64 => simpa [ha] using List.perm_middle.trans hperm
      | unknown =>
        rw [← List.append_assoc] at hperm ⊢
        simpa [ha] using List.perm_middle.trans hperm

end Told

/-- Whatever is asked of a resolver, in whatever order, the files are listed at most once, and only if
an index is needed. A request for a known architecture is answered with the indexed files that are
named like the library and have the architecture, and logs that the library is missing if there are none
of its name; a request for an unknown one is answered with nothing, and nothing is done for it. So the
files named like a library are dealt out: none to both architectures, each to its own or to none. -/
theorem resolve_partitions (w : Workbench) (root : Path) (queries : List Query)
    (told : ∀ p ∈ w.inspector.listFiles root, ∃ text, w.inspector.describe p = .ok text)
    (spelling : Path.OneSpelling (w.inspector.listFiles root)) :
    List.Forall₂ (w.Fulfils root) queries (Session.answers (w.respond root) queries {}) ∧
      ((Session.answers (w.respond root) queries {}).flatMap Response.events).filter
        Event.isListing = (if queries.any Query.needsIndex then [.listed root] else []) ∧
      ∀ library,
      (w.filesOfArchitecture root .bits32 library).Disjoint
        (w.filesOfArchitecture root .bits64 library) ∧
        (w.filesOfArchitecture root .bits32 library ++ w.filesOfArchitecture root .bits64 library ++
          w.filesOfArchitecture root .unknown library).Perm (w.filesNamed root library) := by
  obtain ⟨hall, hlistings⟩ := respond_run told spelling queries (.fresh w root _)
  refine ⟨hall, ?_, filesOfArchitecture_partition told⟩
  rw [hlistings]
  simp

def file32 : Path := .ofString "/lib/a.so"

def file64 : Path := .ofString "/lib64/a.so"

def plainFile : Path := .ofString "/lib/b.so"

def twoWidthsBench : Workbench :=
  { settings := {}
    strategy := .content
    inspector :=
      { listFiles := fun _ => [plainFile, file64, file32]
        describe := fun p => .ok <|
          if p = file32 then "ELF 32-bit" else if p = file64 then "ELF 64-bit" else "data"
        texts := fun _ => .ok [] } }

def twoWidthsQueries : List Query :=
  [.resolve "a.so" .unknown, .resolve "%s.so" .bits64, .prepare, .resolve "c.so" .bits32,
    .resolve "%s.so" .bits32]

theorem index_twoWidths : NameIndex.ofPaths (twoWidthsBench.inspector.listFiles (.ofString "/")) =
    ⟨[("a.so", [file32, file64]), ("b.so", [plainFile])]⟩ := by
  cbv

theorem filesNamed_twoWidths :
    twoWidthsBench.filesNamed (.ofString "/") "%s.so" = [file32, file64, plainFile] := by
  rw [filesNamed, index_twoWidths]
  decide

theorem resolve_partitions_two_widths :
    (∀ p ∈ twoWidthsBench.inspector.listFiles (.ofString "/"),
      ∃ text, twoWidthsBench.inspector.describe p = .ok text) ∧
    Path.OneSpelling (twoWidthsBench.inspector.listFiles (.ofString "/")) ∧
    (Session.answers (twoWidthsBench.respond (.ofString "/")) twoWidthsQueries {}).map Response.answer =
      [.ok [], .ok [file64], .ok [], .ok [], .ok [file32]] ∧
    ((Session.answers (twoWidthsBench.respond (.ofString "/")) twoWidthsQueries {}).flatMap
      Response.events).filter Event.isListing = [.listed (.ofString "/")] := by
  have htold : ∀ p ∈ twoWidthsBench.inspector.listFiles (.ofString "/"),
      ∃ text, twoWidthsBench.inspector.describe p = .ok text := fun p _ => ⟨_, rfl⟩
  have hspelling : Path.OneSpelling (twoWidthsBench.inspector.listFiles (.ofString "/")) := by decide
  have hwide : twoWidthsBench.filesOfArchitecture (.ofString "/") .bits64 "%s.so" = [file64] := by
    rw [filesOfArchitecture, filesNamed_twoWidths]
    decide
  have hnarrow : twoWidthsBench.filesOfArchitecture (.ofString "/") .bits32 "%s.so" = [file32] := by
    rw [filesOfArchitecture, filesNamed_twoWidths]
    decide
  have hnone : twoWidthsBench.filesOfArchitecture (.ofString "/") .bits32 "c.so" = [] := by
    rw [filesOfArchitecture, filesNamed, index_twoWidths]
    decide
  obtain ⟨hall, hlistings, -⟩ :=
    resolve_partitions twoWidthsBench (.ofString "/") twoWidthsQueries htold hspelling
  refine ⟨htold, hspelling, ?_, hlistings⟩
  generalize Session.answers (twoWidthsBench.respond (.ofString "/")) twoWidthsQueries {} = responses at hall
  obtain - | ⟨h1, - | ⟨h2, - | ⟨h3, - | ⟨h4, - | ⟨h5, ⟨⟩⟩⟩⟩⟩⟩ := hall
  simp only [List.map_cons, List.map_nil, List.cons.injEq, and_true]
  exact ⟨congrArg Response.answer h1, hwide ▸ h2.1, h3, hnone ▸ h4.1, hnarrow ▸ h5.1⟩

end Workbench

end BlobCensus
