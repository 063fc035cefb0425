import BlobCensus.Proofs.Closure.Course

/-!
# Tools in agreement

Two sets of tools may tell of a file the same in different words. Work on a single file is then the same
job with either of them. A search asks for more files as it goes on, but with the index made only for
indexed ones, so tools that agree on these and on the seed lead to the same search in every session.
-/
namespace BlobCensus

/-- Two sets of tools tell the same of a file: its texts, and the architecture in its description. -/
structure Inspector.AgreeAt (one other : Inspector) (p : Path) : Prop where
  texts : one.texts p = other.texts p
  architecture : (one.describe p).map Architecture.ofDescription =
    (other.describe p).map Architecture.ofDescription

namespace Job

variable {α β : Type} {inv : Session → Prop} {job other : Job α} {f g : α → Job β}

theorem await_bind_pure (answer : Except Breakdown α) (f : α → β) :
    (await answer >>= fun a => pure (f a)) = await (answer.map f) := by
  cases answer <;> rfl

theorem mapM_congr {xs : List α} (same : ∀ x ∈ xs, f x = g x) : xs.mapM f = xs.mapM g := by
  induction xs with
  | nil => rfl
  | cons x rest ih =>
    rw [List.mapM_cons, List.mapM_cons, same x List.mem_cons_self,
      ih fun y hy => same y (List.mem_cons_of_mem x hy)]

theorem returns_true (job : Job α) : Returns (fun _ => True) job fun _ => True := by
  induction job with
  | done answer => exact fun _ _ => trivial
  | access change next ih => exact fun s _ => ⟨trivial, ih s⟩

/-- What comes after a job need only be the same for the answers that the job may have. -/
theorem Returns.bind_congr {post : α → Prop} (h : Returns (fun _ => True) job post)
    (same : ∀ a, post a → f a = g a) : job >>= f = job >>= g := by
  induction job with
  | done answer =>
    cases answer with
    | ok a => exact same a (h a rfl)
    | error breakdown => rfl
  | access change next ih =>
    change access change (fun s => next s >>= f) = access change (fun s => next s >>= g)
    rw [funext fun s => ih s (h s trivial).2]

/-- Run alone in a session with the invariant, the two jobs come to the same. -/
def Concur (inv : Session → Prop) (job other : Job α) : Prop :=
  ∀ s, inv s → job.runIn s = other.runIn s

theorem Concur.refl (inv : Session → Prop) (job : Job α) : Concur inv job job := fun _ _ => rfl

theorem Concur.bind {post : α → Prop} (same : Concur inv job other) (h : Returns inv job post)
    (next : ∀ a, post a → Concur inv (f a) (g a)) : Concur inv (job >>= f) (other >>= g) := by
  intro s hs
  obtain ⟨hkept, hpost⟩ := h.runIn hs
  rw [runIn_bind, runIn_bind, ← same s hs]
  split
  · rename_i a t hrun
    rw [hrun] at hkept hpost
    exact next a (hpost a rfl) t hkept
  · rfl

theorem concur_mapM {xs : List α} {post : β → Prop} (h : ∀ x ∈ xs, Returns inv (f x) post)
    (same : ∀ x ∈ xs, Concur inv (f x) (g x)) : Concur inv (xs.mapM f) (xs.mapM g) := by
  induction xs with
  | nil => exact .refl inv _
  | cons x rest ih =>
    have hrest : ∀ y ∈ rest, Returns inv (f y) post := fun y hy => h y (List.mem_cons_of_mem x hy)
    rw [List.mapM_cons, List.mapM_cons]
    apply (same x List.mem_cons_self).bind (h x List.mem_cons_self)
    intro y _
    apply (ih hrest fun z hz => same z (List.mem_cons_of_mem x hz)).bind (returns_mapM post hrest)
    intro ys _
    exact .refl inv _

end Job

namespace Workbench

open Job

variable {w : Workbench} {tools : Inspector} {root p : Path} {index : NameIndex}

def equip (w : Workbench) (tools : Inspector) : Workbench := { w with inspector := tools }

section File

variable (agree : tools.AgreeAt w.inspector p)
include agree

theorem examine_equip : (w.equip tools).examine p = w.examine p := by
  simp only [examine, equip, await_bind_pure, agree.architecture]

theorem classify_equip : (w.equip tools).classify p = w.classify p := by
  simp only [classify, examine_equip agree]

theorem scanAs_equip (a : Architecture) : (w.equip tools).scanAs p a = w.scanAs p a := by
  simp only [scanAs, equip, agree.texts]

theorem scan_equip : (w.equip tools).scan p = w.scan p := by
  simp only [scan, classify_equip agree, scanAs_equip agree]

end File

theorem mapM_classify_equip {files : List Path} (agree : ∀ p ∈ files, tools.AgreeAt w.inspector p) :
    (files.mapM fun p => return (p, ← (w.equip tools).classify p)) =
      files.mapM fun p => return (p, ← w.classify p) := by
  apply mapM_congr
  intro p hp
  rw [classify_equip (agree p hp)]

theorem partitionNames_fst_subset (taken : List String) (classified : List (Path × Architecture)) :
    (partitionNames taken classified).1 ⊆ classified := by
  induction classified generalizing taken with
  | nil => exact List.Subset.refl _
  | cons e rest ih =>
    unfold partitionNames
    split
    · exact List.subset_cons_of_subset e (ih taken)
    · exact List.cons_subset_cons e (ih _)

theorem scanAll_equip {files : List Path} (agree : ∀ p ∈ files, tools.AgreeAt w.inspector p) :
    (w.equip tools).scanAll files = w.scanAll files := by
  have hpaths : Returns (fun _ => True) (files.mapM fun p => return (p, ← w.classify p))
      fun classified => ∀ e ∈ classified, e.1 ∈ files := by
    apply returns_mapM fun e : Path × Architecture => e.1 ∈ files
    intro p hp
    exact (returns_true (w.classify p)).bind fun _ _ => returns_pure hp
  unfold scanAll
  rw [mapM_classify_equip agree]
  apply hpaths.bind_congr
  intro classified hclassified
  have hscans : (partitionNames [] (classified.filter (·.2.isKnown))).1.mapM
        (fun e => (w.equip tools).scanAs e.1 e.2) =
      (partitionNames [] (classified.filter (·.2.isKnown))).1.mapM fun e => w.scanAs e.1 e.2 := by
    apply mapM_congr
    intro e he
    have hmem := List.mem_filter.mp (partitionNames_fst_subset _ _ he)
    exact scanAs_equip (agree e.1 (hclassified e hmem.1)) e.2
  dsimp only
  rw [hscans]

section Listing

variable (same : tools.listFiles root = w.inspector.listFiles root)
include same

theorem prepare_equip : (w.equip tools).prepare root = w.prepare root := by
  funext s
  simp only [prepare, equip, same]

theorem candidates_equip (library : String) :
    (w.equip tools).candidates root library = w.candidates root library := by
  simp only [candidates, nameIndex, prepare_equip same]

section Indexed

variable (agree : ∀ q ∈ index.paths, tools.AgreeAt w.inspector q)
include agree

theorem resolve_concur (library : String) (wanted : Architecture) :
    Concur (HasIndex index) ((w.equip tools).resolve root library wanted)
      (w.resolve root library wanted) := by
  unfold resolve
  rw [candidates_equip same]
  split
  · exact .refl _ _
  · apply (Concur.refl _ _).bind (candidates_returns w root library index)
    intro paths hpaths
    rw [mapM_classify_equip fun q hq => agree q (hpaths hq)]
    exact .refl _ _

theorem expand_concur (hp : tools.AgreeAt w.inspector p) :
    Concur (HasIndex index) ((w.equip tools).expand root p) (w.expand root p) := by
  unfold expand
  rw [scan_equip hp]
  apply (Concur.refl _ _).bind (scan_returns w p index)
  intro blob _
  split
  · exact .refl _ _
  · -- The scan settles which libraries are asked for, and each is resolved among the indexed files.
    have hresolved := fun library => resolve_concur same agree library blob.architecture
    have hkept := fun library =>
      resolve_returns (w.equip tools) root library blob.architecture index
    apply (concur_mapM (fun library _ => hkept library) fun library _ => hresolved library).bind
      (returns_mapM _ fun library _ => hkept library)
    intro resolved _
    exact .refl _ _

end Indexed

section Closure

variable {ρ : Type} (reporter : Reporter ρ) {s : Session}

/-- Tools that agree on the indexed files and on those in the queue lead the search the same way: it
never comes to any others. -/
theorem drain_equip {known : List Path} (agree : ∀ q ∈ known, tools.AgreeAt w.inspector q)
    (indexed : index.paths ⊆ known) (hs : HasIndex index s) {walk : Walk ρ}
    (hqueue : walk.queue ⊆ known) (fuel : ℕ) :
    (w.equip tools).drain reporter root fuel walk s = w.drain reporter root fuel walk s := by
  induction fuel generalizing walk s with
  | zero => rfl
  | succ fuel ih =>
    unfold drain
    split
    · rfl
    · cases hcons : walk.queue with
      | nil => rfl
      | cons p queue =>
        rw [hcons] at hqueue
        have hp := agree p (hqueue List.mem_cons_self)
        obtain ⟨hkept, hfound⟩ := (expand_returns w root p index).runIn hs
        have hexpand : (w.equip tools).expandOrLeaf root p s = w.expandOrLeaf root p s := by
          unfold expandOrLeaf
          rw [expand_concur same (fun q hq => agree q (indexed hq)) hp s hs]
        dsimp only
        rw [hexpand]
        apply ih (resultOf_keeps (fun _ _ h => h) p _ hkept)
        apply Walk.queue_receive_subset
        · exact fun q hq => hqueue (List.mem_cons_of_mem p hq)
        · exact List.Subset.trans (resultOf_subset hfound _) indexed

theorem closure_equip (anew : s.index = none) {seed : Path} (hseed : tools.AgreeAt w.inspector seed)
    (agree : ∀ q ∈ w.inspector.listFiles root, tools.AgreeAt w.inspector q) (report : ρ) :
    (w.equip tools).closure reporter root seed report s =
      w.closure reporter root seed report s := by
  have hknown : ∀ q ∈ seed :: w.inspector.listFiles root, tools.AgreeAt w.inspector q := by
    simpa using ⟨hseed, agree⟩
  have hindexed : (w.prepare root s).1.paths ⊆ seed :: w.inspector.listFiles root := by
    simp only [prepare, anew]
    exact List.subset_cons_of_subset seed (NameIndex.paths_ofPaths_perm _).subset
  have hs : HasIndex (w.prepare root s).1 (w.prepare root s).2 := by
    simp only [prepare, anew]
    rfl
  have hqueue : (Walk.start seed report).queue ⊆ seed :: w.inspector.listFiles root := by
    simp [Walk.start]
  unfold closure
  rw [prepare_equip same]
  dsimp only
  rw [drain_equip same reporter hknown hindexed hs hqueue]

end Closure

end Listing

end Workbench

end BlobCensus
