import BlobCensus.Proofs.Closure.Draining

/-!
# The course of a search

A search that expands one path after the other needs nothing of the session but the edges of each
path. `Walk.follow` is the search along given edges. If the tools are steady and no path has two
spellings, every faithful session leads to the same walk, and remains faithful.
-/
namespace BlobCensus

variable {ρ : Type}

namespace Walk

variable {edges other : Path → List Path} {reporter : Reporter ρ} {root : Path} {fuel more : ℕ}

/-- Receives the edges of each path in the order the paths were started, at most `fuel` times. -/
def follow (edges : Path → List Path) (reporter : Reporter ρ) (root : Path) : ℕ → Walk ρ → Walk ρ
  | 0, walk => walk
  | fuel + 1, walk =>
    if walk.pending = 0 then walk
    else
      match walk.queue with
      | [] => walk
      | p :: queue =>
        follow edges reporter root fuel (receive reporter root { walk with queue } (edges p))

theorem queue_receive_subset {walk : Walk ρ} {result known : List Path}
    (hqueue : walk.queue ⊆ known) (hresult : result ⊆ known) :
    (walk.receive reporter root result).queue ⊆ known := by
  obtain ⟨new, hnew, -, heq⟩ := exists_receive reporter root walk result
  rw [heq]
  exact List.append_subset.mpr ⟨hqueue, List.Subset.trans hnew hresult⟩

theorem follow_of_le {walk : Walk ρ} (h : fuel ≤ more)
    (done : (walk.follow edges reporter root fuel).pending = 0) :
    walk.follow edges reporter root more = walk.follow edges reporter root fuel := by
  induction fuel generalizing walk more with
  | zero =>
    have hpending : walk.pending = 0 := done
    cases more <;> simp [follow, hpending]
  | succ fuel ih =>
    obtain ⟨more, rfl⟩ : ∃ rest, more = rest + 1 := ⟨more - 1, by omega⟩
    unfold follow at done ⊢
    split
    · rfl
    · rename_i hpending
      rw [if_neg hpending] at done
      split
      · rfl
      · rename_i p queue hcons
        simp only [hcons] at done
        exact ih (by omega) done

/-- Only the edges of paths that come up matter. -/
theorem follow_congr {known : List Path} {walk : Walk ρ} (hqueue : walk.queue ⊆ known)
    (closed : ∀ p ∈ known, edges p ⊆ known) (same : ∀ p ∈ known, other p = edges p) :
    follow other reporter root fuel walk = follow edges reporter root fuel walk := by
  induction fuel generalizing walk with
  | zero => rfl
  | succ fuel ih =>
    unfold follow
    split
    · rfl
    · split
      · rfl
      · rename_i p queue hcons
        rw [hcons] at hqueue
        have hp : p ∈ known := hqueue List.mem_cons_self
        rw [same p hp]
        apply ih
        apply queue_receive_subset
        · exact fun q hq => hqueue (List.mem_cons_of_mem p hq)
        · exact closed p hp

end Walk

namespace Workbench

variable {w : Workbench} {root seed : Path} {play : List Path} {s : Session}

/-- The search along the edges, with as much fuel as a search is given. -/
def course (w : Workbench) (reporter : Reporter ρ) (root seed : Path) (report : ρ) : Walk ρ :=
  (Walk.start seed report).follow (w.edges root) reporter root
    ((w.inspector.listFiles root).length + 1)

section Steady

variable (spelling : Path.OneSpelling play) (listed : w.inspector.listFiles root ⊆ play)
  (faithful : s.Faithful w root play)
include spelling listed faithful

theorem drain_eq_follow (reporter : Reporter ρ) {walk : Walk ρ} (hqueue : walk.queue ⊆ play)
    (fuel : ℕ) :
    (w.drain reporter root fuel walk s).1 = walk.follow (w.edges root) reporter root fuel ∧
      (w.drain reporter root fuel walk s).2.Faithful w root play := by
  induction fuel generalizing walk s with
  | zero => exact ⟨rfl, faithful⟩
  | succ fuel ih =>
    unfold drain Walk.follow
    split
    · exact ⟨rfl, faithful⟩
    · cases hcons : walk.queue with
      | nil => exact ⟨rfl, faithful⟩
      | cons p queue =>
        rw [hcons] at hqueue
        have hp : p ∈ play := hqueue List.mem_cons_self
        have hedges := edges_subset spelling listed hp
        have hkept : (w.expandOrLeaf root p s).2.Faithful w root play := by
          have hrun := (expand_answers spelling listed hp).runIn faithful
          exact resultOf_keeps (fun _ e h => h.note e) p _ hrun.1
        dsimp only
        rw [expandOrLeaf_edges spelling listed hp faithful]
        apply ih hkept
        apply Walk.queue_receive_subset
        · exact fun q hq => hqueue (List.mem_cons_of_mem p hq)
        · exact List.Subset.trans hedges listed

theorem closure_eq_course (reporter : Reporter ρ) (report : ρ) (hseed : seed ∈ play) :
    ∃ t : Session, t.Faithful w root play ∧
      w.closure reporter root seed report s =
        ((w.course reporter root seed report).outcome seed,
          (w.course reporter root seed report).report, t) := by
  have hsize : (w.prepare root s).1.size = (w.inspector.listFiles root).length := by
    rw [faithful.prepare.1, NameIndex.size, (NameIndex.paths_ofPaths_perm _).length_eq]
  have hqueue : (Walk.start seed report).queue ⊆ play := by simpa [Walk.start] using hseed
  have hdrain := drain_eq_follow spelling listed faithful.prepare.2 reporter hqueue
    ((w.inspector.listFiles root).length + 1)
  refine ⟨_, hdrain.2, ?_⟩
  simp only [closure, course, hsize, hdrain.1]

omit faithful in
theorem pending_course (reporter : Reporter ρ) (report : ρ) (hseed : seed ∈ play) :
    (w.course reporter root seed report).pending = 0 := by
  have hfresh := Session.Faithful.fresh w root play
  have hsize : (w.prepare root {}).1.size = (w.inspector.listFiles root).length := by
    rw [hfresh.prepare.1, NameIndex.size, (NameIndex.paths_ofPaths_perm _).length_eq]
  have hqueue : (Walk.start seed report).queue ⊆ play := by simpa [Walk.start] using hseed
  have hdrain := drain_eq_follow spelling listed hfresh.prepare.2 reporter hqueue
    ((w.inspector.listFiles root).length + 1)
  obtain ⟨-, last, after, hrun, -, finished, -⟩ :=
    Crew.run_search { workers := 1, bench := w, reporter, root } seed report {}
  simp only [hsize] at hrun
  rw [course, ← hdrain.1, hrun]
  exact finished.2

end Steady

end Workbench

end BlobCensus
