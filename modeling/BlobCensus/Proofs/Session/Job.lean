import BlobCensus.Session

/-!
# Jobs among others

Several jobs may share a session, and between two accesses of one job the others may have changed
it. `Job.Ensures` says what holds all the same: at each access the session is any one that meets the
invariant. A job run alone is the case without others, and is taken apart at its binds.
-/
namespace BlobCensus.Job

variable {α β : Type} {inv : Session → Prop}

instance : LawfulMonad Job := LawfulMonad.mk' Job
  (by
    intro α job
    change job.bind (fun a => done (.ok (id a))) = job
    induction job with
    | done answer => cases answer <;> rfl
    | access change next ih => simp only [Job.bind, ih])
  (fun _ _ => rfl)
  (by
    intro α β γ job f g
    change (job.bind f).bind g = job.bind fun a => (f a).bind g
    induction job with
    | done answer => cases answer <;> rfl
    | access change next ih => simp only [Job.bind, ih])

/-- What a job may be after one access. -/
inductive Rest : Job α → Job α → Prop
  | access (change : Session → Session) (next : Session → Job α) (s : Session) :
    Rest (next s) (access change next)

theorem rest_wf : WellFounded (Rest (α := α)) := by
  refine ⟨fun job => ?_⟩
  induction job with
  | done answer => exact ⟨_, fun _ h => by cases h⟩
  | access change next ih =>
    refine ⟨_, fun _ h => ?_⟩
    cases h with
    | access _ _ s => exact ih s

/-- Whatever others do meanwhile, as long as they keep `inv` the job keeps it too, and its answer
satisfies `post`. -/
def Ensures (inv : Session → Prop) : Job α → (Except Breakdown α → Prop) → Prop
  | done answer, post => post answer
  | access change next, post => ∀ s, inv s → inv (change s) ∧ (next s).Ensures inv post

theorem Ensures.mono {job : Job α} {post post' : Except Breakdown α → Prop}
    (h : job.Ensures inv post) (imp : ∀ answer, post answer → post' answer) :
    job.Ensures inv post' := by
  induction job with
  | done answer => exact imp answer h
  | access change next ih => exact fun s hs => ⟨(h s hs).1, ih s (h s hs).2⟩

theorem Ensures.bind {job : Job α} {f : α → Job β} {post : Except Breakdown α → Prop}
    {post' : Except Breakdown β → Prop} (h : job.Ensures inv post)
    (ok : ∀ a, post (.ok a) → (f a).Ensures inv post')
    (error : ∀ breakdown, post (.error breakdown) → post' (.error breakdown)) :
    (job >>= f).Ensures inv post' := by
  induction job with
  | done answer =>
    cases answer with
    | ok a => exact ok a h
    | error breakdown => exact error breakdown h
  | access change next ih => exact fun s hs => ⟨(h s hs).1, ih s (h s hs).2⟩

theorem Ensures.runIn {job : Job α} {post : Except Breakdown α → Prop} (h : job.Ensures inv post)
    {s : Session} (hs : inv s) : inv (job.runIn s).2 ∧ post (job.runIn s).1 := by
  induction job generalizing s with
  | done answer => exact ⟨hs, h⟩
  | access change next ih => exact ih s (h s hs).2 (h s hs).1

@[simp] theorem runIn_pure (a : α) (s : Session) : (pure a : Job α).runIn s = (.ok a, s) := rfl

@[simp] theorem runIn_await (answer : Except Breakdown α) (s : Session) :
    (await answer).runIn s = (answer, s) := rfl

@[simp] theorem runIn_get (s : Session) : (get : Job Session).runIn s = (.ok s, s) := rfl

@[simp] theorem runIn_modify (change : Session → Session) (s : Session) :
    (modify change : Job PUnit).runIn s = (.ok ⟨⟩, change s) := rfl

theorem runIn_bind (job : Job α) (f : α → Job β) (s : Session) :
    (job >>= f).runIn s = match job.runIn s with
      | (.ok a, t) => (f a).runIn t
      | (.error breakdown, t) => (.error breakdown, t) := by
  induction job generalizing s with
  | done answer => cases answer <;> rfl
  | access change next ih => exact ih s (change s)

theorem runIn_bind_ok {job : Job α} {f : α → Job β} {a : α} {s t : Session}
    (h : job.runIn s = (.ok a, t)) : (job >>= f).runIn s = (f a).runIn t := by
  rw [runIn_bind, h]

theorem runIn_map (f : α → β) (job : Job α) (s : Session) :
    (f <$> job).runIn s = ((job.runIn s).1.map f, (job.runIn s).2) := by
  rw [map_eq_pure_bind, runIn_bind]
  split <;> simp_all [Except.map]

theorem exists_of_runIn_bind {job : Job α} {f : α → Job β} {b : β} {s u : Session}
    (h : (job >>= f).runIn s = (.ok b, u)) :
    ∃ a t, job.runIn s = (.ok a, t) ∧ (f a).runIn t = (.ok b, u) := by
  rw [runIn_bind] at h
  split at h
  · rename_i a t hjob
    exact ⟨a, t, hjob, h⟩
  · cases h

theorem ensures_get_bind {f : Session → Job β} {post : Except Breakdown β → Prop}
    (h : ∀ s, inv s → (f s).Ensures inv post) : (get >>= f).Ensures inv post :=
  fun s hs => ⟨hs, h s hs⟩

theorem ensures_modify_bind {change : Session → Session} {f : Unit → Job β}
    {post : Except Breakdown β → Prop} (keep : ∀ s, inv s → inv (change s))
    (h : (f ()).Ensures inv post) : (modify change >>= f).Ensures inv post :=
  fun s hs => ⟨keep s hs, h⟩

/-- The job has this answer whatever others do meanwhile. -/
def Answers (inv : Session → Prop) (job : Job α) (answer : Except Breakdown α) : Prop :=
  job.Ensures inv (· = answer)

theorem answers_pure (inv : Session → Prop) (a : α) : Answers inv (pure a) (.ok a) := rfl

theorem answers_await (inv : Session → Prop) (answer : Except Breakdown α) :
    Answers inv (await answer) answer := rfl

theorem Answers.bind {job : Job α} {f : α → Job β} {answer : Except Breakdown α}
    {next : α → Except Breakdown β} (h : Answers inv job answer)
    (hnext : ∀ a, answer = .ok a → Answers inv (f a) (next a)) :
    Answers inv (job >>= f) (answer >>= next) := by
  refine Ensures.bind h ?_ ?_
  · rintro a rfl
    exact hnext a rfl
  · rintro breakdown rfl
    rfl

theorem Answers.bind_ok {job : Job α} {f : α → Job β} {a : α} {answer : Except Breakdown β}
    (h : Answers inv job (.ok a)) (next : Answers inv (f a) answer) :
    Answers inv (job >>= f) answer := by
  refine Ensures.bind h ?_ ?_
  · rintro b hb
    cases hb
    exact next
  · rintro breakdown hb
    cases hb

theorem answers_mapM {f : α → Job β} {answer : α → Except Breakdown β} {xs : List α}
    (h : ∀ x ∈ xs, Answers inv (f x) (answer x)) :
    Answers inv (xs.mapM f) (xs.mapM answer) := by
  induction xs with
  | nil =>
    rw [List.mapM_nil, List.mapM_nil]
    exact answers_pure inv []
  | cons x rest ih =>
    rw [List.mapM_cons, List.mapM_cons]
    refine (h x (by simp)).bind fun y _ => ?_
    refine (ih fun z hz => h z (by simp [hz])).bind fun ys _ => ?_
    exact answers_pure inv (y :: ys)

/-- The answer of the job, if it comes to one, has the property. -/
def Returns (inv : Session → Prop) (job : Job α) (post : α → Prop) : Prop :=
  job.Ensures inv fun answer => ∀ a, answer = .ok a → post a

theorem returns_pure {a : α} {post : α → Prop} (h : post a) : Returns inv (pure a) post := by
  rintro b hb
  cases hb
  exact h

theorem Answers.returns {job : Job α} {answer : Except Breakdown α} {post : α → Prop}
    (h : Answers inv job answer) (imp : ∀ a, answer = .ok a → post a) : Returns inv job post :=
  h.mono fun _ he a ha => imp a (he.symm.trans ha)

theorem Returns.bind {job : Job α} {f : α → Job β} {post : α → Prop} {post' : β → Prop}
    (h : Returns inv job post) (next : ∀ a, post a → Returns inv (f a) post') :
    Returns inv (job >>= f) post' := by
  refine Ensures.bind h (fun a ha => next a (ha a rfl)) ?_
  rintro breakdown - b hb
  cases hb

theorem returns_mapM (post : β → Prop) {f : α → Job β} {xs : List α}
    (h : ∀ x ∈ xs, Returns inv (f x) post) : Returns inv (xs.mapM f) fun ys => ∀ y ∈ ys, post y := by
  induction xs with
  | nil =>
    rw [List.mapM_nil]
    exact returns_pure (by simp)
  | cons x rest ih =>
    rw [List.mapM_cons]
    refine (h x (by simp)).bind fun y hy => ?_
    refine (ih fun z hz => h z (by simp [hz])).bind fun ys hys => ?_
    exact returns_pure (by simpa using ⟨hy, hys⟩)

end BlobCensus.Job
