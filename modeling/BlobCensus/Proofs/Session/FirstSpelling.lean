import BlobCensus.Proofs.FirstOfKey
import BlobCensus.Proofs.Session.Scanning

/-!
# First spellings

A path is settled for all its spellings, but what is settled hangs on the text it is asked for with:
on the ending, and on what the tools say of it. So the first spelling decides for all later ones, and
the tools are asked about it alone.
-/
namespace BlobCensus

theorem Memo.find?_insert (memo : Memo) (p q : Path) (a : Architecture) :
    (memo.insert p a).find? q = if p.components = q.components then some a else memo.find? q := by
  simp only [insert, find?, List.lookup_cons]
  by_cases h : p.components = q.components
  · simp [h]
  · rw [if_neg h, beq_eq_false_iff_ne.mpr fun heq => h heq.symm]

theorem Memo.find?_congr (memo : Memo) {p q : Path} (h : p.Same q) : memo.find? p = memo.find? q := by
  rw [find?, find?, show p.components = q.components from h]

namespace Path

variable {p q : Path} {calls : List Path}

/-- The first of the calls that spells the path, if one does. -/
def spelling? (calls : List Path) (p : Path) : Option Path :=
  calls.find? fun q => q.components = p.components

/-- The first of the calls that spells the path, or the path itself if none does. -/
def firstSpelling (calls : List Path) (p : Path) : Path := (spelling? calls p).getD p

theorem spelling?_congr (h : p.Same q) : spelling? calls p = spelling? calls q := by
  unfold spelling?
  rw [show p.components = q.components from h]

theorem spelling?_eq_none : spelling? calls p = none ↔ p.components ∉ calls.map components := by
  simp [spelling?]

theorem spelling?_append (more : List Path) :
    spelling? (calls ++ more) p = (spelling? calls p).or (spelling? more p) := List.find?_append

theorem spelling?_singleton (p q : Path) :
    spelling? [p] q = if p.components = q.components then some p else none := by
  by_cases h : p.components = q.components <;> simp [spelling?, h]

theorem exists_spelling (hp : p ∈ calls) : ∃ q, spelling? calls p = some q :=
  Option.ne_none_iff_exists'.mp fun hnone => spelling?_eq_none.mp hnone (List.mem_map_of_mem hp)

theorem firstSpelling_same (calls : List Path) (p : Path) : (firstSpelling calls p).Same p := by
  unfold firstSpelling
  cases hfind : spelling? calls p with
  | none => rfl
  | some q =>
    have hsame : q.components = p.components := by simpa using List.find?_some hfind
    exact hsame

theorem firstSpelling_congr (h : p.Same q) (hp : p ∈ calls) :
    firstSpelling calls p = firstSpelling calls q := by
  obtain ⟨r, hr⟩ := exists_spelling hp
  rw [firstSpelling, firstSpelling, ← spelling?_congr h, hr]
  rfl

theorem firstSpelling_append_of_mem (hp : p ∈ calls) (more : List Path) :
    firstSpelling (calls ++ more) p = firstSpelling calls p := by
  obtain ⟨r, hr⟩ := exists_spelling hp
  rw [firstSpelling, firstSpelling, spelling?_append, hr]
  rfl

end Path

namespace Workbench

open Job BlobCensus.Path

variable {w : Workbench} {p : Path} {a : Architecture} {s₀ s t : Session} {before calls : List Path}

theorem classify_of_settled (h : s.memo.find? p = some a) : (w.classify p).runIn s = (.ok a, s) := by
  unfold classify
  rw [runIn_bind, runIn_get]
  simp [h]

/-- A path that is not settled yet is examined, and settled if the tools do not break down. -/
theorem classify_of_unsettled (h : s.memo.find? p = none) (ha : w.verdict p = .ok a) :
    (w.classify p).runIn s =
      (.ok a, (if w.Asks p then s.note (.described p) else s).settle p a) := by
  unfold classify
  rw [runIn_bind, runIn_get]
  simp only [h, runIn_bind, examine_runIn, ha, runIn_modify, runIn_pure]

theorem verdict_of_classify (h : s.memo.find? p = none) (hrun : (w.classify p).runIn s = (.ok a, t)) :
    w.verdict p = .ok a := by
  have hanswer := (classify_runIn w p s).1
  simpa [hrun, answerFor, h] using hanswer.symm

/-- A session in which these calls were made, and no others, since it stood as `s₀`: each path that was not
settled then is settled as its first spelling was found to be, and the tools were asked about the first
spellings of these paths. -/
structure SpellingHistory (w : Workbench) (s₀ : Session) (before : List Path) (s : Session) : Prop where
  memo : ∀ p, (s.memo.find? p).map .ok =
    ((s₀.memo.find? p).map .ok).or ((spelling? before p).map w.verdict)
  events : s.events = s₀.events ++
    ((firstsOf components before).filter fun p => w.Asks p ∧ s₀.memo.find? p = none).map .described

namespace SpellingHistory

theorem none (w : Workbench) (s : Session) : SpellingHistory w s [] s :=
  ⟨fun _ => (Option.or_none).symm, (List.append_nil _).symm⟩

variable (h : SpellingHistory w s₀ before s)
include h

theorem find?_eq_none :
    s.memo.find? p = .none ↔ s₀.memo.find? p = .none ∧ p.components ∉ before.map components := by
  rw [← Option.map_eq_none_iff, h.memo, Option.or_eq_none_iff, Option.map_eq_none_iff,
    Option.map_eq_none_iff, spelling?_eq_none]

/-- What a path is settled as is what its first spelling was answered. -/
theorem answer (hp : p ∈ before) :
    (s.memo.find? p).map .ok = some (w.answerFor s₀.memo (firstSpelling before p)) := by
  obtain ⟨q, hq⟩ := exists_spelling hp
  rw [h.memo, hq, answerFor, Memo.find?_congr _ (firstSpelling_same before p), firstSpelling, hq]
  cases s₀.memo.find? p <;> rfl

/-- A spelling of a path that is settled changes nothing. -/
theorem again (settled : s.memo.find? p = some a) : SpellingHistory w s₀ (before ++ [p]) s where
  memo q := by
    rw [h.memo, spelling?_append]
    cases hfind : spelling? before q with
    | some r => rfl
    | none =>
      cases hstart : s₀.memo.find? q with
      | some b => rfl
      | none =>
        have hother : p.components ≠ q.components := by
          intro hsame
          rw [s.memo.find?_congr hsame, h.find?_eq_none.mpr ⟨hstart, spelling?_eq_none.mp hfind⟩] at settled
          cases settled
        simp [spelling?_singleton, hother]
  events := by
    rw [h.events, firstsOf_concat]
    by_cases hold : p.components ∈ before.map components
    · rw [if_pos hold]
    · have hstart : s₀.memo.find? p ≠ .none := by
        intro hnone
        rw [h.find?_eq_none.mpr ⟨hnone, hold⟩] at settled
        cases settled
      simp [hold, hstart]

theorem new (unsettled : s.memo.find? p = .none) (ha : w.verdict p = .ok a) :
    SpellingHistory w s₀ (before ++ [p]) ((if w.Asks p then s.note (.described p) else s).settle p a) where
  memo q := by
    have hmemo : ((if w.Asks p then s.note (.described p) else s).settle p a).memo =
        s.memo.insert p a := by split <;> rfl
    rw [hmemo, Memo.find?_insert, spelling?_append]
    by_cases hsame : p.components = q.components
    · obtain ⟨hstart, hnew⟩ := h.find?_eq_none.mp ((s.memo.find?_congr hsame).symm.trans unsettled)
      simp [spelling?_singleton, hsame, hstart, spelling?_eq_none.mpr hnew, ha]
    · rw [if_neg hsame, h.memo]
      simp [spelling?_singleton, hsame]
  events := by
    have hevents : ((if w.Asks p then s.note (.described p) else s).settle p a).events =
        s.events ++ if w.Asks p then [.described p] else [] := by
      split
      · exact s.events_note _
      · exact (List.append_nil _).symm
    obtain ⟨hstart, hnew⟩ := h.find?_eq_none.mp unsettled
    rw [hevents, h.events, firstsOf_concat, if_neg hnew, List.filter_append, List.map_append,
      List.append_assoc]
    by_cases asks : w.Asks p <;> simp [asks, hstart]

/-- One call: the answer is what the first spelling of the path was answered. -/
theorem classify (hrun : (w.classify p).runIn s = (.ok a, t)) :
    w.answerFor s₀.memo (firstSpelling (before ++ [p]) p) = .ok a ∧
      SpellingHistory w s₀ (before ++ [p]) t := by
  have hnext : SpellingHistory w s₀ (before ++ [p]) t ∧ t.memo.find? p = some a := by
    cases hfind : s.memo.find? p with
    | some b =>
      rw [classify_of_settled hfind] at hrun
      cases hrun
      exact ⟨h.again hfind, hfind⟩
    | none =>
      have ha := verdict_of_classify hfind hrun
      rw [classify_of_unsettled hfind ha] at hrun
      cases hrun
      refine ⟨h.new hfind ha, ?_⟩
      change (Memo.insert _ p a).find? p = some a
      rw [Memo.find?_insert, if_pos rfl]
  obtain ⟨hhistory, hsettled⟩ := hnext
  have hanswer := hhistory.answer (p := p) (by simp)
  rw [hsettled] at hanswer
  exact ⟨(Option.some.inj hanswer).symm, hhistory⟩

theorem mapM_classify {tags : List Architecture}
    (hrun : (calls.mapM w.classify).runIn s = (.ok tags, t)) :
    tags.map .ok = calls.map (fun p => w.answerFor s₀.memo (firstSpelling (before ++ calls) p)) ∧
      SpellingHistory w s₀ (before ++ calls) t := by
  induction calls generalizing before s tags with
  | nil =>
    rw [List.mapM_nil] at hrun
    cases hrun
    exact ⟨rfl, by simpa using h⟩
  | cons p rest ih =>
    rw [List.mapM_cons] at hrun
    obtain ⟨a, s', hclassify, hrun⟩ := exists_of_runIn_bind hrun
    obtain ⟨as, s'', hrest, hrun⟩ := exists_of_runIn_bind hrun
    cases hrun
    obtain ⟨hanswer, hhistory⟩ := h.classify hclassify
    obtain ⟨hanswers, hhistory⟩ := ih hhistory hrest
    have hmem : p ∈ before ++ [p] := by simp
    have hfirst := firstSpelling_append_of_mem hmem rest
    rw [List.append_assoc, List.singleton_append] at hanswers hhistory hfirst
    refine ⟨?_, hhistory⟩
    rw [List.map_cons, List.map_cons, hanswers, hfirst, hanswer]

end SpellingHistory

theorem exists_mapM_classify (told : ∀ p ∈ calls, ∃ a, w.verdict p = .ok a) (s : Session) :
    ∃ tags t, (calls.mapM w.classify).runIn s = (.ok tags, t) := by
  induction calls generalizing s with
  | nil => exact ⟨[], s, rfl⟩
  | cons p rest ih =>
    obtain ⟨a, t, hclassify⟩ : ∃ a t, (w.classify p).runIn s = (.ok a, t) := by
      cases hfind : s.memo.find? p with
      | some a => exact ⟨a, s, classify_of_settled hfind⟩
      | none =>
        obtain ⟨a, ha⟩ := told p List.mem_cons_self
        exact ⟨a, _, classify_of_unsettled hfind ha⟩
    obtain ⟨tags, u, hrest⟩ := ih (fun q hq => told q (List.mem_cons_of_mem p hq)) t
    refine ⟨a :: tags, u, ?_⟩
    rw [List.mapM_cons, runIn_bind_ok hclassify, runIn_bind_ok hrest]
    rfl

/-- However often paths are classified, in whatever spellings and order: each call is answered with what
the first spelling of its path is found to be. The format is asked for once for each path whose first
spelling has no plain ending, with that spelling, and never if directories tell the architecture. So two
spellings of a path get the same answer, whatever was classified in between. -/
theorem classify_first_spelling (w : Workbench) (calls : List Path)
    (told : ∀ p ∈ calls, ∃ text, w.inspector.describe p = .ok text) :
    ∃ tags t, (calls.mapM w.classify).runIn {} = (.ok tags, t) ∧
      tags.map .ok = calls.map (fun p => w.verdict (firstSpelling calls p)) ∧
      t.events = ((firstsOf components calls).filter fun p => w.Asks p).map .described ∧
      (w.strategy = .directory → t.events = []) ∧
      ∀ (i j : ℕ) (p q : Path), calls[i]? = some p → calls[j]? = some q → p.Same q →
        tags[i]? = tags[j]? := by
  obtain ⟨tags, t, hrun⟩ := exists_mapM_classify (fun p hp => exists_verdict (told p hp)) {}
  obtain ⟨hanswers, hhistory⟩ := (SpellingHistory.none w {}).mapM_classify hrun
  have hfresh : ∀ p : Path, ({} : Session).memo.find? p = none := fun _ => rfl
  have hevents : t.events = ((firstsOf components calls).filter fun p => w.Asks p).map .described := by
    rw [hhistory.events]
    simp only [hfresh, and_true]
    rfl
  refine ⟨tags, t, hrun, hanswers, hevents, ?_, ?_⟩
  · intro hdirectory
    rw [hevents, List.map_eq_nil_iff, List.filter_eq_nil_iff]
    simp [Asks, hdirectory]
  · intro i j p q hi hj hsame
    have hanswer : ∀ (k : ℕ) (r : Path), calls[k]? = some r →
        tags[k]?.map .ok = some (w.verdict (firstSpelling calls r)) := by
      intro k r hk
      rw [← List.getElem?_map, hanswers, List.nil_append, List.getElem?_map, hk]
      rfl
    have hsame' := firstSpelling_congr hsame (List.mem_of_getElem? hi)
    have hinj : Function.Injective (Except.ok : Architecture → Except Breakdown Architecture) :=
      fun a b hab => Except.ok.inj hab
    apply Option.map_injective hinj
    rw [hanswer i p hi, hanswer j q hj, hsame']

def spelledBench : Workbench :=
  { settings := { nonBinaryExtensions := [".txt"] }
    strategy := .content
    inspector :=
      { listFiles := fun _ => []
        describe := fun _ => .ok "ELF 64-bit"
        texts := fun _ => .ok [] } }

def spelledCalls : List Path :=
  [.ofString "/a.txt/", .ofString "/b.txt", .ofString "//a.txt", .ofString "/./b.txt/"]

theorem classify_first_spelling_repeated :
    (∀ p ∈ spelledCalls, ∃ text, spelledBench.inspector.describe p = .ok text) ∧
    ∃ t, (spelledCalls.mapM spelledBench.classify).runIn {} =
        (.ok [.bits64, .unknown, .bits64, .unknown], t) ∧
      t.events = [.described (.ofString "/a.txt/")] := by
  have htold : ∀ p ∈ spelledCalls, ∃ text, spelledBench.inspector.describe p = .ok text := fun p _ => ⟨_, rfl⟩
  obtain ⟨tags, t, hrun, hanswers, hevents, -⟩ := classify_first_spelling spelledBench spelledCalls htold
  have hverdicts : spelledCalls.map (fun p => spelledBench.verdict (firstSpelling spelledCalls p)) =
      [.bits64, .unknown, .bits64, .unknown].map .ok := by decide +kernel
  have htags : tags = [.bits64, .unknown, .bits64, .unknown] :=
    List.map_injective_iff.mpr (fun a b hab => Except.ok.inj hab) (hanswers.trans hverdicts)
  refine ⟨htold, t, htags ▸ hrun, hevents.trans ?_⟩
  decide +kernel

end Workbench

end BlobCensus
