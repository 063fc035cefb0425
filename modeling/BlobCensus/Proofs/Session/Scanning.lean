import BlobCensus.Proofs.Session.Expansion

/-!
# Scans run alone

What a session answers and remembers when files are scanned one after the other. Taking stock reads
no texts of a file whose name is taken; `Inventory.ofScans` is the stock of blobs that were all
scanned, and both come to the same.
-/
namespace BlobCensus

/-- Tools that never break down. -/
structure Inspector.Reliable (inspector : Inspector) : Prop where
  describe : ∀ p, ∃ text, inspector.describe p = .ok text
  texts : ∀ p, ∃ texts, inspector.texts p = .ok texts

namespace Workbench

open Job

variable {w : Workbench} {p : Path} {a : Architecture} {b : Blob} {s t : Session}

/-- The architecture of a path for a session with this memo. -/
def answerFor (w : Workbench) (memo : Memo) (p : Path) : Except Breakdown Architecture :=
  match memo.find? p with
  | some a => .ok a
  | none => w.verdict p

def learn (w : Workbench) (memo : Memo) (p : Path) : Memo :=
  match memo.find? p, w.verdict p with
  | none, .ok a => memo.insert p a
  | _, _ => memo

theorem classify_runIn (w : Workbench) (p : Path) (s : Session) :
    ((w.classify p).runIn s).1 = w.answerFor s.memo p ∧
      ((w.classify p).runIn s).2.memo = w.learn s.memo p := by
  have hmemo : (if w.Asks p then s.note (.described p) else s).memo = s.memo := by split <;> rfl
  unfold classify answerFor learn
  rw [runIn_bind, runIn_get]
  cases hfind : s.memo.find? p with
  | some a => simp [hfind]
  | none =>
    simp only [hfind, runIn_bind, examine_runIn]
    cases w.verdict p with
    | ok a => simp [Session.settle, hmemo]
    | error breakdown => simpa using hmemo

theorem classify_of_memo_eq (hmemo : s.memo = t.memo) {a : Architecture} {u : Session}
    (h : (w.classify p).runIn s = (.ok a, u)) :
    ∃ v, (w.classify p).runIn t = (.ok a, v) ∧ u.memo = v.memo := by
  have hs := classify_runIn w p s
  have ht := classify_runIn w p t
  rw [h, hmemo] at hs
  refine ⟨((w.classify p).runIn t).2, ?_, hs.2.trans ht.2.symm⟩
  exact Prod.ext (ht.1.trans hs.1.symm) rfl

/-- A blob as a scan makes it: the file's own name, and if the architecture is known the references
that are read from the file in any session. -/
structure Scanned (w : Workbench) (b : Blob) : Prop where
  name : b.name = b.path.baseName
  texts : b.isKnown = true → ∀ s, ∃ t, (w.scanAs b.path b.architecture).runIn s = (.ok b, t)

theorem scanAs_eq (w : Workbench) (p : Path) (a : Architecture) (s : Session) :
    (w.scanAs p a).runIn s = (w.blobAs p a, s.note (.extracted p)) := by
  unfold scanAs blobAs
  rw [runIn_bind, runIn_modify]
  simp only [runIn_bind, runIn_await]
  cases w.inspector.texts p <;> rfl

theorem blobAs_of_texts {texts : List String} (h : w.inspector.texts p = .ok texts) (a : Architecture) :
    w.blobAs p a = .ok ⟨p, p.baseName, a, references w.settings p.baseName texts⟩ := by
  rw [blobAs, h]
  rfl

theorem of_blobAs (h : w.blobAs p a = .ok b) :
    b.path = p ∧ b.architecture = a ∧ b.name = p.baseName := by
  unfold blobAs at h
  cases htexts : w.inspector.texts p with
  | error breakdown =>
    rw [htexts] at h
    cases h
  | ok texts =>
    rw [htexts] at h
    cases h
    exact ⟨rfl, rfl, rfl⟩

theorem scanAs_runIn (h : (w.scanAs p a).runIn s = (.ok b, t)) :
    b.path = p ∧ b.architecture = a ∧ b.name = p.baseName ∧ t.memo = s.memo ∧
      ∀ u, ∃ v, (w.scanAs p a).runIn u = (.ok b, v) := by
  rw [scanAs_eq, Prod.mk.injEq] at h
  obtain ⟨hb, rfl⟩ := h
  obtain ⟨hpath, harchitecture, hname⟩ := of_blobAs hb
  exact ⟨hpath, harchitecture, hname, rfl, fun u => ⟨_, by rw [scanAs_eq, hb]⟩⟩

/-- A scan is a classification, and for a known architecture the reading of the texts. -/
theorem scan_runIn {b : Blob} {u : Session} (h : (w.scan p).runIn s = (.ok b, u)) :
    b.path = p ∧ w.Scanned b ∧
      ∃ t, (w.classify p).runIn s = (.ok b.architecture, t) ∧ u.memo = t.memo := by
  obtain ⟨a, t, hclass, hrest⟩ := exists_of_runIn_bind h
  by_cases known : a.isKnown = true
  · rw [if_pos known] at hrest
    obtain ⟨rfl, rfl, hname, hmemo, hany⟩ := scanAs_runIn hrest
    exact ⟨rfl, ⟨hname, fun _ => hany⟩, t, hclass, hmemo⟩
  · rw [if_neg known] at hrest
    cases hrest
    exact ⟨rfl, ⟨rfl, fun hknown => absurd hknown known⟩, _, hclass, rfl⟩

theorem scan_of_reliable (reliable : w.inspector.Reliable) (p : Path) (s : Session) :
    ∃ b t, (w.scan p).runIn s = (.ok b, t) := by
  obtain ⟨a, ha⟩ : ∃ a, w.answerFor s.memo p = .ok a := by
    unfold answerFor
    split
    · exact ⟨_, rfl⟩
    · exact exists_verdict (reliable.describe p)
  have hclass : (w.classify p).runIn s = (.ok a, ((w.classify p).runIn s).2) :=
    Prod.ext ((classify_runIn w p s).1.trans ha) rfl
  obtain ⟨texts, htexts⟩ := reliable.texts p
  unfold scan
  rw [runIn_bind_ok hclass]
  split
  · rw [scanAs_eq, blobAs_of_texts htexts]
    exact ⟨_, _, rfl⟩
  · exact ⟨_, _, rfl⟩

theorem mapM_scan_of_reliable (reliable : w.inspector.Reliable) (files : List Path) (s : Session) :
    ∃ blobs t, (files.mapM w.scan).runIn s = (.ok blobs, t) := by
  induction files generalizing s with
  | nil => exact ⟨[], s, rfl⟩
  | cons p rest ih =>
    obtain ⟨b, t, hb⟩ := scan_of_reliable reliable p s
    obtain ⟨blobs, u, hrest⟩ := ih t
    refine ⟨b :: blobs, u, ?_⟩
    rw [List.mapM_cons, runIn_bind_ok hb, runIn_bind_ok hrest]
    rfl

def heading (b : Blob) : Path × Architecture := (b.path, b.architecture)

theorem mapM_classify_of_mapM_scan {files : List Path} {blobs : List Blob} {u : Session}
    (hmemo : s.memo = t.memo) (h : (files.mapM w.scan).runIn s = (.ok blobs, u)) :
    (∀ b ∈ blobs, w.Scanned b) ∧
      ∃ v, (files.mapM fun p => return (p, ← w.classify p)).runIn t =
        (.ok (blobs.map heading), v) := by
  induction files generalizing s t blobs with
  | nil =>
    rw [List.mapM_nil] at h
    cases h
    exact ⟨by simp, t, rfl⟩
  | cons p rest ih =>
    rw [List.mapM_cons] at h
    obtain ⟨b, s', hscan, h⟩ := exists_of_runIn_bind h
    obtain ⟨bs, s'', hrest, h⟩ := exists_of_runIn_bind h
    cases h
    obtain ⟨rfl, hscanned, c, hclass, hlearned⟩ := scan_runIn hscan
    obtain ⟨t', hclass', hmemo'⟩ := classify_of_memo_eq hmemo hclass
    obtain ⟨hall, v, hv⟩ := ih (hlearned.trans hmemo') hrest
    refine ⟨by simpa using ⟨hscanned, hall⟩, v, ?_⟩
    rw [List.mapM_cons, bind_assoc, runIn_bind_ok hclass', pure_bind, runIn_bind_ok hv]
    rfl

theorem mapM_scanAs (blobs : List Blob) (scanned : ∀ b ∈ blobs, w.Scanned b)
    (known : ∀ b ∈ blobs, b.isKnown = true) (s : Session) :
    ∃ t, ((blobs.map heading).mapM fun (p, a) => w.scanAs p a).runIn s = (.ok blobs, t) := by
  induction blobs generalizing s with
  | nil => exact ⟨s, rfl⟩
  | cons b rest ih =>
    obtain ⟨t, ht⟩ := (scanned b (by simp)).texts (known b (by simp)) s
    obtain ⟨u, hu⟩ := ih (fun c hc => scanned c (by simp [hc])) (fun c hc => known c (by simp [hc])) t
    refine ⟨u, ?_⟩
    rw [List.map_cons, List.mapM_cons]
    change (w.scanAs b.path b.architecture >>= _).runIn s = _
    rw [runIn_bind_ok ht, runIn_bind_ok hu]
    rfl

end Workbench

namespace Inventory

/-- Takes a blob of known architecture into the stock. -/
def enter (stock : Inventory) (b : Blob) : Inventory :=
  if b.name ∈ stock.blobs.map Blob.name then
    { stock with duplicates := stock.duplicates ++ [(b.name, b.architecture)] }
  else { stock with blobs := stock.blobs ++ [b] }

/-- The stock of blobs that were all scanned. -/
def ofScans (blobs : List Blob) : Inventory := (blobs.filter Blob.isKnown).foldl enter ⟨[], []⟩

end Inventory

namespace Workbench

open Job Inventory

variable {w : Workbench} {s : Session}

/-- Splitting by names is entering the blobs one by one. -/
theorem partitionNames_headings (taken : List String) (stock : Inventory) (blobs : List Blob)
    (htaken : ∀ name, name ∈ taken ↔ name ∈ stock.blobs.map Blob.name)
    (hname : ∀ b ∈ blobs, b.name = b.path.baseName) :
    ∃ firsts ⊆ blobs, (partitionNames taken (blobs.map heading)).1 = firsts.map heading ∧
      blobs.foldl enter stock = ⟨stock.blobs ++ firsts,
        stock.duplicates ++ (partitionNames taken (blobs.map heading)).2⟩ := by
  induction blobs generalizing taken stock with
  | nil => exact ⟨[], by simp, rfl, by simp [partitionNames]⟩
  | cons b rest ih =>
    have hb := hname b (by simp)
    have hrest : ∀ c ∈ rest, c.name = c.path.baseName := fun c hc => hname c (by simp [hc])
    simp only [List.map_cons, heading, partitionNames, List.foldl_cons, ← hb]
    by_cases hold : b.name ∈ taken
    · have henter : stock.enter b =
          { stock with duplicates := stock.duplicates ++ [(b.name, b.architecture)] } :=
        if_pos ((htaken _).mp hold)
      obtain ⟨firsts, hsub, hfirsts, hfold⟩ := ih taken (stock.enter b)
        (by simpa [henter] using htaken) hrest
      refine ⟨firsts, fun c hc => List.mem_cons_of_mem _ (hsub hc), ?_, ?_⟩
      · simpa [hold] using hfirsts
      · rw [hfold, henter]
        simp [hold]
    · have henter : stock.enter b = { stock with blobs := stock.blobs ++ [b] } :=
        if_neg fun h => hold ((htaken _).mpr h)
      obtain ⟨firsts, hsub, hfirsts, hfold⟩ := ih (b.name :: taken) (stock.enter b)
        (by simp [henter, htaken, or_comm]) hrest
      refine ⟨b :: firsts, ?_, ?_, ?_⟩
      · exact List.cons_subset_cons b hsub
      · simpa [hold, heading] using hfirsts
      · rw [hfold, henter]
        simp [hold]

/-- Taking stock of files comes to the stock of their scans. -/
theorem scanAll_of_mapM_scan {files : List Path} {blobs : List Blob} {u : Session}
    (h : (files.mapM w.scan).runIn s = (.ok blobs, u)) :
    ((w.scanAll files).runIn s).1 = .ok (ofScans blobs) := by
  obtain ⟨scanned, t, hclassified⟩ := mapM_classify_of_mapM_scan (t := s) rfl h
  have hknown : (blobs.map heading).filter (·.2.isKnown) =
      (blobs.filter Blob.isKnown).map heading := by
    rw [List.filter_map]
    rfl
  obtain ⟨firsts, hsub, hfirsts, hfold⟩ := partitionNames_headings [] ⟨[], []⟩
    (blobs.filter Blob.isKnown) (by simp)
    fun b hb => (scanned b (List.mem_filter.mp hb).1).name
  obtain ⟨v, hscans⟩ := mapM_scanAs firsts
    (fun b hb => scanned b (List.mem_filter.mp (hsub hb)).1)
    (fun b hb => (List.mem_filter.mp (hsub hb)).2) t
  unfold scanAll
  rw [runIn_bind_ok hclassified]
  simp only [hknown, hfirsts]
  rw [runIn_bind_ok hscans, ofScans, hfold]
  simp

end Workbench

end BlobCensus
