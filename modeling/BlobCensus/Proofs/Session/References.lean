import BlobCensus.Proofs.FirstOfKey
import BlobCensus.Proofs.Session.Resolution
import BlobCensus.Proofs.Session.Scanning

/-!
# References of a scan

From the texts of a file a scan takes those that name a library, each once and in the order in which they
come first. Which texts these are hangs on the settings and on the file's own name alone. Without a known
architecture nothing is taken, and the texts are not even asked for.
-/
namespace BlobCensus

/-- A text that names a library to be told: it ends as library names do, is not cut from a longer text,
and is neither a name to ignore nor the file's own. -/
structure Workbench.IsReference (settings : Settings) (ownName text : String) : Prop where
  ending : ∃ front, text = front ++ settings.librarySuffix
  uncut : ∀ c ∈ text.toList, c ∉ settings.separators
  heeded : text ∉ settings.ignoredLibraries ∧ text ∉ settings.extraIgnoredLibraries
  foreign : text ≠ ownName

theorem LibraryRule.isSuffixOf_iff (suffix text : String) :
    suffix.toList.isSuffixOf text.toList = true ↔ ∃ front, text = front ++ suffix := by
  rw [List.isSuffixOf_iff_suffix]
  constructor
  · intro h
    obtain ⟨front, hfront⟩ := h
    refine ⟨String.ofList front, ?_⟩
    rw [← String.toList_inj, String.toList_append, String.toList_ofList, hfront]
  · intro h
    obtain ⟨front, rfl⟩ := h
    exact ⟨front.toList, by rw [String.toList_append]⟩

namespace Workbench

open Job

variable {w : Workbench} {p : Path} {settings : Settings} {ownName text : String}
  {texts names others : List String}

theorem isReference_iff : IsReference settings ownName text ↔
    ((LibraryRule.ofSettings settings).accepts text && text != ownName) = true := by
  simp only [LibraryRule.accepts, LibraryRule.ignores, LibraryRule.ofSettings, Bool.and_eq_true,
    LibraryRule.isSuffixOf_iff, Bool.not_eq_true', List.any_eq_false, List.contains_eq_mem,
    decide_eq_true_eq, decide_eq_false_iff_not, List.mem_append, not_or, bne_iff_ne, ne_eq]
  constructor
  · intro h
    exact ⟨⟨⟨h.ending, h.uncut⟩, h.heeded⟩, h.foreign⟩
  · intro h
    exact ⟨h.1.1.1, h.1.1.2, h.1.2, h.2⟩

/-- The references among the texts of a file: each once, in the order in which they come first. -/
structure FirstReferences (settings : Settings) (ownName : String) (texts names : List String) : Prop where
  nodup : names.Nodup
  mem_iff : ∀ name, name ∈ names ↔ name ∈ texts ∧ IsReference settings ownName name
  inOrder : names.Pairwise fun a b => texts.idxOf a < texts.idxOf b

theorem FirstReferences.unique (h : FirstReferences settings ownName texts names)
    (g : FirstReferences settings ownName texts others) : names = others := by
  have hperm : names.Perm others :=
    (List.perm_ext_iff_of_nodup h.nodup g.nodup).mpr fun name => by rw [h.mem_iff, g.mem_iff]
  refine hperm.eq_of_pairwise (fun a b _ _ hab hba => ?_) h.inOrder g.inOrder
  exact absurd hab (Nat.lt_asymm hba)

theorem firstReferences_references (settings : Settings) (ownName : String) (texts : List String) :
    FirstReferences settings ownName texts (references settings ownName texts) where
  nodup := by
    rw [references, eraseDups_eq_firstsOf, ← List.map_id (firstsOf id _)]
    exact nodup_firstsOf
  mem_iff name := by rw [references, List.mem_eraseDups, List.mem_filter, isReference_iff]
  inOrder := by
    rw [references, eraseDups_filter]
    exact (pairwise_eraseDups texts).filter _

/-- Whatever a file is classified as, its references are the first occurrences among
its texts, which are asked for once. A scan classifies the file and comes to the same, unless the
architecture is unknown: then it takes nothing, and the texts are not asked for. -/
theorem scan_references (w : Workbench) (p : Path) (s : Session) :
    (∀ texts, w.inspector.texts p = .ok texts → ∃ names,
      FirstReferences w.settings p.baseName texts names ∧
      (∀ others, FirstReferences w.settings p.baseName texts others → others = names) ∧
      (∀ a, (w.scanAs p a).runIn s = (.ok ⟨p, p.baseName, a, names⟩, s.note (.extracted p))) ∧
      ∀ a t, a.isKnown = true → (w.classify p).runIn s = (.ok a, t) →
        (w.scan p).runIn s = (.ok ⟨p, p.baseName, a, names⟩, t.note (.extracted p))) ∧
    ∀ a t, a.isKnown = false → (w.classify p).runIn s = (.ok a, t) →
      (w.scan p).runIn s = (.ok ⟨p, p.baseName, a, []⟩, t) ∧
      ∃ asked, t.events = s.events ++ asked ∧ ∀ e ∈ asked, e = .described p := by
  constructor
  · intro texts htexts
    have hfirsts := firstReferences_references w.settings p.baseName texts
    refine ⟨_, hfirsts, fun others h => h.unique hfirsts, fun a => ?_, fun a t known hclassify => ?_⟩
    · rw [scanAs_eq, blobAs_of_texts htexts]
    · unfold scan
      rw [runIn_bind_ok hclassify, if_pos known, scanAs_eq, blobAs_of_texts htexts]
  · intro a t unknown hclassify
    obtain ⟨-, asked, hevents, hasked⟩ := classify_notes w p s
    rw [hclassify] at hevents
    refine ⟨?_, asked, hevents, hasked⟩
    unfold scan
    rw [runIn_bind_ok hclassify, if_neg (by simp [unknown])]
    rfl

def mixedTextsBench : Workbench :=
  { settings := { ignoredLibraries := ["c.so"], extraIgnoredLibraries := ["d.so"] }
    strategy := .directory
    inspector :=
      { listFiles := fun _ => []
        describe := fun _ => .error {}
        texts := fun p =>
          if p = .ofString "/lib64/x.so" then
            .ok ["b.so", "c.so", "x.so", "a.so", " e.so", "b.so", "d.so", "f.so.1", "é%s.so"]
          else .error {} } }

theorem scan_references_mixed_texts :
    (∃ texts, mixedTextsBench.inspector.texts (.ofString "/lib64/x.so") = .ok texts) ∧
    (∃ t, (mixedTextsBench.classify (.ofString "/lib64/x.so")).runIn {} = (.ok .bits64, t) ∧
      (mixedTextsBench.scan (.ofString "/lib64/x.so")).runIn {} =
        (.ok ⟨.ofString "/lib64/x.so", "x.so", .bits64, ["b.so", "a.so", "é%s.so"]⟩,
          t.note (.extracted (.ofString "/lib64/x.so")))) ∧
    ∃ t, (mixedTextsBench.classify (.ofString "/etc/x.so")).runIn {} = (.ok .unknown, t) ∧
      (mixedTextsBench.scan (.ofString "/etc/x.so")).runIn {} =
        (.ok ⟨.ofString "/etc/x.so", "x.so", .unknown, []⟩, t) := by
  have htexts : mixedTextsBench.inspector.texts (.ofString "/lib64/x.so") =
      .ok ["b.so", "c.so", "x.so", "a.so", " e.so", "b.so", "d.so", "f.so.1", "é%s.so"] := rfl
  have hknown : ((mixedTextsBench.classify (.ofString "/lib64/x.so")).runIn {}).1 = .ok .bits64 := by
    decide +kernel
  have hunknown : ((mixedTextsBench.classify (.ofString "/etc/x.so")).runIn {}).1 = .ok .unknown := by
    decide +kernel
  have hblob : ((mixedTextsBench.scan (.ofString "/lib64/x.so")).runIn {}).1 =
      .ok ⟨.ofString "/lib64/x.so", "x.so", .bits64, ["b.so", "a.so", "é%s.so"]⟩ := by decide +kernel
  have hname : (Path.ofString "/etc/x.so").baseName = "x.so" := by decide +kernel
  obtain ⟨hreads, -⟩ := scan_references mixedTextsBench (.ofString "/lib64/x.so") {}
  obtain ⟨names, -, -, -, hscan⟩ := hreads _ htexts
  have hfirst := hscan .bits64 _ rfl (Prod.ext hknown rfl)
  obtain ⟨-, hskips⟩ := scan_references mixedTextsBench (.ofString "/etc/x.so") {}
  obtain ⟨hsecond, -⟩ := hskips .unknown _ rfl (Prod.ext hunknown rfl)
  rw [hname] at hsecond
  rw [hfirst] at hblob
  refine ⟨⟨_, htexts⟩, ⟨_, Prod.ext hknown rfl, ?_⟩, _, Prod.ext hunknown rfl, hsecond⟩
  rw [hfirst]
  exact Prod.ext hblob rfl

end Workbench

end BlobCensus
