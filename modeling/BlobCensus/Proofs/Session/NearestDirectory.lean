import BlobCensus.Proofs.Disk.Below
import BlobCensus.Proofs.Session.FirstSpelling
import BlobCensus.Proofs.Text.Utf8

/-!
# The nearest directory that tells

Where directories tell the architecture, the one with a telling name that is nearest to the file decides.
Neither the directories above it nor the name of the file count, and how the path is spelled does not
either.
-/
namespace BlobCensus

/-- A segment that is a name in any path: not empty, no dot, not `..`, and in one piece. -/
structure Segment.IsNormal (s : Segment) : Prop where
  noSlash : slash ∉ s
  named : Component.ofSegment? s = some (.name s)

/-- The name of a directory that tells a width. -/
def Component.Tells (dirs : ArchDirs) (c : Component) : Prop :=
  c = .name (Utf8.encode dirs.lib32) ∨ c = .name (Utf8.encode dirs.lib64)

namespace Path

variable {p : Path} {bytes : List UInt8} {n first : Segment} {rest : List Segment}

theorem eq_nil_of_isAbsolute (h : p.isAbsolute = true) (hsplit : p.bytes.splitOn slash = first :: rest) :
    first = [] := by
  rw [isAbsolute, beq_iff_eq, List.head?_eq_some_iff] at h
  obtain ⟨below, hbytes⟩ := h
  rw [hbytes, List.splitOn_cons_eq_if_modifyHead, if_pos (beq_self_eq_true slash)] at hsplit
  exact (List.cons.inj hsplit).1.symm

/-- A normal name behind a slash is one more component. -/
theorem components_slash_name (hbytes : bytes ≠ []) (hn : n.IsNormal) :
    (Path.mk (bytes ++ slash :: n)).components = (Path.mk bytes).components ++ [.name n] := by
  obtain ⟨first, rest, hsplit⟩ := List.exists_cons_of_ne_nil (List.splitOn_ne_nil slash bytes)
  have hlonger : (bytes ++ slash :: n).splitOn slash = first :: (rest ++ [n]) := by
    rw [List.splitOn_append_cons_self, hsplit, List.splitOn_eq_singleton hn.noSlash]
    rfl
  have habsolute : (Path.mk (bytes ++ slash :: n)).isAbsolute = (Path.mk bytes).isAbsolute := by
    obtain ⟨byte, bytes, rfl⟩ := List.exists_cons_of_ne_nil hbytes
    rfl
  rw [components_of_splitOn hlonger, components_of_splitOn hsplit, habsolute, List.filterMap_append,
    List.append_assoc]
  simp [hn.named]

theorem directories_of_same (hbytes : bytes ≠ []) (hn : n.IsNormal) (h : p.Same ⟨bytes ++ slash :: n⟩) :
    p.directories = (Path.mk bytes).components := by
  rw [directories, show p.components = _ from h, components_slash_name hbytes hn, List.dropLast_concat]

end Path

namespace Workbench

open Job

variable {dirs : ArchDirs} {c : Component} {directories above below : List Component} {a : Architecture}

theorem ofDirectory?_eq_none_iff : ofDirectory? dirs c = none ↔ ¬ c.Tells dirs := by
  cases c <;> grind [ofDirectory?, Component.Tells]

theorem ofDirectory?_eq_bits32_iff :
    ofDirectory? dirs c = some .bits32 ↔ c = .name (Utf8.encode dirs.lib32) := by
  cases c <;> grind [ofDirectory?]

theorem ofDirectory?_eq_bits64_iff : ofDirectory? dirs c = some .bits64 ↔
    dirs.lib64 ≠ dirs.lib32 ∧ c = .name (Utf8.encode dirs.lib64) := by
  rw [ne_eq, ← Utf8.encode_injective.eq_iff]
  cases c <;> grind [ofDirectory?]

theorem ofDirectory?_ne_unknown : ofDirectory? dirs c ≠ some .unknown := by
  cases c <;> grind [ofDirectory?]

/-- What the nearest of the directories that tell a width tells. -/
def toldBy (dirs : ArchDirs) (directories : List Component) : Option Architecture :=
  directories.reverse.findSome? (ofDirectory? dirs)

theorem ofDirectories_eq (dirs : ArchDirs) (p : Path) :
    ofDirectories dirs p = (toldBy dirs p.directories).getD .unknown := rfl

theorem toldBy_append :
    toldBy dirs (above ++ below) = (toldBy dirs below).or (toldBy dirs above) := by
  simp [toldBy, List.findSome?_append]

theorem toldBy_eq_none_iff : toldBy dirs directories = none ↔ ∀ c ∈ directories, ¬ c.Tells dirs := by
  simp [toldBy, ofDirectory?_eq_none_iff]

theorem toldBy_eq_some_iff : toldBy dirs directories = some a ↔
    ∃ above c below, directories = above ++ c :: below ∧ ofDirectory? dirs c = some a ∧
      ∀ d ∈ below, ¬ d.Tells dirs := by
  rw [toldBy, List.findSome?_eq_some_iff]
  simp only [ofDirectory?_eq_none_iff]
  constructor
  · rintro ⟨below, c, above, hreverse, hc, hbelow⟩
    refine ⟨above.reverse, c, below.reverse, ?_, hc, by simpa using hbelow⟩
    simpa using congrArg List.reverse hreverse
  · rintro ⟨above, c, below, rfl, hc, hbelow⟩
    exact ⟨below.reverse, c, above.reverse, by simp, hc, by simpa using hbelow⟩

theorem toldBy_ne_unknown : toldBy dirs directories ≠ some .unknown := by
  intro h
  obtain ⟨_, _, _, _, hc, _⟩ := toldBy_eq_some_iff.mp h
  exact ofDirectory?_ne_unknown hc

theorem exists_toldBy (tells : ∃ c ∈ directories, c.Tells dirs) :
    ∃ a, toldBy dirs directories = some a := by
  obtain ⟨c, hc, htells⟩ := tells
  rw [← Option.ne_none_iff_exists', ne_eq, toldBy_eq_none_iff]
  exact fun hnone => hnone c hc htells

/-- The last of the directories that tells a width has this name. -/
def Nearest (dirs : ArchDirs) (directories : List Component) (name : String) : Prop :=
  ∃ above below, directories = above ++ .name (Utf8.encode name) :: below ∧
    ∀ c ∈ below, ¬ c.Tells dirs

/-- The architecture that directories tell. A name for both widths stands for the narrow one. -/
def Told (dirs : ArchDirs) (directories : List Component) : Architecture → Prop
  | .bits32 => Nearest dirs directories dirs.lib32
  | .bits64 => dirs.lib64 ≠ dirs.lib32 ∧ Nearest dirs directories dirs.lib64
  | .unknown => ∀ c ∈ directories, ¬ c.Tells dirs

theorem ofDirectories_eq_iff {p : Path} :
    ofDirectories dirs p = a ↔ Told dirs p.directories a := by
  rw [ofDirectories_eq, Option.getD_eq_iff]
  cases a with
  | bits32 => simp [Told, Nearest, toldBy_eq_some_iff, ofDirectory?_eq_bits32_iff]
  | bits64 => simp [Told, Nearest, toldBy_eq_some_iff, ofDirectory?_eq_bits64_iff, and_left_comm]
  | unknown => simp [Told, toldBy_eq_none_iff, toldBy_ne_unknown]

/-- The place of a segment in a text does not matter to what it tells: a root and a leading dot are no
names. -/
theorem toldBy_components (dirs : ArchDirs) (p : Path) : toldBy dirs p.components =
    toldBy dirs ((p.bytes.splitOn slash).filterMap Component.ofSegment?) := by
  obtain ⟨first, rest, hsplit⟩ := List.exists_cons_of_ne_nil (List.splitOn_ne_nil slash p.bytes)
  have hfirst : toldBy dirs (if p.isAbsolute then some .root else if first = [0x2E] then some .here
      else Component.ofSegment? first).toList = toldBy dirs ([first].filterMap Component.ofSegment?) := by
    split
    · rename_i habsolute
      rw [Path.eq_nil_of_isAbsolute habsolute hsplit]
      rfl
    · split
      · rename_i hdot
        subst hdot
        rfl
      · cases hsegment : Component.ofSegment? first <;> simp [hsegment]
  rw [Path.components_of_splitOn hsplit, toldBy_append, hfirst, ← toldBy_append, ← List.filterMap_append,
    hsplit, List.singleton_append]

/-- What the directories of a text tell, those before a slash tell only if those behind it do not. -/
theorem toldBy_slash (dirs : ArchDirs) (front back : List UInt8) :
    toldBy dirs (Path.mk (front ++ slash :: back)).components =
      (toldBy dirs (Path.mk back).components).or (toldBy dirs (Path.mk front).components) := by
  simp only [toldBy_components, List.splitOn_append_cons_self, List.filterMap_append, toldBy_append]

/-- Directories above those that tell a width do not count. -/
theorem toldBy_lead {lead place : List UInt8} (hlead : lead = [] ∨ lead.getLast? = some slash)
    (tells : ∃ c ∈ (Path.mk place).components, c.Tells dirs) :
    toldBy dirs (Path.mk (lead ++ place)).components = toldBy dirs (Path.mk place).components := by
  obtain rfl | hlead := hlead
  · rfl
  · obtain ⟨front, rfl⟩ := List.getLast?_eq_some_iff.mp hlead
    obtain ⟨a, ha⟩ := exists_toldBy tells
    rw [List.append_assoc, List.singleton_append, toldBy_slash, ha, Option.some_or]

theorem examine_of_directory {w : Workbench} {p : Path} (strategy : w.strategy = .directory)
    (binary : isPlainFile w.settings p = false) (s : Session) :
    (w.examine p).runIn s = (.ok (ofDirectories w.settings.archDirs p), s) := by
  unfold examine
  simp [strategy, binary]

theorem classify_of_directory {w : Workbench} {p : Path} {s : Session}
    (strategy : w.strategy = .directory) (binary : isPlainFile w.settings p = false)
    (unsettled : s.memo.find? p = none) : (w.classify p).runIn s =
      (.ok (ofDirectories w.settings.archDirs p), s.settle p (ofDirectories w.settings.archDirs p)) := by
  have hasks : ¬ w.Asks p := by simp [Asks, strategy]
  have hverdict : w.verdict p = .ok (ofDirectories w.settings.archDirs p) := by
    rw [verdict, examine_of_directory strategy binary]
  rw [classify_of_unsettled unsettled hverdict, if_neg hasks]

theorem ofDirectories_of_same {place : List UInt8} {name : Segment} {p : Path} (hplace : place ≠ [])
    (normal : name.IsNormal) (same : p.Same ⟨place ++ slash :: name⟩) :
    ofDirectories dirs p = (toldBy dirs (Path.mk place).components).getD .unknown := by
  rw [ofDirectories_eq, Path.directories_of_same hplace normal same]

/-- Where directories tell the architecture, a file without a plain ending is of the one that the nearest
telling directory above it tells, and of none if there is no such directory; no tool is asked. So below a
telling directory neither the name of the file nor the spelling of the path counts, nor what other
directories that one lies in. -/
theorem examine_nearest_directory (w : Workbench) (strategy : w.strategy = .directory) :
    (∀ p : Path, isPlainFile w.settings p = false → ∃ a : Architecture,
      (∀ b, a = b ↔ Told w.settings.archDirs p.directories b) ∧
      ∀ s, (w.examine p).runIn s = (.ok a, s) ∧
        (s.memo.find? p = none → (w.classify p).runIn s = (.ok a, s.settle p a))) ∧
    ∀ (lead place : List UInt8) (n m : Segment) (p q : Path),
      (lead = [] ∨ lead.getLast? = some slash) → n.IsNormal → m.IsNormal →
      (∃ c ∈ (Path.mk place).components, c.Tells w.settings.archDirs) →
      p.Same ⟨place ++ slash :: n⟩ → q.Same ⟨lead ++ place ++ slash :: m⟩ →
      isPlainFile w.settings p = false → isPlainFile w.settings q = false →
      ∃ a, a ≠ .unknown ∧
        ∀ s, (w.examine p).runIn s = (.ok a, s) ∧ (w.examine q).runIn s = (.ok a, s) := by
  constructor
  · intro p binary
    refine ⟨ofDirectories w.settings.archDirs p, fun b => ofDirectories_eq_iff, fun s => ⟨?_, ?_⟩⟩
    · exact examine_of_directory strategy binary s
    · exact classify_of_directory strategy binary
  · intro lead place n m p q hlead hn hm tells hp hq hpBinary hqBinary
    have hplace : place ≠ [] := by
      rintro rfl
      obtain ⟨c, hc, -⟩ := tells
      cases hc
    have hlonger : lead ++ place ≠ [] := List.append_ne_nil_of_right_ne_nil lead hplace
    obtain ⟨a, ha⟩ := exists_toldBy tells
    have hpTold : ofDirectories w.settings.archDirs p = a := by
      rw [ofDirectories_of_same hplace hn hp, ha, Option.getD_some]
    have hqTold : ofDirectories w.settings.archDirs q = a := by
      rw [ofDirectories_of_same hlonger hm hq, toldBy_lead hlead tells, ha, Option.getD_some]
    refine ⟨a, ?_, fun s => ⟨?_, ?_⟩⟩
    · rintro rfl
      exact toldBy_ne_unknown ha
    · rw [examine_of_directory strategy hpBinary, hpTold]
    · rw [examine_of_directory strategy hqBinary, hqTold]

def nestedBench : Workbench :=
  { settings := {}
    strategy := .directory
    inspector :=
      { listFiles := fun _ => []
        describe := fun _ => .error {}
        texts := fun _ => .error {} } }

def nestedPlace : List UInt8 := Utf8.encode "vendor/lib64/./hw/../lib"

def nestedFile : Path := .ofString "vendor//lib64/hw/../lib/a.so/."

def nestedCopy : Path := .ofString "/x/lib64/vendor/lib64/hw/..//lib/lib64"

theorem examine_nearest_directory_nested :
    nestedBench.strategy = .directory ∧
    isPlainFile nestedBench.settings nestedFile = false ∧
    isPlainFile nestedBench.settings nestedCopy = false ∧
    nestedFile.Same ⟨nestedPlace ++ slash :: Utf8.encode "a.so"⟩ ∧
    nestedCopy.Same ⟨Utf8.encode "/x/lib64/" ++ nestedPlace ++ slash :: Utf8.encode "lib64"⟩ ∧
    ∀ s, (nestedBench.examine nestedFile).runIn s = (.ok .bits32, s) ∧
      (nestedBench.examine nestedCopy).runIn s = (.ok .bits32, s) := by
  have hfile : isPlainFile nestedBench.settings nestedFile = false := by decide +kernel
  have hcopy : isPlainFile nestedBench.settings nestedCopy = false := by decide +kernel
  have hfileSame : nestedFile.Same ⟨nestedPlace ++ slash :: Utf8.encode "a.so"⟩ := by decide +kernel
  have hcopySame : nestedCopy.Same
      ⟨Utf8.encode "/x/lib64/" ++ nestedPlace ++ slash :: Utf8.encode "lib64"⟩ := by decide +kernel
  have hnormal : ∀ s : Segment, s = Utf8.encode "a.so" ∨ s = Utf8.encode "lib64" → s.IsNormal := by
    rintro s (rfl | rfl) <;> exact ⟨by decide +kernel, by decide +kernel⟩
  have htells : Component.Tells nestedBench.settings.archDirs (.name (Utf8.encode "lib")) := .inl rfl
  have hplace : Component.name (Utf8.encode "lib") ∈ (Path.mk nestedPlace).components := by decide +kernel
  obtain ⟨hfirst, hsecond⟩ := examine_nearest_directory nestedBench rfl
  obtain ⟨a, htold, hrun⟩ := hfirst nestedFile hfile
  have hnearest : Told nestedBench.settings.archDirs nestedFile.directories .bits32 :=
    ⟨nestedFile.directories.dropLast, [], by decide +kernel, by simp⟩
  obtain rfl := (htold .bits32).mpr hnearest
  obtain ⟨b, -, hboth⟩ := hsecond (Utf8.encode "/x/lib64/") nestedPlace _ _ nestedFile nestedCopy
    (.inr (by decide +kernel)) (hnormal _ (.inl rfl)) (hnormal _ (.inr rfl)) ⟨_, hplace, htells⟩ hfileSame
    hcopySame hfile hcopy
  have hb : b = .bits32 := by
    have hpair := (hboth {}).1.symm.trans (hrun {}).1
    simpa using hpair
  exact ⟨rfl, hfile, hcopy, hfileSame, hcopySame, hb ▸ hboth⟩

end Workbench

end BlobCensus
