import BlobCensus.Inspection
import BlobCensus.Proofs.PrintableRuns
import BlobCensus.Proofs.Session.Inventory
import BlobCensus.Proofs.Text.Utf8

/-!
# Images read back

An ELF image that consists of its identification and of names, each ended by a zero byte, is scanned back
to the names: the identification holds no text, and no name is parted, joined to another or trimmed.
-/
namespace BlobCensus

namespace PrintableRuns

/-- A text that is read from data as it stands: long enough, printable, and without a tab at its ends. -/
structure IsToken (name : String) : Prop where
  long : usualLength ≤ (Utf8.encode name).length
  printable : Printable (Utf8.encode name)
  front : (Utf8.encode name).head? ≠ some tab
  back : (Utf8.encode name).getLast? ≠ some tab

instance (run : List UInt8) : Decidable (Printable run) :=
  inferInstanceAs (Decidable (∀ byte ∈ run, isPrintable byte = true))

instance (name : String) : Decidable (IsToken name) :=
  decidable_of_iff (usualLength ≤ (Utf8.encode name).length ∧ Printable (Utf8.encode name) ∧
    (Utf8.encode name).head? ≠ some tab ∧ (Utf8.encode name).getLast? ≠ some tab)
    ⟨fun ⟨long, printable, front, back⟩ => ⟨long, printable, front, back⟩,
      fun token => ⟨token.long, token.printable, token.front, token.back⟩⟩

theorem dropWhile_of_head?_ne {run : List UInt8} (h : run.head? ≠ some tab) :
    run.dropWhile (· == tab) = run := by
  cases run with
  | nil => rfl
  | cons byte run =>
    have hbyte : (byte == tab) = false := by simpa using h
    rw [List.dropWhile_cons, hbyte]
    rfl

theorem trimTabs_of_bare {run : List UInt8} (front : run.head? ≠ some tab)
    (back : run.getLast? ≠ some tab) : trimTabs run = run := by
  rw [← List.head?_reverse] at back
  rw [trimTabs, dropWhile_of_head?_ne front, dropWhile_of_head?_ne back, List.reverse_reverse]

theorem asciiText_encode {name : String} (h : Printable (Utf8.encode name)) :
    asciiText (Utf8.encode name) = name := by
  apply Utf8.encode_injective
  refine Utf8.encode_asciiText fun byte hbyte => ?_
  have hrange := toNat_of_isPrintable (h byte hbyte)
  omega

theorem texts_encode {name : String} (token : IsToken name) :
    texts usualLength (Utf8.encode name) = [name] := by
  have hlong := token.long
  have hne : Utf8.encode name ≠ [] := by
    intro hnil
    rw [hnil] at hlong
    cases hlong
  have hruns : (pieces (Utf8.encode name)).filter (fun run => max usualLength 1 ≤ run.length) =
      [Utf8.encode name] := by
    rw [pieces_of_printable token.printable]
    exact List.filter_cons_of_pos (decide_eq_true hlong)
  rw [texts, hruns]
  simp [trimTabs_of_bare token.front token.back, hne, asciiText_encode token.printable]

theorem texts_zeros (count : ℕ) (data : List UInt8) :
    texts usualLength (List.replicate count 0 ++ data) = texts usualLength data := by
  induction count with
  | zero => rfl
  | succ count ih =>
    rw [List.replicate_succ, List.cons_append, ← List.nil_append (0 :: _),
      texts_append usualLength [] (by decide), ih]
    rfl

theorem texts_ended {names : List String} (tokens : ∀ name ∈ names, IsToken name) :
    texts usualLength (names.flatMap fun name => Utf8.encode name ++ [0]) = names := by
  induction names with
  | nil => rfl
  | cons name names ih =>
    obtain ⟨htoken, hrest⟩ := List.forall_mem_cons.mp tokens
    rw [List.flatMap_cons, List.append_assoc, List.singleton_append,
      texts_append usualLength (Utf8.encode name) (by decide), texts_encode htoken, ih hrest]
    rfl

end PrintableRuns

namespace ElfHeader

open PrintableRuns

variable {classByte : UInt8} {names : List String}

/-- An image of a class that holds these names. -/
def image (classByte : UInt8) (names : List String) : List UInt8 :=
  magic ++ classByte :: (List.replicate 11 0 ++ names.flatMap fun name => Utf8.encode name ++ [0])

def architecture (classByte : UInt8) : Architecture := if classByte = 1 then .bits32 else .bits64

theorem ofDescription_describe_image (hclass : classByte = 1 ∨ classByte = 2) (names : List String) :
    Architecture.ofDescription (describe (image classByte names)) = architecture classByte := by
  obtain rfl | rfl := hclass
  · have hdescribe : describe (image 1 names) = "ELF 32-bit" := by simp [describe, image, magic]
    rw [hdescribe]
    decide
  · have hdescribe : describe (image 2 names) = "ELF 64-bit" := by simp [describe, image, magic]
    rw [hdescribe]
    decide

theorem texts_image (hclass : classByte = 1 ∨ classByte = 2) (tokens : ∀ name ∈ names, IsToken name) :
    texts usualLength (image classByte names) = names := by
  have hbyte : isPrintable classByte = false := by
    obtain rfl | rfl := hclass <;> decide
  have hfirst : isPrintable 0x7F = false := by decide
  have himage : image classByte names = [] ++ 0x7F :: ([0x45, 0x4C, 0x46] ++
      classByte :: (List.replicate 11 0 ++ names.flatMap fun name => Utf8.encode name ++ [0])) := rfl
  rw [himage, texts_append usualLength _ hfirst, texts_append usualLength _ hbyte, texts_zeros,
    texts_ended tokens]
  rfl

end ElfHeader

namespace Workbench

open Job PrintableRuns ElfHeader

theorem references_eq (settings : Settings) (ownName : String) (texts : List String) :
    references settings ownName texts = firstsOf id
      (texts.filter fun t => (LibraryRule.ofSettings settings).accepts t && t != ownName) :=
  eraseDups_eq_firstsOf _

/-- The scan of an image that the native tools read: its architecture is the one of its class, and it
refers to the first occurrences of the names that the rule accepts, without the file's own name. -/
theorem scan_image (disk : Disk) (settings : Settings) (p : Path) (classByte : UInt8) (names : List String)
    (s : Session) (hclass : classByte = 1 ∨ classByte = 2) (tokens : ∀ name ∈ names, IsToken name)
    (content : disk.read p = .ok (image classByte names))
    (binary : isPlainFile settings p = false) (unsettled : s.memo.find? p = none) :
    ∃ t, ((⟨settings, .content, .native disk⟩ : Workbench).scan p).runIn s =
      (.ok ⟨p, p.baseName, architecture classByte, firstsOf id (names.filter fun name =>
        (LibraryRule.ofSettings settings).accepts name && name != p.baseName)⟩, t) := by
  let w : Workbench := ⟨settings, .content, .native disk⟩
  have asks : w.Asks p := ⟨binary, rfl⟩
  have hdescribe : w.inspector.describe p = .ok (describe (image classByte names)) := by
    simp [w, Inspector.native, content]
  have htexts : w.inspector.texts p = .ok names := by
    simp [w, Inspector.native, content, texts_image hclass tokens]
  have hverdict : w.verdict p = .ok (architecture classByte) := by
    rw [verdict_of_asks asks, hdescribe, ← ofDescription_describe_image hclass names]
    rfl
  have known : (architecture classByte).isKnown = true := by
    obtain rfl | rfl := hclass <;> rfl
  rw [← references_eq]
  change ∃ t, (w.scan p).runIn s = _
  unfold scan
  rw [runIn_bind_ok (classify_of_unsettled unsettled hverdict), if_pos known, scanAs_eq,
    blobAs_of_texts htexts]
  exact ⟨_, rfl⟩

def elfNames : List String := ["x.so", "a\tb.so", "libc.so", "z.so", "a\tb.so"]

def elfDisk : Disk := { tree := .file (Utf8.encode "x.so") (image 2 elfNames) .empty }

def elfSettings : Settings := { ignoredLibraries := ["libc.so"], nonBinaryExtensions := [".txt"] }

theorem scan_image_repeated_name :
    (∀ name ∈ elfNames, IsToken name) ∧
    elfDisk.read (.ofString "/x.so") = .ok (image 2 elfNames) ∧
    isPlainFile elfSettings (.ofString "/x.so") = false ∧
    ∃ t, ((⟨elfSettings, .content, .native elfDisk⟩ : Workbench).scan (.ofString "/x.so")).runIn {} =
      (.ok ⟨.ofString "/x.so", "x.so", .bits64, ["a\tb.so", "z.so"]⟩, t) := by
  have htokens : ∀ name ∈ elfNames, IsToken name := by decide +kernel
  have content : elfDisk.read (.ofString "/x.so") = .ok (image 2 elfNames) := by decide +kernel
  have binary : isPlainFile elfSettings (.ofString "/x.so") = false := by decide +kernel
  obtain ⟨t, hscan⟩ := scan_image elfDisk elfSettings (.ofString "/x.so") 2 elfNames {}
    (.inr rfl) htokens content binary rfl
  have hname : (Path.ofString "/x.so").baseName = "x.so" := by decide +kernel
  have hnames : firstsOf id (elfNames.filter fun name =>
      (LibraryRule.ofSettings elfSettings).accepts name && name != "x.so") =
      ["a\tb.so", "z.so"] := by decide +kernel
  rw [hname, hnames] at hscan
  exact ⟨htokens, content, binary, t, hscan⟩

end Workbench

end BlobCensus
