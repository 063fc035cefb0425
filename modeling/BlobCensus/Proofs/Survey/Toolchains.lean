import Mathlib
import BlobCensus.Survey
import BlobCensus.Proofs.Closure.Agreement
import BlobCensus.Proofs.Inspection

/-!
# Programs that tell what the bytes tell

A survey may read the files itself or run programs on them. If the programs print of each file what its
bytes tell, both ways come to the same: the lines that are printed are the texts again, and the line end
after a description leaves the architecture in it.
-/
namespace BlobCensus

namespace Programs

variable {programs : Programs} {disk : Disk} {p : Path}

/-- On this file the programs end well, and one prints the texts that its bytes hold, each on a line,
the other the description that they begin with. -/
structure Echo (programs : Programs) (disk : Disk) (p : Path) : Prop where
  texts : ∃ texts, (Inspector.native disk).texts p = .ok texts ∧
    programs.start? (.strings p) = some ⟨printed texts, .exited 0⟩
  description : ∃ text, (Inspector.native disk).describe p = .ok text ∧
    programs.start? (.file p) = some ⟨printed [text], .exited 0⟩

theorem run_of_exited {command : Command} {output : List UInt8}
    (h : programs.start? command = some ⟨output, .exited 0⟩) :
    programs.run command = some (Utf8.decodeLossy output) := by
  simp [run, h]

theorem lines_texts {texts : List String} (h : (Inspector.native disk).texts p = .ok texts) :
    lines (Utf8.decodeLossy (printed texts)) = texts := by
  cases h
  split
  · obtain ⟨runs, hruns, hprintable⟩ := PrintableRuns.exists_runs_texts _ _
    rw [hruns]
    exact lines_printed hprintable
  · rfl

theorem ofDescription_printed {text : String}
    (h : (Inspector.native disk).describe p = .ok text) :
    Architecture.ofDescription (Utf8.decodeLossy (printed [text])) =
      Architecture.ofDescription text := by
  have htext : text ∈ ["ELF 32-bit", "ELF 64-bit", "data"] := by
    cases h
    unfold ElfHeader.describe
    grind
  have hall : ∀ text ∈ ["ELF 32-bit", "ELF 64-bit", "data"],
      Architecture.ofDescription (Utf8.decodeLossy (printed [text])) =
        Architecture.ofDescription text := by decide +kernel
  exact hall text htext

/-- A file that is echoed is told alike by the programs and by the bytes. -/
theorem Echo.agreeAt (echo : programs.Echo disk p) :
    (Inspector.external disk programs).AgreeAt (Inspector.native disk) p := by
  obtain ⟨texts, htexts, hstrings⟩ := echo.texts
  obtain ⟨text, htext, hfile⟩ := echo.description
  constructor
  · rw [htexts]
    simp [Inspector.external, Programs.texts, run_of_exited hstrings, lines_texts htexts]
  · rw [htext]
    simp [Inspector.external, describe, run_of_exited hfile, Except.map, ofDescription_printed htext]

end Programs

namespace Survey

section Echo

variable {survey : Survey} {disk : Disk} {programs : Programs}
  (echo : ∀ p ∈ disk.listFiles survey.root, programs.Echo disk p)
include echo

theorem inventory_external :
    survey.inventory (.external disk programs) = survey.inventory (.native disk) := by
  have hbench : survey.bench (.external disk programs) =
      (survey.bench (.native disk)).equip (.external disk programs) := rfl
  have hscan := Workbench.scanAll_equip (w := survey.bench (.native disk))
    fun p hp => (echo p ((List.mergeSort_perm _ Path.le).subset hp)).agreeAt
  unfold inventory
  rw [hbench]
  exact congrArg _ (funext fun _ => hscan)

theorem closure_external {seed : Path} (told : ∀ file, survey.seedFile disk seed = .ok file →
      file ∈ disk.listFiles survey.root ∨ programs.Echo disk file) {ρ : Type}
    (reporter : Reporter ρ) (report : ρ) (s : Session) :
    survey.closure disk (.external disk programs) reporter seed report s =
      survey.closure disk (.native disk) reporter seed report s := by
  have hbench : survey.bench (.external disk programs) =
      (survey.bench (.native disk)).equip (.external disk programs) := rfl
  unfold closure
  cases hfile : survey.seedFile disk seed with
  | error reason => rfl
  | ok file =>
    have hecho : programs.Echo disk file := (told file hfile).elim (echo file) id
    have hsame : (Inspector.external disk programs).listFiles survey.root =
        (survey.bench (.native disk)).inspector.listFiles survey.root := rfl
    rw [hbench]
    exact Workbench.closure_equip hsame reporter rfl hecho.agreeAt (fun p hp => (echo p hp).agreeAt)
      report

end Echo

/-- A survey that runs programs comes to the same as one that reads the files itself, with either
strategy and in every session, if the programs print of each file what its bytes tell. A seed need not
be under the root, but then the programs must do so for it too. -/
theorem external_eq_native (survey : Survey) (disk : Disk) (programs : Programs)
    (echo : ∀ p ∈ disk.listFiles survey.root, programs.Echo disk p) :
    survey.inventory (.external disk programs) = survey.inventory (.native disk) ∧
    survey.tree (.external disk programs) = survey.tree (.native disk) ∧
    survey.usage (.external disk programs) = survey.usage (.native disk) ∧
    ∀ seed : Path, (∀ file, survey.seedFile disk seed = .ok file →
        file ∈ disk.listFiles survey.root ∨ programs.Echo disk file) →
      ∀ {ρ : Type} (reporter : Reporter ρ) (report : ρ) (s : Session),
        survey.closure disk (.external disk programs) reporter seed report s =
          survey.closure disk (.native disk) reporter seed report s := by
  refine ⟨inventory_external echo, ?_, ?_, ?_⟩
  · rw [tree, tree, inventory_external echo]
  · rw [usage, usage, inventory_external echo]
  · intro seed hseed ρ reporter report s
    exact closure_external echo hseed reporter report s

section Images

def imageSeed : Path := .ofString "/a.so"

def imageNext : Path := .ofString "/b.so"

def imageSurvey : Survey :=
  ⟨.ofString "/", { ignoredLibraries := [], nonBinaryExtensions := [] }, .content⟩

def imageDisk : Disk :=
  { tree :=
      .file (Utf8.encode "a.so") ([0x7F, 0x45, 0x4C, 0x46, 2, 0] ++ Utf8.encode "\tb.so\t\r\nsome text")
      (.file (Utf8.encode "b.so") ([0x7F, 0x45, 0x4C, 0x46, 2, 0] ++ Utf8.encode "a.so")
      .empty) }

def imagePrograms : Programs := fun command =>
  if command = .strings imageSeed then some ⟨Utf8.encode "b.so\nsome text\n", .exited 0⟩
  else if command = .strings imageNext then some ⟨Utf8.encode "a.so\n", .exited 0⟩
  else if command.program = "file" then some ⟨Utf8.encode "ELF 64-bit\n", .exited 0⟩
  else none

theorem listFiles_image : imageDisk.listFiles imageSurvey.root = [imageSeed, imageNext] := by
  decide +kernel

theorem echo_image : ∀ p ∈ imageDisk.listFiles imageSurvey.root, imagePrograms.Echo imageDisk p := by
  rw [listFiles_image]
  have hseed : imagePrograms.Echo imageDisk imageSeed :=
    ⟨⟨_, rfl, by decide +kernel⟩, ⟨_, rfl, by decide +kernel⟩⟩
  have hnext : imagePrograms.Echo imageDisk imageNext :=
    ⟨⟨_, rfl, by decide +kernel⟩, ⟨_, rfl, by decide +kernel⟩⟩
  simpa using ⟨hseed, hnext⟩

/-- The search that runs the programs finds the other file. -/
theorem external_eq_native_two_images :
    (∀ p ∈ imageDisk.listFiles imageSurvey.root, imagePrograms.Echo imageDisk p) ∧
    imageSurvey.tree (.external imageDisk imagePrograms) = imageSurvey.tree (.native imageDisk) ∧
    (imageSurvey.closure imageDisk (.external imageDisk imagePrograms) Collection.reporter
      (.ofString "a.so") {} {}).1 = .ok ⟨imageSeed, [imageNext]⟩ := by
  obtain ⟨-, htree, -, hclosure⟩ := external_eq_native imageSurvey imageDisk imagePrograms echo_image
  have hfile : imageSurvey.seedFile imageDisk (.ofString "a.so") = .ok imageSeed := by decide +kernel
  have hlisted : ∀ file, imageSurvey.seedFile imageDisk (.ofString "a.so") = .ok file →
      file ∈ imageDisk.listFiles imageSurvey.root ∨ imagePrograms.Echo imageDisk file := by
    rw [hfile, listFiles_image]
    simp
  refine ⟨echo_image, htree, ?_⟩
  rw [hclosure _ hlisted]
  have hindex : NameIndex.ofPaths
      ((imageSurvey.bench (.native imageDisk)).inspector.listFiles imageSurvey.root) =
      ⟨[("a.so", [imageSeed]), ("b.so", [imageNext])]⟩ := by
    change NameIndex.ofPaths (imageDisk.listFiles imageSurvey.root) = _
    rw [listFiles_image]
    cbv
  simp only [closure, hfile, Workbench.closure, Workbench.prepare, hindex]
  decide +kernel

end Images

end Survey

end BlobCensus
