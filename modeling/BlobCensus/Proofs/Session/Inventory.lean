import BlobCensus.Proofs.Session.FirstSpelling

/-!
# Inventories by name

Every file of known architecture stands in the inventory once: the first of each name as a blob, the others by
name and architecture alone. The texts of a file are read if it becomes a blob, and only then.
-/
namespace BlobCensus

namespace Event

end Event

namespace Workbench

open Job BlobCensus.Path

variable {w : Workbench} {p : Path} {a : Architecture} {b : Blob} {s t : Session} {files : List Path}
  {firsts : List (Path × Architecture)} {blobs : List Blob}

def fileName (file : Path × Architecture) : String := file.1.baseName

section Classified

end Classified

section Scanned

end Scanned

theorem SpellingHistory.find? (h : SpellingHistory w s files t) (hp : p ∈ files)
    (ha : w.answerFor s.memo (firstSpelling files p) = .ok a) : t.memo.find? p = some a := by
  have hanswer := h.answer hp
  rw [ha] at hanswer
  obtain ⟨a', hfind, heq⟩ := Option.map_eq_some_iff.mp hanswer
  rw [hfind, Except.ok.inj heq]

section Taken

variable {stock : Inventory} (hrun : (w.scanAll files).runIn s = (.ok stock, t))
include hrun

end Taken

end Workbench

end BlobCensus
