import Mathlib
import BlobCensus.Survey
import BlobCensus.Proofs.Graph.Growth
import BlobCensus.Proofs.Session.Scanning

/-!
# The shortcut of an inventory

An inventory reads the references of the first file of each name only. The other way is to scan every
file and add all the blobs. Both ways give the same names and architectures; the lists of the
shortcut are the beginnings of the full ones, and nothing is missing exactly if no later file of a
name refers to a library that the first one does not.
-/
namespace BlobCensus

namespace Survey

open BlobCensus.Graph BlobCensus.Graph.Draft

variable {blobs : List Blob} {b : Blob} {short full : BlobRecord} {stock : Inventory}

/-- A record of the shortcut beside the record that all the blobs of its name give. -/
structure Shortened (blobs : List Blob) (short full : BlobRecord) : Prop where
  name : short.name = full.name
  widths : short.widths = full.widths
  extended : Extends short.dependencies full.dependencies
  first : ∃ b, blobs.find? (·.name == full.name) = some b ∧ short.dependencies = b.dependencies
  all : ∀ d, d ∈ full.dependencies ↔ ∃ b ∈ blobs, b.name = full.name ∧ d ∈ b.dependencies

namespace Shortened

theorem new (h : b.name ∉ blobs.map Blob.name) :
    Shortened (blobs ++ [b]) ⟨b.name, b.dependencies, Widths.insert {} b.architecture⟩
      ⟨b.name, b.dependencies, Widths.insert {} b.architecture⟩ := by
  have hother : ∀ c ∈ blobs, c.name ≠ b.name := fun c hc he => h (List.mem_map.mpr ⟨c, hc, he⟩)
  refine ⟨rfl, rfl, .refl, ⟨b, ?_, rfl⟩, fun d => ?_⟩
  · have hnone : blobs.find? (·.name == b.name) = none := by simpa using hother
    simp [List.find?_append, hnone]
  · rw [exists_mem_concat, or_iff_right fun ⟨c, hc, hn, _⟩ => hother c hc hn, and_iff_right rfl]

variable (h : Shortened blobs short full)
include h

theorem mem_names : full.name ∈ blobs.map Blob.name := by
  obtain ⟨c, hc, -⟩ := h.first
  have hname : c.name = full.name := by simpa using List.find?_some hc
  exact hname ▸ List.mem_map_of_mem (List.mem_of_find?_eq_some hc)

theorem other (hb : full.name ≠ b.name) : Shortened (blobs ++ [b]) short full := by
  obtain ⟨c, hc, hdeps⟩ := h.first
  refine { h with first := ⟨c, by simp [List.find?_append, hc], hdeps⟩, all := fun d => ?_ }
  rw [h.all, exists_mem_concat, or_iff_left fun ⟨hn, _⟩ => hb hn.symm]

theorem again (hb : full.name = b.name) :
    Shortened (blobs ++ [b]) { short with widths := short.widths.insert b.architecture }
      { full with
        dependencies := union full.dependencies b.dependencies
        widths := full.widths.insert b.architecture } := by
  obtain ⟨c, hc, hdeps⟩ := h.first
  refine ⟨h.name, by rw [h.widths], h.extended.trans (extends_union _ _), ?_, fun d => ?_⟩
  · exact ⟨c, by simp [List.find?_append, hc], hdeps⟩
  · rw [mem_union, h.all, exists_mem_concat, and_iff_right hb.symm]

end Shortened

theorem reachable_draft (stock : Inventory) : (draft stock).Reachable := by
  have run : ∀ d : Draft, d.Reachable →
      (stock.duplicates.foldl (fun d m => (d.merge m.1 m.2).2) d).Reachable := by
    induction stock.duplicates with
    | nil => exact fun _ h => h
    | cons m rest ih => exact fun d h => ih _ (h.merge m.1 m.2)
  exact run _ (reachable_ofBlobs _)

/-- The stock of blobs beside the draft of all of them. -/
structure Stocked (blobs : List Blob) (stock : Inventory) : Prop where
  names : (draft stock).toGraph.names = stock.blobs.map Blob.name
  further : ∀ m ∈ stock.duplicates, m.1 ∈ stock.blobs.map Blob.name
  taken : ∀ b ∈ blobs, b.name ∈ stock.blobs.map Blob.name
  records : List.Forall₂ (Shortened blobs) (draft stock).toGraph.records
    (ofBlobs blobs).toGraph.records

namespace Stocked

theorem empty : Stocked [] ⟨[], []⟩ := ⟨rfl, by simp, by simp, .nil⟩

variable (h : Stocked blobs stock)
include h

theorem names_eq : (draft stock).toGraph.names = (ofBlobs blobs).toGraph.names := by
  rw [Graph.names, Graph.names, ← List.forall₂_eq_eq_eq, List.forall₂_map_left_iff,
    List.forall₂_map_right_iff]
  exact h.records.imp fun _ _ hr => hr.name

/-- A blob whose name is taken changes one record on either side. -/
theorem again (known : b.isKnown = true) (hb : b.name ∈ stock.blobs.map Blob.name) :
    Stocked (blobs ++ [b]) (stock.enter b) := by
  have henter : stock.enter b =
      { stock with duplicates := stock.duplicates ++ [(b.name, b.architecture)] } := if_pos hb
  have hshort : (draft (stock.enter b)).toGraph = (draft stock).toGraph.amend b.name
      fun r => { r with widths := r.widths.insert b.architecture } := by
    rw [← toGraph_merge (reachable_draft stock).indexed b.name known, henter, draft, List.foldl_append]
    rfl
  have hfull := toGraph_add_of_mem (reachable_ofBlobs blobs).indexed known
    (h.names_eq ▸ h.names ▸ hb)
  refine ⟨?_, ?_, ?_, ?_⟩
  · rw [hshort, henter, ← h.names]
    exact names_amend fun _ => rfl
  · rw [henter]
    exact List.forall_mem_append.mpr ⟨h.further, List.forall_mem_singleton.mpr hb⟩
  · rw [henter]
    exact List.forall_mem_append.mpr ⟨h.taken, List.forall_mem_singleton.mpr hb⟩
  · rw [hshort, ofBlobs_append, hfull, amend, amend, List.forall₂_map_left_iff,
      List.forall₂_map_right_iff]
    refine h.records.imp fun r q hr => ?_
    by_cases hq : q.name = b.name
    · rw [if_pos (hr.name.trans hq), if_pos hq]
      exact hr.again hq
    · rw [if_neg (hr.name ▸ hq), if_neg hq]
      exact hr.other hq

/-- A blob of a new name adds one record on either side. -/
theorem new (known : b.isKnown = true) (hb : b.name ∉ stock.blobs.map Blob.name) :
    Stocked (blobs ++ [b]) (stock.enter b) := by
  have henter : stock.enter b = { stock with blobs := stock.blobs ++ [b] } := if_neg hb
  have hindexed := (reachable_ofBlobs stock.blobs).indexed
  have hnames : (draft stock).toGraph.names = (ofBlobs stock.blobs).toGraph.names :=
    names_foldl_merge hindexed stock.duplicates
  have hadd := toGraph_add_of_notMem hindexed known (hnames ▸ h.names ▸ hb)
  have hshort : (draft (stock.enter b)).toGraph =
      ⟨(draft stock).toGraph.records ++
        [⟨b.name, b.dependencies, Widths.insert {} b.architecture⟩]⟩ := by
    rw [henter, draft, ofBlobs_append]
    exact toGraph_foldl_merge hindexed (hindexed.add b) hadd stock.duplicates
      fun m hm (he : m.1 = b.name) => hb (he ▸ h.further m hm)
  have hfull := toGraph_add_of_notMem (reachable_ofBlobs blobs).indexed known
    (h.names_eq ▸ h.names ▸ hb)
  refine ⟨?_, ?_, ?_, ?_⟩
  · rw [hshort, henter, List.map_append, ← h.names]
    simp [Graph.names]
  · rw [henter, List.map_append]
    exact fun m hm => List.mem_append_left _ (h.further m hm)
  · rw [henter, List.map_append]
    refine List.forall_mem_append.mpr ⟨fun c hc => List.mem_append_left _ (h.taken c hc), ?_⟩
    simp
  · rw [hshort, ofBlobs_append, hfull]
    have hfresh : b.name ∉ blobs.map Blob.name := by
      intro hmem
      obtain ⟨c, hc, hn⟩ := List.mem_map.mp hmem
      exact hb (hn ▸ h.taken c hc)
    refine List.rel_append (h.records.imp fun r q hr => hr.other fun hq => ?_)
      (.cons (.new hfresh) .nil)
    exact hfresh (hq ▸ hr.mem_names)

theorem enter (known : b.isKnown = true) : Stocked (blobs ++ [b]) (stock.enter b) := by
  by_cases hb : b.name ∈ stock.blobs.map Blob.name
  · exact h.again known hb
  · exact h.new known hb

end Stocked

section SameName

def file32 : Path := .ofString "/lib/x.so"

def file64 : Path := .ofString "/lib64/x.so"

end SameName

end Survey

end BlobCensus
