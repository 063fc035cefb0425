import BlobCensus.Proofs.Graph.Folding
import BlobCensus.Proofs.Graph.Growth

/-!
# The invariants of a draft

A draft keeps its records twice: in the order the names came, and in the index by name. Both are
changed by every operation, and after folding the index is made anew. Whatever has been done to a
draft, the two agree, every record has an architecture, and the answers of the operations tell what
they did.
-/
namespace BlobCensus

namespace Widths

@[simp] theorem mem_toList {w : Widths} {a : Architecture} : a ∈ w.toList ↔ w.contains a = true := by
  cases a <;> simp [toList, contains]

theorem contains_insert {w : Widths} (a b : Architecture) :
    (w.insert a).contains b = true ↔ w.contains b = true ∨ b = a := by
  cases a <;> cases b <;> simp [insert, contains]

theorem not_contains_empty (a : Architecture) : ¬ Widths.contains {} a = true := by
  cases a <;> simp [contains]

theorem ext_contains {v w : Widths} (h : ∀ a, v.contains a = w.contains a) : v = w := by
  have h32 := h .bits32
  have h64 := h .bits64
  have hunknown := h .unknown
  cases v
  cases w
  simp_all [contains]

theorem insert_eq_self_iff {w : Widths} {a : Architecture} :
    w.insert a = w ↔ w.contains a = true := by
  constructor
  · intro h
    rw [← h, contains_insert]
    exact .inr rfl
  · intro h
    apply ext_contains
    intro b
    rw [Bool.eq_iff_iff, contains_insert, or_iff_left_iff_imp]
    rintro rfl
    exact h

/-- Some architecture is in the set, and none in it is unknown. -/
structure Known (w : Widths) : Prop where
  ne_nil : w.toList ≠ []
  unknown_notMem : .unknown ∉ w.toList

theorem known_insert {w : Widths} {a : Architecture} (hw : .unknown ∉ w.toList)
    (known : a.isKnown = true) : (w.insert a).Known := by
  constructor
  · apply List.ne_nil_of_mem (a := a)
    simp [contains_insert]
  · rw [mem_toList] at hw
    rw [mem_toList, contains_insert, or_iff_right hw]
    rintro rfl
    cases known

end Widths

namespace Graph

/-- The architectures of every record are known. -/
def Tagged (g : Graph) : Prop := ∀ r ∈ g.records, r.widths.Known

theorem Tagged.amend {g : Graph} (h : g.Tagged) {name : String} {change : BlobRecord → BlobRecord}
    (keep : ∀ r, r.widths.Known → (change r).widths.Known) :
    (g.amend name change).Tagged := by
  intro q hq
  obtain ⟨r, hr, rfl⟩ := List.mem_map.mp hq
  split
  · exact keep r (h r hr)
  · exact h r hr

namespace Draft

variable {d : Draft}

theorem tagged_add (hd : d.Indexed) (h : d.toGraph.Tagged) (b : Blob) :
    (d.add b).2.toGraph.Tagged := by
  rcases add_cases hd b with ⟨-, hadd⟩ | ⟨known, -, -, hadd⟩ | ⟨known, -, -, hadd⟩
  · rw [hadd]
    exact h
  · rw [hadd]
    apply h.amend
    intro r hr
    exact Widths.known_insert hr.unknown_notMem known
  · rw [hadd]
    intro r hr
    rcases List.mem_append.mp hr with hr | hr
    · exact h r hr
    · rw [List.mem_singleton.mp hr]
      exact Widths.known_insert List.not_mem_nil known

theorem tagged_merge (hd : d.Indexed) (h : d.toGraph.Tagged) (name : String) (a : Architecture) :
    (d.merge name a).2.toGraph.Tagged := by
  cases known : a.isKnown with
  | false =>
    rw [merge_of_unknown name known]
    exact h
  | true =>
    rw [toGraph_merge hd name known]
    apply h.amend
    intro r hr
    exact Widths.known_insert hr.unknown_notMem known

theorem tagged_fold (hd : d.Indexed) (h : d.toGraph.Tagged) : d.fold.2.toGraph.Tagged := by
  intro r hr
  rw [toGraph, (fold_eq hd.nodup).2] at hr
  obtain ⟨i, s, hs, -, rfl⟩ := mem_survivors.mp hr
  obtain ⟨old, hold, hgrown⟩ := (pass_foldPass d.toGraph hd.nodup).record hs
  rw [hgrown.widths]
  exact h old (List.mem_of_getElem? hold)

theorem Reachable.tagged (h : d.Reachable) : d.toGraph.Tagged := by
  induction h with
  | empty => simp [Tagged, toGraph]
  | add prior b ih => exact tagged_add prior.indexed ih b
  | merge prior name a ih => exact tagged_merge prior.indexed ih name a
  | fold prior ih => exact tagged_fold prior.indexed ih

theorem Indexed.getElem?_index (hd : d.Indexed) (name : String) (place : ℕ) :
    d.index[name]? = some place ↔ ∃ r, d.records[place]? = some r ∧ r.name = name := by
  rw [hd name place]
  simp [toGraph, names]

theorem Indexed.contains_iff (hd : d.Indexed) (name : String) :
    d.contains name = true ↔ name ∈ d.toGraph.names := by
  rw [contains, Std.HashMap.contains_eq_isSome_getElem?]
  constructor
  · intro h
    obtain ⟨place, hplace⟩ := Option.isSome_iff_exists.mp h
    exact List.mem_of_getElem? ((hd name place).mp hplace)
  · intro h
    obtain ⟨place, hplace⟩ := hd.exists_place h
    simp [hplace]

/-- Adding a blob says that its name was new exactly if the record at the end is new. -/
theorem add_fst_iff (hd : d.Indexed) (b : Blob) :
    (d.add b).1 = true ↔
      ∃ r, r.name = b.name ∧ (d.add b).2.toGraph.records = d.toGraph.records ++ [r] := by
  rcases add_cases hd b with ⟨-, hadd⟩ | ⟨-, -, hfalse, hadd⟩ | ⟨-, -, htrue, hadd⟩
  · simp [hadd]
  · have hlength : (d.add b).2.toGraph.records.length = d.toGraph.records.length := by
      simp [hadd, amend]
    have hsame : ¬ ∃ r, r.name = b.name ∧
        (d.add b).2.toGraph.records = d.toGraph.records ++ [r] := by
      rintro ⟨r, -, hr⟩
      simp [hr] at hlength
    simpa [hfalse] using hsame
  · simp [htrue, hadd]

theorem update_eq_self_iff (place : ℕ) (change : BlobRecord → BlobRecord) :
    d.update place change = d ↔ ∀ r, d.records[place]? = some r → change r = r := by
  constructor
  · intro h r hr
    have hplace := congrArg (fun e : Draft => e.records[place]?) h
    simpa [update, Array.getElem?_modify, hr] using hplace
  · intro h
    have hrecords : d.records.modify place change = d.records := by
      apply Array.ext_getElem?
      intro i
      rw [Array.getElem?_modify]
      split
      · rename_i hi
        subst hi
        cases hr : d.records[place]? with
        | none => rfl
        | some r => simp [h r hr]
      · rfl
    rw [update, hrecords]

/-- Merging an architecture says that it was new exactly if the draft is another one. -/
theorem merge_fst_iff (hd : d.Indexed) (name : String) (a : Architecture) :
    (d.merge name a).1 = true ↔ (d.merge name a).2 ≠ d := by
  cases known : a.isKnown with
  | false => simp [merge, known]
  | true =>
    cases hplace : d.index[name]? with
    | none => simp [merge, known, hplace]
    | some place =>
      obtain ⟨r, hr, -⟩ := (hd.getElem?_index name place).mp hplace
      have hmerge : (d.merge name a).1 = !r.widths.contains a := by
        simp [merge, known, hplace, hr]
      have hupdate : (d.merge name a).2 = d ↔ r.widths.insert a = r.widths := by
        simp only [merge, known, hplace, Bool.not_true, Bool.false_eq_true, if_false]
        rw [update_eq_self_iff]
        obtain ⟨name, dependencies, widths⟩ := r
        simp [hr]
      rw [hmerge, Ne, hupdate, Widths.insert_eq_self_iff]
      simp

/-- In every draft that can be built the names are different, and the index tells for each of them the
place of its record and nothing else, so that a place looked up is always there. Every record has an
architecture, and no record has the unknown one. Adding a blob answers whether a record was appended,
and merging an architecture whether anything changed. -/
theorem reachable_invariants {d : Draft} (h : d.Reachable) :
    d.toGraph.names.Nodup ∧
    (∀ (name : String) (place : ℕ), d.index[name]? = some place ↔
      ∃ r, d.records[place]? = some r ∧ r.name = name) ∧
    (∀ name, d.contains name = true ↔ name ∈ d.toGraph.names) ∧
    (∀ r ∈ d.toGraph.records, r.widths.toList ≠ [] ∧ .unknown ∉ r.widths.toList) ∧
    (∀ b, (d.add b).1 = true ↔
      ∃ r, r.name = b.name ∧ (d.add b).2.toGraph.records = d.toGraph.records ++ [r]) ∧
    ∀ name a, (d.merge name a).1 = true ↔ (d.merge name a).2 ≠ d := by
  have hd := h.indexed
  refine ⟨hd.nodup, hd.getElem?_index, hd.contains_iff, ?_, add_fst_iff hd, merge_fst_iff hd⟩
  intro r hr
  exact ⟨(h.tagged r hr).ne_nil, (h.tagged r hr).unknown_notMem⟩

def readdedDraft : Draft := (cyclicDraft.fold.2.add ⟨⟨[]⟩, "liba.so", .bits32, []⟩).2

/-- The blob that comes back gets a place at the end, behind the one that had stayed. -/
theorem reachable_invariants_readded :
    readdedDraft.Reachable ∧ readdedDraft.toGraph.names = ["libb.so", "liba.so"] ∧
      readdedDraft.index["liba.so"]? = some 1 ∧ readdedDraft.contains "libc.so" = false ∧
      (readdedDraft.merge "libb.so" .bits32).2 ≠ readdedDraft ∧
      (readdedDraft.merge "libb.so" .bits64).2 = readdedDraft := by
  have hreachable : readdedDraft.Reachable := reachable_cyclicDraft.fold.add _
  have hnames : readdedDraft.toGraph.names = ["libb.so", "liba.so"] := by cbv
  have hrecords : readdedDraft.records[1]? = some ⟨"liba.so", [], { has32 := true }⟩ := by cbv
  obtain ⟨-, hindex, hcontains, -, -, hmerge⟩ := reachable_invariants hreachable
  refine ⟨hreachable, hnames, ?_, ?_, ?_, ?_⟩
  · exact (hindex "liba.so" 1).mpr ⟨_, hrecords, rfl⟩
  · have hno : ¬ readdedDraft.contains "libc.so" = true := by simp [hcontains, hnames]
    simpa using hno
  · apply (hmerge "libb.so" .bits32).mp
    cbv
  · by_contra hne
    have htrue := (hmerge "libb.so" .bits64).mpr hne
    have hfalse : (readdedDraft.merge "libb.so" .bits64).1 = false := by cbv
    rw [hfalse] at htrue
    cases htrue

end Draft

end Graph

end BlobCensus
