import BlobCensus.Blob
import BlobCensus.Proofs.NameIndex
import BlobCensus.Proofs.Text.Utf8

/-!
# Counted references

A ranking gives every library that blobs of known architecture refer to, with the number of their
references to it, in one strict order. So it hangs on nothing but these references, each as often as it
is made: not on the order of the blobs, nor on the order in which a blob refers to its libraries.
-/
namespace BlobCensus

/-- The blob without its references to some names. -/
def Blob.without (names : List String) (b : Blob) : Blob :=
  { b with dependencies := b.dependencies.filter (· ∉ names) }

/-- Blobs of one architecture that refer to the same libraries, equally often to each. -/
structure Blob.Shuffles (b c : Blob) : Prop where
  architecture : b.architecture = c.architecture
  dependencies : b.dependencies.Perm c.dependencies

namespace Usage

variable {names others : List String} {name : String} {blobs more : List Blob} {a b : String × ℕ}

section Counts

theorem counts_append_singleton (names : List String) (name : String) :
    counts (names ++ [name]) = (counts names).alter name fun n => some (n.getD 0 + 1) := by
  rw [counts, List.foldl_append]
  rfl

theorem getElem?_counts (names : List String) (name : String) :
    (counts names)[name]? = if name ∈ names then some (names.count name) else none := by
  induction names using List.reverseRecOn with
  | nil => exact Std.HashMap.getElem?_empty
  | append_singleton names last ih =>
    rw [counts_append_singleton, Std.HashMap.getElem?_alter, List.count_append]
    by_cases hlast : last = name
    · subst hlast
      by_cases hold : last ∈ names
      · simp [ih, hold]
      · simp [ih, hold, List.count_eq_zero_of_not_mem hold]
    · simp [ih, hlast, Ne.symm hlast]

theorem mem_counts_iff {n : ℕ} :
    (name, n) ∈ (counts names).toList ↔ name ∈ names ∧ n = names.count name := by
  rw [Std.HashMap.mem_toList_iff_getElem?_eq_some, getElem?_counts]
  by_cases hname : name ∈ names
  · simp [hname, eq_comm]
  · simp [hname]

/-- The distinct names, each with its count. -/
def tally (names : List String) : List (String × ℕ) :=
  names.dedup.map fun name => (name, names.count name)

theorem map_fst_tally (names : List String) : (tally names).map Prod.fst = names.dedup := by
  simp [tally, Function.comp_def]

theorem mem_tally_iff {n : ℕ} : (name, n) ∈ tally names ↔ name ∈ names ∧ n = names.count name := by
  simp only [tally, List.mem_map, List.mem_dedup, Prod.mk.injEq]
  constructor
  · rintro ⟨_, hname, rfl, rfl⟩
    exact ⟨hname, rfl⟩
  · rintro ⟨hname, rfl⟩
    exact ⟨name, hname, rfl, rfl⟩

theorem nodup_tally (names : List String) : (tally names).Nodup := by
  apply List.Nodup.of_map Prod.fst
  rw [map_fst_tally]
  exact names.nodup_dedup

theorem counts_perm (names : List String) : (counts names).toList.Perm (tally names) := by
  have hkeys : ((counts names).toList.map Prod.fst).Nodup := by
    rw [Std.HashMap.map_fst_toList_eq_keys]
    exact Std.HashMap.nodup_keys
  refine (List.perm_ext_iff_of_nodup (.of_map Prod.fst hkeys) (nodup_tally names)).mpr ?_
  rintro ⟨name, n⟩
  rw [mem_counts_iff, mem_tally_iff]

theorem tally_perm (same : names.Perm others) : (tally names).Perm (tally others) := by
  refine (List.perm_ext_iff_of_nodup (nodup_tally names) (nodup_tally others)).mpr ?_
  rintro ⟨name, n⟩
  rw [mem_tally_iff, mem_tally_iff, same.mem_iff, same.count_eq]

theorem sum_tally (names : List String) : ((tally names).map Prod.snd).sum = names.length := by
  rw [tally, List.map_map]
  exact List.sum_map_count_dedup_eq_length names

theorem tally_filter (names : List String) (keep : String → Bool) :
    (tally (names.filter keep)).Perm ((tally names).filter (keep ·.1)) := by
  refine (List.perm_ext_iff_of_nodup (nodup_tally _) ((nodup_tally names).filter _)).mpr ?_
  rintro ⟨name, n⟩
  simp only [List.mem_filter, mem_tally_iff]
  constructor
  · rintro ⟨⟨hname, hkeep⟩, rfl⟩
    exact ⟨⟨hname, List.count_filter hkeep⟩, hkeep⟩
  · rintro ⟨⟨hname, rfl⟩, hkeep⟩
    exact ⟨⟨hname, hkeep⟩, (List.count_filter hkeep).symm⟩

end Counts

section Order

theorem rankLe_iff {a b : String × ℕ} : rankLe a b = true ↔ a.2 < b.2 ∨ a.2 = b.2 ∧ a.1 ≤ b.1 := by
  simp only [rankLe, Bool.or_eq_true, Bool.and_eq_true, decide_eq_true_eq, beq_iff_eq,
    Bool.not_eq_true', decide_eq_false_iff_not, String.not_lt]

theorem rankLe_trans (a b c : String × ℕ) (hab : rankLe a b) (hbc : rankLe b c) : rankLe a c := by
  rw [rankLe_iff] at *
  rcases hab with hab | ⟨hab, hnames⟩ <;> rcases hbc with hbc | ⟨hbc, hlater⟩
  · exact .inl (by omega)
  · exact .inl (by omega)
  · exact .inl (by omega)
  · exact .inr ⟨by omega, String.le_trans hnames hlater⟩

theorem rankLe_total (a b : String × ℕ) : rankLe a b || rankLe b a := by
  rw [Bool.or_eq_true, rankLe_iff, rankLe_iff]
  have hnames := String.le_total a.1 b.1
  rcases Nat.lt_trichotomy a.2 b.2 with hlt | heq | hlt
  · exact .inl (.inl hlt)
  · exact hnames.imp (fun hle => .inr ⟨heq, hle⟩) fun hle => .inr ⟨heq.symm, hle⟩
  · exact .inr (.inl hlt)

theorem eq_of_rankLe (hab : rankLe a b = true) (hba : rankLe b a = true) : a = b := by
  rw [rankLe_iff] at hab hba
  obtain ⟨hcount, hnames⟩ : a.2 = b.2 ∧ a.1 ≤ b.1 := by
    rcases hab with hless | h
    · rcases hba with hmore | hmore <;> omega
    · exact h
  have hback : b.1 ≤ a.1 := by
    rcases hba with hless | h
    · omega
    · exact h.2
  exact Prod.ext (String.le_antisymm hnames hback) hcount

/-- The comparison looks at both parts of an entry, so it leaves one order for the entries of a table,
however they come out of it. -/
theorem mergeSort_eq_of_perm {entries rest : List (String × ℕ)} (same : entries.Perm rest) :
    entries.mergeSort rankLe = rest.mergeSort rankLe := by
  have hperm := ((List.mergeSort_perm entries rankLe).trans same).trans
    (List.mergeSort_perm rest rankLe).symm
  exact hperm.eq_of_pairwise (fun _ _ _ _ => eq_of_rankLe)
    (List.pairwise_mergeSort rankLe_trans rankLe_total entries)
    (List.pairwise_mergeSort rankLe_trans rankLe_total rest)

/-- The order of a ranking: rarer libraries first, those used equally often by the bytes of their
names. -/
def Precedes (a b : String × ℕ) : Prop :=
  a.2 < b.2 ∨ a.2 = b.2 ∧ Utf8.encode a.1 < Utf8.encode b.1

theorem precedes_of_rankLe (h : rankLe a b = true) (hne : a.1 ≠ b.1) : Precedes a b := by
  rcases rankLe_iff.mp h with hless | ⟨hsame, hnames⟩
  · exact .inl hless
  · have hlt : a.1 < b.1 := by
      apply String.not_le.mp
      intro hle
      exact hne (String.le_antisymm hnames hle)
    exact .inr ⟨hsame, Utf8.encode_lt_iff.mpr hlt⟩

end Order

section References

/-- The references that count for the ranking, in the order of the blobs. -/
def references (blobs : List Blob) : List String :=
  (blobs.filter Blob.isKnown).flatMap Blob.dependencies

theorem mem_references_iff :
    name ∈ references blobs ↔ ∃ b ∈ blobs, b.isKnown = true ∧ name ∈ b.dependencies := by
  simp only [references, List.mem_flatMap, List.mem_filter, and_assoc]

theorem count_references (name : String) (blobs : List Blob) :
    (references blobs).count name =
      ((blobs.filter Blob.isKnown).map fun b => b.dependencies.count name).sum := by
  rw [references, List.count_flatMap]
  rfl

theorem length_references (blobs : List Blob) :
    (references blobs).length =
      ((blobs.filter Blob.isKnown).map fun b => b.dependencies.length).sum := by
  rw [references, List.length_flatMap]

/-- Where no blob repeats a reference, as many blobs refer to a library as there are references to it. -/
theorem count_references_of_nodup (name : String)
    (once : ∀ b ∈ blobs, b.isKnown = true → b.dependencies.Nodup) :
    (references blobs).count name =
      blobs.countP fun b => b.isKnown && b.dependencies.contains name := by
  induction blobs with
  | nil => rfl
  | cons b rest ih =>
    obtain ⟨hb, hrest⟩ := List.forall_mem_cons.mp once
    have hcons := ih hrest
    rw [count_references] at hcons ⊢
    cases hknown : b.isKnown with
    | false => simp [hknown, hcons]
    | true =>
      have hcount : b.dependencies.count name = if b.dependencies.contains name then 1 else 0 := by
        rw [(hb hknown).count]
        simp
      simp [hknown, hcons, hcount, List.countP_cons, add_comm]

theorem references_cons (b : Blob) (blobs : List Blob) :
    references (b :: blobs) =
      (if b.isKnown then b.dependencies else []) ++ references blobs := by
  cases hknown : b.isKnown <;> simp [references, hknown]

theorem references_perm (same : blobs.Perm more) : (references blobs).Perm (references more) :=
  (same.filter _).flatMap_right _

theorem references_shuffles (h : List.Forall₂ Blob.Shuffles blobs more) :
    (references blobs).Perm (references more) := by
  induction h with
  | nil => exact .refl _
  | @cons b c rest rest' hbc _ ih =>
    have hknown : b.isKnown = c.isKnown := by rw [Blob.isKnown, hbc.architecture, Blob.isKnown]
    rw [references_cons, references_cons, hknown]
    refine List.Perm.append ?_ ih
    cases c.isKnown
    · exact .refl _
    · exact hbc.dependencies

theorem references_without (names : List String) (blobs : List Blob) :
    references (blobs.map (Blob.without names)) = (references blobs).filter (· ∉ names) := by
  have hknown : (blobs.map (Blob.without names)).filter Blob.isKnown =
      (blobs.filter Blob.isKnown).map (Blob.without names) := by
    rw [List.filter_map]
    rfl
  rw [references, hknown, List.flatMap_map, references, List.filter_flatMap]
  rfl

end References

theorem ranking_eq (blobs : List Blob) :
    ranking blobs = (tally (references blobs)).mergeSort rankLe :=
  mergeSort_eq_of_perm (counts_perm (references blobs))

theorem ranking_perm (blobs : List Blob) : (ranking blobs).Perm (tally (references blobs)) := by
  rw [ranking_eq]
  exact List.mergeSort_perm _ _

theorem ranking_eq_of_perm (same : (references blobs).Perm (references more)) :
    ranking blobs = ranking more := by
  rw [ranking_eq, ranking_eq, mergeSort_eq_of_perm (tally_perm same)]

theorem mem_ranking_iff {n : ℕ} :
    (name, n) ∈ ranking blobs ↔ name ∈ references blobs ∧ n = (references blobs).count name := by
  rw [(ranking_perm blobs).mem_iff, mem_tally_iff]

theorem nodup_ranking (blobs : List Blob) : ((ranking blobs).map Prod.fst).Nodup := by
  rw [((ranking_perm blobs).map Prod.fst).nodup_iff, map_fst_tally]
  exact List.nodup_dedup _

theorem pairwise_ranking (blobs : List Blob) : (ranking blobs).Pairwise Precedes := by
  have hsorted : (ranking blobs).Pairwise fun a b => rankLe a b = true :=
    List.pairwise_mergeSort rankLe_trans rankLe_total _
  exact (hsorted.and (List.pairwise_map.mp (nodup_ranking blobs))).imp fun h =>
    precedes_of_rankLe h.1 h.2

theorem sum_ranking (blobs : List Blob) :
    ((ranking blobs).map Prod.snd).sum = (references blobs).length := by
  rw [((ranking_perm blobs).map Prod.snd).sum_eq, sum_tally]

/-- Names left out of the blobs are left out of the ranking: the others keep their counts and their
order. -/
theorem ranking_without (names : List String) (blobs : List Blob) :
    ranking (blobs.map (Blob.without names)) = (ranking blobs).filter (·.1 ∉ names) := by
  rw [ranking_eq, ranking_eq, references_without, mergeSort_eq_of_perm (tally_filter _ _),
    NameIndex.mergeSort_filter rankLe_trans rankLe_total]

/-- The libraries of a ranking are those that blobs of known architecture refer to, each given once with
the number of references to it: as many as there are such blobs, where none repeats a reference. They
stand in one strict order, and their numbers add up to all the references. Blobs in another order that
refer to the same libraries as often, in any order, have the same ranking. -/
theorem ranking_counts (blobs : List Blob) :
    (∀ library, library ∈ (ranking blobs).map Prod.fst ↔
      ∃ b ∈ blobs, b.isKnown = true ∧ library ∈ b.dependencies) ∧
    ((ranking blobs).map Prod.fst).Nodup ∧
    (∀ e ∈ ranking blobs,
      e.2 = ((blobs.filter Blob.isKnown).map fun b => b.dependencies.count e.1).sum) ∧
    ((∀ b ∈ blobs, b.isKnown = true → b.dependencies.Nodup) → ∀ e ∈ ranking blobs,
      e.2 = blobs.countP fun b => b.isKnown && b.dependencies.contains e.1) ∧
    (ranking blobs).Pairwise Precedes ∧
    ((ranking blobs).map Prod.snd).sum =
      ((blobs.filter Blob.isKnown).map fun b => b.dependencies.length).sum ∧
    ∀ moved others, blobs.Perm moved → List.Forall₂ Blob.Shuffles moved others →
      ranking others = ranking blobs := by
  have hcount : ∀ e ∈ ranking blobs, e.2 = (references blobs).count e.1 :=
    fun e he => (mem_ranking_iff.mp he).2
  refine ⟨fun library => ?_, nodup_ranking blobs, fun e he => ?_, fun once e he => ?_,
    pairwise_ranking blobs, ?_, fun moved others hmoved hothers => ?_⟩
  · rw [← mem_references_iff, List.mem_map]
    constructor
    · intro h
      obtain ⟨e, he, hname⟩ := h
      exact hname ▸ (mem_ranking_iff.mp he).1
    · intro h
      exact ⟨(library, _), mem_ranking_iff.mpr ⟨h, rfl⟩, rfl⟩
  · rw [hcount e he, count_references]
  · rw [hcount e he, count_references_of_nodup e.1 once]
  · rw [sum_ranking, length_references]
  · exact ranking_eq_of_perm ((references_perm hmoved).trans (references_shuffles hothers)).symm

def knownBlobs : List Blob :=
  [⟨.ofString "/x", "x", .bits64, ["b.so", "c.so"]⟩, ⟨.ofString "/y", "y", .bits32, ["b.so", "a.so"]⟩,
    ⟨.ofString "/z", "z", .unknown, ["b.so", "z.so"]⟩]

def movedBlobs : List Blob :=
  [⟨.ofString "/z", "z", .unknown, ["b.so", "z.so"]⟩, ⟨.ofString "/x", "x", .bits64, ["b.so", "c.so"]⟩,
    ⟨.ofString "/y", "y", .bits32, ["b.so", "a.so"]⟩]

def reorderedBlobs : List Blob :=
  [⟨.ofString "/z", "z", .unknown, ["z.so", "b.so"]⟩, ⟨.ofString "/x", "x", .bits64, ["c.so", "b.so"]⟩,
    ⟨.ofString "/y", "y", .bits32, ["b.so", "a.so"]⟩]

theorem ranking_counts_reordered :
    (∀ b ∈ knownBlobs, b.isKnown = true → b.dependencies.Nodup) ∧ knownBlobs.Perm movedBlobs ∧
    List.Forall₂ Blob.Shuffles movedBlobs reorderedBlobs ∧
    ranking reorderedBlobs = [("a.so", 1), ("c.so", 1), ("b.so", 2)] ∧
    ("b.so", knownBlobs.countP fun b => b.isKnown && b.dependencies.contains "b.so") ∈
      ranking knownBlobs := by
  have once : ∀ b ∈ knownBlobs, b.isKnown = true → b.dependencies.Nodup := by decide
  have hmoved : knownBlobs.Perm movedBlobs := by decide
  have hreordered : List.Forall₂ Blob.Shuffles movedBlobs reorderedBlobs :=
    .cons ⟨rfl, by decide⟩ (.cons ⟨rfl, by decide⟩ (.cons ⟨rfl, by decide⟩ .nil))
  have hranking : ranking knownBlobs = [("a.so", 1), ("c.so", 1), ("b.so", 2)] := by
    rw [ranking_eq]
    cbv
  obtain ⟨-, -, -, honce, -, -, hsame⟩ := ranking_counts knownBlobs
  have hfirst := honce once ("b.so", 2) (by simp [hranking])
  refine ⟨once, hmoved, hreordered, ?_, ?_⟩
  · rw [hsame movedBlobs reorderedBlobs hmoved hreordered, hranking]
  · rw [← hfirst, hranking]
    simp

end Usage

end BlobCensus
