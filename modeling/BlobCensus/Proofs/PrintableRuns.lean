import Mathlib.Data.List.DropRight
import Mathlib.Data.List.Forall2
import BlobCensus.Proofs.Inspection

/-!
# Maximal runs

A byte that is not printable cuts the data in two, and nothing in one part counts for the other. Cut at
all such bytes, the data falls into its maximal runs, each at its place; the texts are what is left of the
long ones without the tabs at their ends.
-/
namespace BlobCensus

namespace PrintableRuns

variable {byte : UInt8} {front rest data run : List UInt8} {start : ℕ}

/-- Data is one printable run, or begins with one that a byte cuts off. -/
theorem induction_on_cuts {motive : List UInt8 → Prop}
    (whole : ∀ run, Printable run → motive run)
    (cutOff : ∀ front byte rest, Printable front → isPrintable byte = false → motive rest →
      motive (front ++ byte :: rest))
    (data : List UInt8) : motive data := by
  have hall : ∀ front, Printable front → motive (front ++ data) := by
    induction data with
    | nil =>
      intro front hfront
      rw [List.append_nil]
      exact whole front hfront
    | cons byte rest ih =>
      intro front hfront
      by_cases hbyte : isPrintable byte = true
      · have hlonger : Printable (front ++ [byte]) :=
          List.forall_mem_append.mpr ⟨hfront, List.forall_mem_singleton.mpr hbyte⟩
        simpa using ih (front ++ [byte]) hlonger
      · exact cutOff front byte rest hfront (by simpa using hbyte) (ih [] (by simp [Printable]))
  exact hall [] (by simp [Printable])

theorem pieces_ne_nil (data : List UInt8) : pieces data ≠ [] := by
  cases data with
  | nil => exact List.cons_ne_nil _ _
  | cons byte rest =>
    change cut byte (pieces rest) ≠ []
    unfold cut
    split
    · split <;> exact List.cons_ne_nil _ _
    · exact List.cons_ne_nil _ _

theorem cut_append {firsts : List (List UInt8)} (h : firsts ≠ []) (others : List (List UInt8)) :
    cut byte (firsts ++ others) = cut byte firsts ++ others := by
  cases firsts with
  | nil => exact absurd rfl h
  | cons first firsts => by_cases hbyte : isPrintable byte = true <;> simp [cut, hbyte]

theorem pieces_append (front : List UInt8) (hbyte : isPrintable byte = false) (rest : List UInt8) :
    pieces (front ++ byte :: rest) = pieces front ++ pieces rest := by
  induction front with
  | nil =>
    change cut byte (pieces rest) = [[]] ++ pieces rest
    simp [cut, hbyte]
  | cons first front ih =>
    change cut first (pieces (front ++ byte :: rest)) = cut first (pieces front) ++ pieces rest
    rw [ih, cut_append (pieces_ne_nil front)]

theorem pieces_of_printable (h : Printable run) : pieces run = [run] := by
  induction run with
  | nil => rfl
  | cons byte rest ih =>
    obtain ⟨hbyte, hrest⟩ := List.forall_mem_cons.mp h
    change cut byte (pieces rest) = _
    rw [ih hrest]
    simp [cut, hbyte]

theorem texts_append (least : ℕ) (front : List UInt8) (hbyte : isPrintable byte = false)
    (rest : List UInt8) :
    texts least (front ++ byte :: rest) = texts least front ++ texts least rest := by
  simp only [texts, pieces_append front hbyte rest, List.filter_append, List.map_append]

/-- There is no byte, or one that is not printable. -/
def Stops (byte? : Option UInt8) : Prop := ∀ byte ∈ byte?, isPrintable byte = false

/-- A maximal run of printable bytes, with the place where it begins. -/
def RunAt (data : List UInt8) (start : ℕ) (run : List UInt8) : Prop :=
  run ≠ [] ∧ Printable run ∧ ∃ before after, data = before ++ run ++ after ∧ before.length = start ∧
    Stops before.getLast? ∧ Stops after.head?

theorem printable_append {more : List UInt8} :
    Printable (front ++ more) ↔ Printable front ∧ Printable more := List.forall_mem_append

theorem eq_nil_of_stops_last (h : Printable run) (stops : Stops run.getLast?) : run = [] := by
  cases run using List.reverseRecOn with
  | nil => rfl
  | append_singleton run byte =>
    have hbyte := h byte (by simp)
    rw [stops byte (by simp)] at hbyte
    cases hbyte

theorem eq_nil_of_stops_head (h : Printable run) (stops : Stops (run ++ rest).head?) : run = [] := by
  cases run with
  | nil => rfl
  | cons byte run =>
    have hbyte := h byte (by simp)
    rw [stops byte rfl] at hbyte
    cases hbyte

theorem stops_last_append {before : List UInt8} (hbyte : isPrintable byte = false) :
    Stops (front ++ byte :: before).getLast? ↔ Stops before.getLast? := by
  cases before using List.reverseRecOn with
  | nil => simp [Stops, hbyte]
  | append_singleton before last =>
    rw [← List.cons_append, ← List.append_assoc, List.getLast?_concat, List.getLast?_concat]

theorem runAt_of_printable (h : Printable data) :
    RunAt data start run ↔ data ≠ [] ∧ start = 0 ∧ run = data := by
  constructor
  · rintro ⟨hne, -, before, after, rfl, rfl, hbefore, hafter⟩
    rw [printable_append, printable_append] at h
    obtain rfl := eq_nil_of_stops_last h.1.1 hbefore
    have hlast : Stops (after ++ []).head? := by rwa [List.append_nil]
    obtain rfl := eq_nil_of_stops_head h.2 hlast
    simpa using hne
  · rintro ⟨hne, rfl, rfl⟩
    exact ⟨hne, h, [], [], by simp, rfl, by simp [Stops], by simp [Stops]⟩

/-- The maximal runs of data that is cut after a printable front are that front and the later ones. -/
theorem runAt_append (hfront : Printable front) (hbyte : isPrintable byte = false) :
    RunAt (front ++ byte :: rest) start run ↔
      (front ≠ [] ∧ start = 0 ∧ run = front) ∨
        ∃ later, start = front.length + 1 + later ∧ RunAt rest later run := by
  have hstops : Stops (byte :: rest).head? := by simpa [Stops] using hbyte
  constructor
  · rintro ⟨hne, hrun, before, after, hdata, rfl, hbefore, hafter⟩
    rw [List.append_assoc, List.append_eq_append_iff] at hdata
    obtain ⟨gap, rfl, hgap⟩ | ⟨gap, rfl, hgap⟩ := hdata
    · -- The run begins after the front: not with the byte, so after that too.
      right
      cases gap with
      | nil => exact absurd (eq_nil_of_stops_head hrun (hgap ▸ hstops)) hne
      | cons first gap =>
        obtain ⟨rfl, rfl⟩ := List.cons.inj hgap
        refine ⟨gap.length, ?_, hne, hrun, gap, after, by simp, rfl, (stops_last_append hbyte).mp hbefore,
          hafter⟩
        rw [List.length_append, List.length_cons]
        omega
    · -- The run begins within the front, so it is all of it.
      left
      obtain rfl := eq_nil_of_stops_last (printable_append.mp hfront).1 hbefore
      rw [List.nil_append] at hfront ⊢
      obtain ⟨more, rfl, rfl⟩ | ⟨more, rfl, hmore⟩ := List.append_eq_append_iff.mp hgap
      · obtain rfl := eq_nil_of_stops_head (printable_append.mp hfront).2 hafter
        simpa using hne
      · obtain rfl := eq_nil_of_stops_head (printable_append.mp hrun).2 (hmore ▸ hstops)
        simpa using hne
  · rintro (⟨hne, rfl, rfl⟩ | ⟨later, rfl, hne, hrun, before, after, rfl, rfl, hbefore, hafter⟩)
    · exact ⟨hne, hfront, [], byte :: rest, by simp, rfl, by simp [Stops], hstops⟩
    · refine ⟨hne, hrun, front ++ byte :: before, after, by simp, ?_, (stops_last_append hbyte).mpr hbefore,
        hafter⟩
      rw [List.length_append, List.length_cons]
      omega

/-- The front as a run, unless it is empty. -/
def lead (front : List UInt8) : List (ℕ × List UInt8) := if front = [] then [] else [(0, front)]

theorem mem_lead : (start, run) ∈ lead front ↔ front ≠ [] ∧ start = 0 ∧ run = front := by
  unfold lead
  split <;> simp_all

theorem map_snd_lead (front : List UInt8) : (lead front).map Prod.snd = [front].filter (· ≠ []) := by
  unfold lead
  split <;> simp_all

theorem pairwise_lead (front : List UInt8) :
    (lead front).Pairwise fun first second => first.1 < second.1 := by
  unfold lead
  split <;> simp

/-- The pieces that are not empty are the maximal runs, in the order of their places. -/
theorem exists_runs (data : List UInt8) :
    ∃ runs : List (ℕ × List UInt8), runs.Pairwise (fun first second => first.1 < second.1) ∧
      (∀ start run, (start, run) ∈ runs ↔ RunAt data start run) ∧
      runs.map Prod.snd = (pieces data).filter (· ≠ []) := by
  induction data using induction_on_cuts with
  | whole data hdata =>
    refine ⟨lead data, pairwise_lead data, fun start run => ?_, ?_⟩
    · rw [mem_lead, runAt_of_printable hdata]
    · rw [map_snd_lead, pieces_of_printable hdata]
  | cutOff front byte rest hfront hbyte ih =>
    obtain ⟨runs, hsorted, hruns, hpieces⟩ := ih
    refine ⟨lead front ++ runs.map fun place => (front.length + 1 + place.1, place.2), ?_, ?_, ?_⟩
    · refine List.pairwise_append.mpr ⟨pairwise_lead front, ?_, ?_⟩
      · rw [List.pairwise_map]
        exact hsorted.imp fun h => Nat.add_lt_add_left h _
      · intro first hfirst second hsecond
        obtain ⟨place, -, rfl⟩ := List.mem_map.mp hsecond
        have hzero := (mem_lead.mp hfirst).2.1
        dsimp only
        omega
    · intro start run
      rw [runAt_append hfront hbyte, List.mem_append, mem_lead]
      simp only [← hruns, List.mem_map, Prod.exists, Prod.mk.injEq]
      refine or_congr_right ⟨?_, ?_⟩
      · rintro ⟨later, run, hmem, rfl, rfl⟩
        exact ⟨later, rfl, hmem⟩
      · rintro ⟨later, rfl, hmem⟩
        exact ⟨later, run, hmem, rfl, rfl⟩
    · rw [pieces_append front hbyte, pieces_of_printable hfront, List.filter_append, ← hpieces,
        List.map_append, map_snd_lead, List.map_map]
      rfl

/-- What is left of a run without the tabs at its ends. -/
structure Trims (run kept : List UInt8) : Prop where
  whole : ∃ before after, run = List.replicate before tab ++ kept ++ List.replicate after tab
  front : kept.head? ≠ some tab
  back : kept.getLast? ≠ some tab

theorem exists_tabs (run : List UInt8) :
    ∃ tabs, run = List.replicate tabs tab ++ run.dropWhile (· == tab) := by
  have htabs : run.takeWhile (· == tab) =
      List.replicate (run.takeWhile (· == tab)).length tab :=
    List.eq_replicate_of_mem fun byte hbyte => by simpa using List.mem_takeWhile_imp hbyte
  refine ⟨(run.takeWhile (· == tab)).length, ?_⟩
  rw [← htabs, List.takeWhile_append_dropWhile]

theorem head?_dropWhile_ne (run : List UInt8) : (run.dropWhile (· == tab)).head? ≠ some tab := by
  intro h
  have hnot := List.head?_dropWhile_not (· == tab) run
  rw [h] at hnot
  cases hnot

theorem trims_trimTabs (run : List UInt8) : Trims run (trimTabs run) := by
  obtain ⟨before, hbefore⟩ := exists_tabs run
  obtain ⟨after, hafter⟩ := exists_tabs (run.dropWhile (· == tab)).reverse
  have hkept : run.dropWhile (· == tab) = trimTabs run ++ List.replicate after tab := by
    rw [trimTabs, ← List.reverse_replicate, ← List.reverse_append, ← hafter, List.reverse_reverse]
  refine ⟨⟨before, after, ?_⟩, ?_, ?_⟩
  · rw [List.append_assoc, ← hkept, ← hbefore]
  · have hfront := head?_dropWhile_ne run
    rw [hkept] at hfront
    cases htrim : trimTabs run with
    | nil => simp
    | cons byte kept => simpa [htrim] using hfront
  · rw [trimTabs, List.getLast?_reverse]
    exact head?_dropWhile_ne _

theorem encode_texts (least : ℕ) (data : List UInt8) :
    (texts least data).map Utf8.encode =
      (((pieces data).filter fun run => max least 1 ≤ run.length).map trimTabs).filter (· ≠ []) := by
  rw [texts, List.map_map]
  refine (List.map_congr_left fun kept hkept => ?_).trans (List.map_id _)
  obtain ⟨run, hrun, rfl⟩ := List.mem_map.mp (List.mem_filter.mp hkept).1
  refine Utf8.encode_asciiText fun byte hbyte => ?_
  have hprintable := printable_pieces data run (List.mem_filter.mp hrun).1
  have hrange := toNat_of_isPrintable (hprintable byte ((trimTabs_sublist run).subset hbyte))
  omega

/-- The texts in data are those of its maximal runs that are long enough, in the order of their places,
without the tabs at their ends; only what is empty then is left out. So a byte that is not printable
parts data in two that are read apart. -/
theorem texts_maximal (least : ℕ) :
    (∀ data, ∃ (runs : List (ℕ × List UInt8)) (kept : List (List UInt8)),
      runs.Pairwise (fun first second => first.1 < second.1) ∧
      (∀ start run, (start, run) ∈ runs ↔ RunAt data start run) ∧
      List.Forall₂ Trims ((runs.map Prod.snd).filter fun run => max least 1 ≤ run.length) kept ∧
      (texts least data).map Utf8.encode = kept.filter (· ≠ [])) ∧
    ∀ front byte rest, isPrintable byte = false →
      texts least (front ++ [byte] ++ rest) = texts least front ++ texts least rest := by
  constructor
  · intro data
    obtain ⟨runs, hsorted, hruns, hpieces⟩ := exists_runs data
    have hlong : (runs.map Prod.snd).filter (fun run => max least 1 ≤ run.length) =
        (pieces data).filter fun run => max least 1 ≤ run.length := by
      rw [hpieces, List.filter_filter]
      refine List.filter_congr fun run _ => ?_
      cases run <;> simp
    refine ⟨runs, ((pieces data).filter fun run => max least 1 ≤ run.length).map trimTabs, hsorted, hruns,
      ?_, encode_texts least data⟩
    rw [hlong, List.forall₂_map_right_iff, List.forall₂_same]
    exact fun run _ => trims_trimTabs run
  · intro front byte rest hbyte
    rw [List.append_assoc, List.singleton_append]
    exact texts_append least front hbyte rest

/-- Of a run between tabs, one that is short, one of tabs alone and one of just the least length, the
first and the last are read. -/
theorem texts_maximal_between :
    isPrintable 0x7F = false ∧
    texts 4 (Utf8.encode "\ta.so\t\nabc" ++ [0x7F] ++ Utf8.encode "\t\t\t\t\nb.so") = ["a.so", "b.so"] := by
  have hbyte : isPrintable 0x7F = false := by decide
  refine ⟨hbyte, ?_⟩
  rw [(texts_maximal 4).2 _ _ _ hbyte]
  decide +kernel

end PrintableRuns

end BlobCensus
