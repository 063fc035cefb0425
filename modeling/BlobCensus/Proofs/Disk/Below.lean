import BlobCensus.Proofs.Disk.Names

/-!
# Paths below a root

Names may be joined to any text of a root: with dots and repeated slashes in it, absolute or not, and
with or without a slash at its end. They come after all that the root stands for, both among the
components of the path and among the steps that it asks for. Only a slash at the root's end is then no
step of its own.
-/
namespace BlobCensus.Path

variable {root p : Path} {n first : Segment} {names more rest : List Segment}

theorem join_name (root : Path) (hn : n.IsName) : root.join ⟨n⟩ =
    if root.bytes = [] ∨ root.bytes.getLast? = some slash then ⟨root.bytes ++ n⟩
    else ⟨root.bytes ++ slash :: n⟩ := by
  have hrelative : (⟨n⟩ : Path).isAbsolute = false := by simpa [isAbsolute] using hn.head?_ne
  rw [join, hrelative, if_neg Bool.false_ne_true]

/-- A name is one more part of a path. It takes the place of an empty last part. -/
theorem exists_lead (hroot : root.bytes ≠ []) (hn : n.IsName) : ∃ first lead,
    (root.join ⟨n⟩).bytes.splitOn slash = first :: (lead ++ [n]) ∧
    (root.bytes.splitOn slash = first :: lead ∨ root.bytes.splitOn slash = first :: (lead ++ [[]])) := by
  have hone : n.splitOn slash = [n] := List.splitOn_eq_singleton hn.noSlash
  by_cases hend : root.bytes.getLast? = some slash
  · obtain ⟨front, hfront⟩ := List.getLast?_eq_some_iff.mp hend
    obtain ⟨first, lead, hsplit⟩ := List.exists_cons_of_ne_nil (List.splitOn_ne_nil slash front)
    refine ⟨first, lead, ?_, .inr ?_⟩
    · rw [join_name root hn, if_pos (.inr hend), hfront, List.append_assoc,
        List.singleton_append, List.splitOn_append_cons_self, hone, hsplit]
      rfl
    · rw [hfront, List.splitOn_append_cons_self, hsplit]
      rfl
  · obtain ⟨first, lead, hsplit⟩ := List.exists_cons_of_ne_nil (List.splitOn_ne_nil slash root.bytes)
    refine ⟨first, lead, ?_, .inl hsplit⟩
    rw [join_name root hn, if_neg (by simp [hroot, hend]),
      List.splitOn_append_cons_self, hone, hsplit]
    rfl

theorem isAbsolute_join (hroot : root.bytes ≠ []) (hn : n.IsName) :
    (root.join ⟨n⟩).isAbsolute = root.isAbsolute := by
  obtain ⟨byte, bytes, hbytes⟩ := List.exists_cons_of_ne_nil hroot
  rw [join_name root hn]
  split <;> simp [isAbsolute, hbytes]

theorem components_of_splitOn (h : p.bytes.splitOn slash = first :: rest) : p.components =
    (if p.isAbsolute then some .root else if first = [0x2E] then some .here
      else Component.ofSegment? first).toList ++ rest.filterMap Component.ofSegment? := by
  simp only [components, parts, h, List.filterMap_cons, List.filterMap_map]
  split <;> simp_all

theorem components_join (hroot : root.bytes ≠ []) (hn : n.IsName) :
    (root.join ⟨n⟩).components = root.components ++ [.name n] := by
  obtain ⟨first, lead, hjoin, hsplit⟩ := exists_lead hroot hn
  have hname : [n].filterMap Component.ofSegment? = [.name n] := by simp [hn.named]
  rw [components_of_splitOn hjoin, isAbsolute_join hroot hn, List.filterMap_append, hname,
    ← List.append_assoc]
  congr 1
  rcases hsplit with hsplit | hsplit
  · rw [components_of_splitOn hsplit]
  · have hempty : [[]].filterMap Component.ofSegment? = [] := rfl
    rw [components_of_splitOn hsplit, List.filterMap_append, hempty, List.append_nil]

def stepOf (s : Segment) : Step :=
  match Component.ofSegment? s with
  | none => .stay
  | some .up => .up
  | some _ => .down s

theorem steps_eq (p : Path) : p.steps = (p.bytes.splitOn slash).map stepOf := rfl

theorem stepOf_name (hn : n.IsName) : stepOf n = .down n := by rw [stepOf, hn.named]

theorem exists_steps_join (hroot : root.bytes ≠ []) (hn : n.IsName) : ∃ lead,
    (root.join ⟨n⟩).steps = lead ++ [.down n] ∧ (root.steps = lead ∨ root.steps = lead ++ [.stay]) := by
  obtain ⟨first, lead, hjoin, hsplit⟩ := exists_lead hroot hn
  refine ⟨(first :: lead).map stepOf, ?_, hsplit.imp (fun h => ?_) fun h => ?_⟩
  · rw [steps_eq, hjoin, ← List.cons_append, List.map_append, List.map_singleton, stepOf_name hn]
  · rw [steps_eq, h]
  · rw [steps_eq, h, ← List.cons_append, List.map_append]
    rfl

theorem mustBeText_eq_ok : Disk.mustBeText p = .ok () ↔ 0 ∉ p.bytes ∧ p.bytes ≠ [] := by
  rw [Disk.mustBeText]
  by_cases hzero : 0 ∈ p.bytes
  · simp [hzero]
  · by_cases hempty : p.bytes = [] <;> simp [hzero, hempty]

theorem mustBeText_join (hroot : Disk.mustBeText root = .ok ()) (hn : n.IsName) :
    Disk.mustBeText (root.join ⟨n⟩) = .ok () := by
  obtain ⟨hzero, hempty⟩ := mustBeText_eq_ok.mp hroot
  have hslash : (0 : UInt8) ≠ slash := by decide
  rw [mustBeText_eq_ok, join_name root hn]
  split
  · exact ⟨by simp [hzero, hn.noZero], by simp [hempty]⟩
  · exact ⟨by simp [hzero, hn.noZero, hslash], by simp⟩

theorem length_le_join (root : Path) (hn : n.IsName) :
    root.bytes.length ≤ (root.join ⟨n⟩).bytes.length := by
  rw [join_name root hn]
  split <;> simp

/-- Further down paths are longer. -/
theorem isShort_of_below (hnames : ∀ n ∈ names, n.IsName) (h : (root.below names).isShort = true) :
    root.isShort = true := by
  induction names generalizing root with
  | nil => exact h
  | cons n rest ih =>
    obtain ⟨hn, hrest⟩ := List.forall_mem_cons.mp hnames
    have hshort := ih hrest h
    simp only [isShort, decide_eq_true_eq] at hshort ⊢
    exact (length_le_join root hn).trans hshort

theorem below_append (root : Path) (names more : List Segment) :
    root.below (names ++ more) = (root.below names).below more :=
  List.foldl_append

section Below

variable (hroot : Disk.mustBeText root = .ok ()) (hnames : ∀ n ∈ names, n.IsName)
include hroot hnames

theorem mustBeText_below : Disk.mustBeText (root.below names) = .ok () := by
  induction names generalizing root with
  | nil => exact hroot
  | cons n rest ih =>
    obtain ⟨hn, hrest⟩ := List.forall_mem_cons.mp hnames
    exact ih (mustBeText_join hroot hn) hrest

theorem isAbsolute_below : (root.below names).isAbsolute = root.isAbsolute := by
  induction names generalizing root with
  | nil => rfl
  | cons n rest ih =>
    obtain ⟨hn, hrest⟩ := List.forall_mem_cons.mp hnames
    exact (ih (mustBeText_join hroot hn) hrest).trans (isAbsolute_join (mustBeText_eq_ok.mp hroot).2 hn)

theorem components_below : (root.below names).components = root.components ++ names.map .name := by
  induction names generalizing root with
  | nil => exact (List.append_nil _).symm
  | cons n rest ih =>
    obtain ⟨hn, hrest⟩ := List.forall_mem_cons.mp hnames
    have hbelow := ih (mustBeText_join hroot hn) hrest
    rw [components_join (mustBeText_eq_ok.mp hroot).2 hn, List.append_assoc] at hbelow
    exact hbelow

theorem exists_steps_below : ∃ lead, (root.below names).steps = lead ++ names.map .down ∧
    (root.steps = lead ∨ root.steps = lead ++ [.stay]) := by
  induction names generalizing root with
  | nil => exact ⟨root.steps, (List.append_nil _).symm, .inl rfl⟩
  | cons n rest ih =>
    obtain ⟨hn, hrest⟩ := List.forall_mem_cons.mp hnames
    obtain ⟨lead, hjoin, hlead⟩ := exists_steps_join (mustBeText_eq_ok.mp hroot).2 hn
    obtain ⟨longer, hbelow, hlonger⟩ := ih (mustBeText_join hroot hn) hrest
    have hsame : longer = lead ++ [.down n] := by
      rcases hlonger with h | h
      · exact h.symm.trans hjoin
      · rw [hjoin] at h
        simpa using List.append_inj_right' h rfl
    refine ⟨lead, ?_, hlead⟩
    rw [hsame, List.append_assoc] at hbelow
    exact hbelow

end Below

/-- Below one root, different names have different paths in every sense. -/
theorem same_below (hroot : Disk.mustBeText root = .ok ()) (hnames : ∀ n ∈ names, n.IsName)
    (hmore : ∀ n ∈ more, n.IsName) : (root.below names).Same (root.below more) ↔ names = more := by
  rw [Same, components_below hroot hnames, components_below hroot hmore, List.append_right_inj]
  exact (List.map_injective_iff.mpr fun _ _ h => Component.name.inj h).eq_iff

end BlobCensus.Path
