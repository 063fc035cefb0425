import Mathlib.Data.List.Induction
import Mathlib.Data.List.Nodup

/-!
# The first of each key

The members of a list that come before all others with their key, and the rest, told by positions. A
member that is added at the end joins the first ones exactly if its key is new.
-/
namespace BlobCensus

variable {α β : Type} (key : α → β) (xs : List α) (x : α)

/-- No member before the position has the key of the one that stands there. -/
def IsFirst (place : α × ℕ) : Prop := key place.1 ∉ (xs.take place.2).map key

theorem isFirst_append_iff (ys : List α) {place : α × ℕ} (h : place ∈ xs.zipIdx) :
    IsFirst key (xs ++ ys) place ↔ IsFirst key xs place := by
  have hplace : place.2 < xs.length := List.snd_lt_of_mem_zipIdx h
  rw [IsFirst, IsFirst, List.take_append_of_le_length (Nat.le_of_lt hplace)]

theorem isFirst_concat_iff :
    IsFirst key (xs ++ [x]) (x, xs.length) ↔ key x ∉ xs.map key := by
  rw [IsFirst, List.take_left]

variable [DecidableEq β]

instance (place : α × ℕ) : Decidable (IsFirst key xs place) :=
  inferInstanceAs (Decidable (_ ∉ _))

def firstsOf : List α := (xs.zipIdx.filter fun place => IsFirst key xs place).map Prod.fst

theorem firstsOf_concat : firstsOf key (xs ++ [x]) =
    if key x ∈ xs.map key then firstsOf key xs else firstsOf key xs ++ [x] := by
  have hxs : (xs.zipIdx.filter fun place => IsFirst key (xs ++ [x]) place) =
      xs.zipIdx.filter fun place => IsFirst key xs place :=
    List.filter_congr fun place h => by simp only [isFirst_append_iff key xs [x] h]
  rw [firstsOf, firstsOf, List.zipIdx_append, List.filter_append, hxs, List.map_append]
  by_cases hx : key x ∈ xs.map key
  · simp [isFirst_concat_iff, hx]
  · simp [isFirst_concat_iff, hx]

variable {key xs x}

theorem mem_of_mem_firstsOf (h : x ∈ firstsOf key xs) : x ∈ xs := by
  obtain ⟨place, hplace, rfl⟩ := List.mem_map.mp h
  exact List.fst_mem_of_mem_zipIdx (List.mem_filter.mp hplace).1

theorem nodup_firstsOf : ((firstsOf key xs).map key).Nodup := by
  induction xs using List.reverseRecOn with
  | nil => exact List.nodup_nil
  | append_singleton xs x ih =>
    rw [firstsOf_concat]
    split
    · exact ih
    · rename_i hnew
      have hfresh : key x ∉ (firstsOf key xs).map key := by
        intro h
        obtain ⟨y, hy, hkey⟩ := List.mem_map.mp h
        exact hnew (List.mem_map.mpr ⟨y, mem_of_mem_firstsOf hy, hkey⟩)
      rw [List.map_append]
      exact List.nodup_append'.mpr ⟨ih, List.nodup_singleton _, by simpa using hfresh⟩

theorem eraseDups_concat [DecidableEq α] (xs : List α) (x : α) :
    (xs ++ [x]).eraseDups = if x ∈ xs then xs.eraseDups else xs.eraseDups ++ [x] := by
  rw [List.eraseDups_append]
  by_cases hx : x ∈ xs <;> simp [List.removeAll, hx, List.eraseDups_cons]

theorem eraseDups_eq_firstsOf [DecidableEq α] (xs : List α) : xs.eraseDups = firstsOf id xs := by
  induction xs using List.reverseRecOn with
  | nil => rfl
  | append_singleton xs x ih =>
    rw [eraseDups_concat, firstsOf_concat, ih, List.map_id]
    rfl

theorem eraseDups_filter [DecidableEq α] (keep : α → Bool) (xs : List α) :
    (xs.filter keep).eraseDups = xs.eraseDups.filter keep := by
  induction xs using List.reverseRecOn with
  | nil => rfl
  | append_singleton xs x ih =>
    rw [List.filter_append, List.eraseDups_append, eraseDups_concat, ih]
    by_cases hkeep : keep x = true <;> by_cases hx : x ∈ xs <;>
      simp [List.removeAll, List.eraseDups_cons, hkeep, hx]

/-- First occurrences keep the order in which they occur. -/
theorem pairwise_eraseDups [DecidableEq α] (xs : List α) :
    xs.eraseDups.Pairwise fun a b => xs.idxOf a < xs.idxOf b := by
  induction xs using List.reverseRecOn with
  | nil => exact .nil
  | append_singleton xs x ih =>
    have hkept : xs.eraseDups.Pairwise fun a b => (xs ++ [x]).idxOf a < (xs ++ [x]).idxOf b := by
      apply List.Pairwise.imp_of_mem _ ih
      intro a b ha hb hlt
      rwa [List.idxOf_append_of_mem (List.mem_eraseDups.mp ha),
        List.idxOf_append_of_mem (List.mem_eraseDups.mp hb)]
    rw [eraseDups_concat]
    split
    · exact hkept
    · rename_i hnew
      refine List.pairwise_append.mpr ⟨hkept, List.pairwise_singleton _ _, fun a ha b hb => ?_⟩
      have hmem : a ∈ xs := List.mem_eraseDups.mp ha
      rw [List.mem_singleton.mp hb, List.idxOf_append_of_mem hmem, List.idxOf_append_of_notMem hnew]
      exact Nat.lt_add_right _ (List.idxOf_lt_length_of_mem hmem)

end BlobCensus
