/-
Lists in which everything has one place.

The order of staging and the order of use are told by the last place of each hash in
a longer sequence.
-/
import Mathlib.Data.List.Dedup
import Mathlib.Data.List.Perm.Subperm

namespace MerkleBuffer

variable {α : Type} {l l' : List α}

theorem dedup_concat [DecidableEq α] (l : List α) (h : α) : (l ++ [h]).dedup = l.dedup.filter (· ≠ h) ++ [h] := by
  induction l with
  | nil => rfl
  | cons x rest ih =>
    rw [List.cons_append]
    by_cases hx : x ∈ rest
    · rw [List.dedup_cons_of_mem (List.mem_append_left _ hx), List.dedup_cons_of_mem hx, ih]
    · rw [List.dedup_cons_of_notMem hx]
      by_cases heq : x = h
      · subst heq
        rw [List.dedup_cons_of_mem (by simp), ih, List.filter_cons_of_neg (by simp)]
      · rw [List.dedup_cons_of_notMem (by simp [hx, heq]), ih, List.filter_cons_of_pos (by simpa using heq),
          List.cons_append]

theorem sublist_eq_filter (hsub : l'.Sublist l) (hnodup : l.Nodup) {p : α → Bool} (hp : ∀ k, k ∈ l' ↔ p k = true) :
    l' = l.filter p := by
  have hself : l'.filter p = l' := List.filter_eq_self.2 fun k hk => (hp k).1 hk
  have hfilter : l'.Sublist (l.filter p) := by
    have h := hsub.filter p
    rwa [hself] at h
  refine hfilter.eq_of_length_le ((hnodup.filter p).subperm fun k hk => ?_).length_le
  exact (hp k).2 (List.mem_filter.1 hk).2

end MerkleBuffer
