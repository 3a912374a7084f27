import Mathlib.Data.List.Sort
import Stroem.Foundation.Dictionary

/-!
# The entries of a dictionary in the order of their keys

Sorting removes what the iteration order of a hash map leaves open: two dictionaries have the same
sorted entries exactly when they hold the same values.
-/

namespace Stroem.Foundation

variable {κ α : Type*}

theorem nodup_map_fst_pairs (dict : Dict κ α) : ((pairs dict).map Prod.fst).Nodup := by
  have h := dict.nodupKeys
  unfold List.NodupKeys List.keys at h
  rwa [pairs, List.map_map]

section Sorted

variable [LE κ] [LT κ] [DecidableLE κ]

def sortedPairs (dict : Dict κ α) : List (κ × α) :=
  (pairs dict).insertionSort fun e e' => e.1 ≤ e'.1

omit [LT κ] in
theorem mem_sortedPairs [DecidableEq κ] {dict : Dict κ α} {key : κ} {value : α} :
    (key, value) ∈ sortedPairs dict ↔ dict.lookup key = some value := by
  rw [sortedPairs, List.mem_insertionSort, mem_pairs]

variable [Std.IsLinearOrder κ] [Std.LawfulOrderLT κ]

theorem sortedPairs_pairwise (dict : Dict κ α) :
    (sortedPairs dict).Pairwise fun e e' => e.1 < e'.1 := by
  have htotal : Std.Total fun e e' : κ × α => e.1 ≤ e'.1 := ⟨fun e e' => Std.le_total⟩
  have htrans : IsTrans (κ × α) fun e e' => e.1 ≤ e'.1 := ⟨fun _ _ _ => Std.le_trans⟩
  have hle : (sortedPairs dict).Pairwise fun e e' => e.1 ≤ e'.1 :=
    List.pairwise_insertionSort _ _
  have hne : (sortedPairs dict).Pairwise fun e e' => e.1 ≠ e'.1 := by
    have hperm := (List.perm_insertionSort (fun e e' : κ × α => e.1 ≤ e'.1) (pairs dict)).map
      Prod.fst
    have hnodup := hperm.nodup_iff.mpr (nodup_map_fst_pairs dict)
    exact List.pairwise_map.mp hnodup
  exact (hle.and hne).imp fun h => Std.lt_of_le_of_ne h.1 h.2

theorem sortedPairs_eq_iff [DecidableEq κ] {dict dict' : Dict κ α} :
    sortedPairs dict = sortedPairs dict' ↔ ∀ key, dict.lookup key = dict'.lookup key := by
  have hnodup : ∀ d : Dict κ α, (sortedPairs d).Nodup := by
    refine fun d => (sortedPairs_pairwise d).imp ?_
    rintro e e' hlt rfl
    exact Std.lt_irrefl hlt
  constructor
  · intro h key
    refine Option.ext fun value => ?_
    rw [← mem_sortedPairs, ← mem_sortedPairs, h]
  · intro h
    have hperm : (sortedPairs dict).Perm (sortedPairs dict') := by
      refine (List.perm_ext_iff_of_nodup (hnodup _) (hnodup _)).mpr fun e => ?_
      obtain ⟨key, value⟩ := e
      rw [mem_sortedPairs, mem_sortedPairs, h]
    refine List.Perm.eq_of_pairwise ?_ (sortedPairs_pairwise dict) (sortedPairs_pairwise dict')
      hperm
    intro e e' _ _ hlt hgt
    exact absurd (Std.lt_trans hlt hgt) Std.lt_irrefl

end Sorted

end Stroem.Foundation
