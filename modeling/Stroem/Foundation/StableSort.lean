import Mathlib.Data.List.Sort

/-!
# Stable sorting

A stable sort of a list without repeats, as one strict order: by the keys, and where these are
level by the position in a list that tells which came first.  A set of elements has one list that
is sorted by such an order (`List.Pairwise.eq_of_mem_iff`), whichever way it was built.
-/

namespace Stroem.Foundation

variable {α : Type*}

/-! ## Insertion keeps what holds of ties -/

variable {r : α → α → Prop}

theorem pairwise_orderedInsert_tie {s : α → α → Prop} [DecidableRel r]
    (htotal : ∀ x y, r x y ∨ r y x) (htrans : ∀ x y z, r x y → r y z → r x z) {a : α}
    {l : List α} (ha : ∀ y ∈ l, s a y) (hl : l.Pairwise fun x y => r x y ∧ (r y x → s x y)) :
    (l.orderedInsert r a).Pairwise fun x y => r x y ∧ (r y x → s x y) := by
  induction l with
  | nil => exact List.pairwise_singleton _ _
  | cons b l ih =>
    obtain ⟨hb, htail⟩ := List.pairwise_cons.mp hl
    rw [List.orderedInsert_cons]
    by_cases hab : r a b
    · rw [if_pos hab]
      refine List.pairwise_cons.mpr ⟨?_, hl⟩
      intro y hy
      refine ⟨?_, fun _ => ha y hy⟩
      obtain rfl | hmem := List.mem_cons.mp hy
      · exact hab
      · exact htrans a b y hab (hb y hmem).1
    · rw [if_neg hab]
      refine List.pairwise_cons.mpr ⟨?_, ih (fun y hy => ha y (List.mem_cons_of_mem _ hy)) htail⟩
      intro y hy
      obtain rfl | hmem := (List.mem_orderedInsert r).mp hy
      · exact ⟨(htotal y b).resolve_left hab, fun h => absurd h hab⟩
      · exact hb y hmem

theorem pairwise_insertionSort_tie {s : α → α → Prop} [DecidableRel r]
    (htotal : ∀ x y, r x y ∨ r y x) (htrans : ∀ x y z, r x y → r y z → r x z) {l : List α}
    (hl : l.Pairwise s) : (l.insertionSort r).Pairwise fun x y => r x y ∧ (r y x → s x y) := by
  induction l with
  | nil => exact List.Pairwise.nil
  | cons a l ih =>
    obtain ⟨ha, htail⟩ := List.pairwise_cons.mp hl
    rw [List.insertionSort_cons]
    refine pairwise_orderedInsert_tie htotal htrans ?_ (ih htail)
    intro y hy
    exact ha y ((List.mem_insertionSort r).mp hy)

/-! ## The order of a stable sort -/

variable [BEq α]

def StableLt (r : α → α → Prop) (input : List α) (x y : α) : Prop :=
  r x y ∧ (r y x → input.idxOf x < input.idxOf y)

theorem StableLt.asymm {input : List α} {x y : α} (h : StableLt r input x y) :
    ¬ StableLt r input y x := by
  intro h'
  have hxy := h.2 h'.1
  have hyx := h'.2 h.1
  omega

instance (r : α → α → Prop) (input : List α) : Std.Irrefl (StableLt r input) :=
  ⟨fun _ h => h.asymm h⟩

instance (r : α → α → Prop) (input : List α) : Std.Antisymm (StableLt r input) :=
  ⟨fun _ _ h h' => absurd h' h.asymm⟩

theorem pairwise_stableLt_congr {input other xs : List α}
    (h : ∀ x ∈ xs, ∀ y ∈ xs, r x y → r y x → input.idxOf x < input.idxOf y →
      other.idxOf x < other.idxOf y) (hxs : xs.Pairwise (StableLt r input)) :
    xs.Pairwise (StableLt r other) := by
  refine List.Pairwise.imp_of_mem ?_ hxs
  intro x y hx hy hxy
  exact ⟨hxy.1, fun hyx => h x hx y hy hxy.1 hyx (hxy.2 hyx)⟩

/-! ## Positions in a sorted list and in what was sorted -/

variable [LawfulBEq α]

theorem stableLt_of_idxOf_lt {input sorted : List α}
    (hsorted : sorted.Pairwise (StableLt r input)) {x y : α} (hy : y ∈ sorted)
    (h : sorted.idxOf x < sorted.idxOf y) : StableLt r input x y := by
  have hylen := List.idxOf_lt_length_of_mem hy
  have hpair := List.pairwise_iff_getElem.mp hsorted _ _ (h.trans hylen) hylen h
  rwa [List.getElem_idxOf, List.getElem_idxOf] at hpair

theorem idxOf_lt_of_stableLt {input sorted : List α}
    (hsorted : sorted.Pairwise (StableLt r input)) {x y : α} (hx : x ∈ sorted) (hy : y ∈ sorted)
    (h : StableLt r input x y) : sorted.idxOf x < sorted.idxOf y := by
  by_contra hnot
  have hne : sorted.idxOf y ≠ sorted.idxOf x := by
    intro heq
    rw [(List.idxOf_inj hy).mp heq] at h
    exact h.asymm h
  exact h.asymm (stableLt_of_idxOf_lt hsorted hx (lt_of_le_of_ne (not_lt.mp hnot) hne))

theorem idxOf_lt_of_sorted_append {front sorted back : List α}
    (hsorted : sorted.Pairwise (StableLt r front)) {x y : α} (hx : x ∈ sorted ∨ x ∉ front)
    (hy : y ∈ sorted ∨ y ∉ front) (hsub : ∀ z ∈ sorted, z ∈ front) (hyx : r y x)
    (h : (sorted ++ back).idxOf x < (sorted ++ back).idxOf y) :
    (front ++ back).idxOf x < (front ++ back).idxOf y := by
  obtain hx | hx := hx
  · rw [List.idxOf_append_of_mem (hsub x hx)]
    obtain hy | hy := hy
    · rw [List.idxOf_append_of_mem hx, List.idxOf_append_of_mem hy] at h
      rw [List.idxOf_append_of_mem (hsub y hy)]
      exact (stableLt_of_idxOf_lt hsorted hy h).2 hyx
    · rw [List.idxOf_append_of_notMem hy]
      have hlen := List.idxOf_lt_length_of_mem (hsub x hx)
      omega
  · have hxs : x ∉ sorted := fun hmem => hx (hsub x hmem)
    rw [List.idxOf_append_of_notMem hxs] at h
    obtain hy | hy := hy
    · rw [List.idxOf_append_of_mem hy] at h
      have hlen := List.idxOf_lt_length_of_mem hy
      omega
    · rw [List.idxOf_append_of_notMem fun hmem => hy (hsub y hmem)] at h
      rw [List.idxOf_append_of_notMem hx, List.idxOf_append_of_notMem hy]
      omega

theorem idxOf_lt_of_append_sorted {front sorted back : List α}
    (hsorted : sorted.Pairwise (StableLt r back)) {x y : α} (hy : y ∈ front ∨ y ∈ sorted)
    (hyx : r y x) (h : (front ++ sorted).idxOf x < (front ++ sorted).idxOf y) :
    (front ++ back).idxOf x < (front ++ back).idxOf y := by
  by_cases hxf : x ∈ front
  · rw [List.idxOf_append_of_mem hxf] at h ⊢
    by_cases hyf : y ∈ front
    · rw [List.idxOf_append_of_mem hyf] at h ⊢
      exact h
    · rw [List.idxOf_append_of_notMem hyf]
      have hlen := List.idxOf_lt_length_of_mem hxf
      omega
  · rw [List.idxOf_append_of_notMem hxf] at h ⊢
    by_cases hyf : y ∈ front
    · rw [List.idxOf_append_of_mem hyf] at h
      have hlen := List.idxOf_lt_length_of_mem hyf
      omega
    · rw [List.idxOf_append_of_notMem hyf] at h ⊢
      have hlt := (stableLt_of_idxOf_lt hsorted (hy.resolve_left hyf) (by omega)).2 hyx
      omega

end Stroem.Foundation
