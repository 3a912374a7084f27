import Mathlib.Data.List.Dedup
import Mathlib.Data.List.Nodup
import Mathlib.Data.List.Sort
import Mathlib.Tactic.Common

/-!
# The slots of the pin store

A slot holds a single-flight cell and when it was last used.  The maps of the store are lists
here, in the order a loop over the map visits them.  Which cells are loaded and which are in use
is the store's to say, so both are parameters.
-/

namespace Stroem.Pins

abbrev Key := String × String

structure Slot where
  cell : Nat
  lastUsed : Nat
  deriving DecidableEq

abbrev SlotMap := List (Key × Slot)

def slotCell (map : SlotMap) (key : Key) (fresh now : Nat) : SlotMap :=
  if map.any (fun e => e.1 == key) then
    map.map fun e => if e.1 == key then (e.1, { e.2 with lastUsed := now }) else e
  else
    map ++ [(key, { cell := fresh, lastUsed := now })]

def cellOf (map : SlotMap) (key : Key) (fresh : Nat) : Nat :=
  ((map.find? fun e => e.1 == key).map fun e => e.2.cell).getD fresh

def byRecency (loaded : Nat → Bool) (map : SlotMap) (ws : String) : SlotMap :=
  (map.filter fun e => loaded e.2.cell && e.1.1 == ws).mergeSort fun a b =>
    b.2.lastUsed ≤ a.2.lastUsed

def mostRecent (loaded : Nat → Bool) (map : SlotMap) (n : Nat) : List Key :=
  (map.map fun e => e.1.1).dedup.flatMap fun ws =>
    ((byRecency loaded map ws).take n).map Prod.fst

def evictable (loaded inUse : Nat → Bool) (map : SlotMap) (keep : List Key) (n : Nat) :
    List Key :=
  (map.filter fun e => !keep.contains e.1 && !(mostRecent loaded map n).contains e.1 &&
    !inUse e.2.cell).map Prod.fst

def Recent (loaded : Nat → Bool) (map : SlotMap) (n : Nat) (key : Key) : Prop :=
  ∃ slot, (key, slot) ∈ map ∧ loaded slot.cell = true ∧
    (map.filter fun e => e.1 != key && loaded e.2.cell && e.1.1 == key.1 &&
      decide (slot.lastUsed ≤ e.2.lastUsed)).length < n

theorem slot_unique {map : SlotMap} (h : (map.map Prod.fst).Nodup) {key : Key} {a b : Slot}
    (ha : (key, a) ∈ map) (hb : (key, b) ∈ map) : a = b := by
  have heq := List.inj_on_of_nodup_map h ha hb rfl
  exact (Prod.mk.inj heq).2

theorem mem_evictable {loaded inUse : Nat → Bool} {map : SlotMap} {keep : List Key} {n : Nat}
    {key : Key} (h : key ∈ evictable loaded inUse map keep n) :
    key ∉ keep ∧ key ∉ mostRecent loaded map n ∧
      ∃ slot, (key, slot) ∈ map ∧ inUse slot.cell = false := by
  unfold evictable at h
  obtain ⟨⟨k, slot⟩, hmem, rfl⟩ := List.mem_map.mp h
  obtain ⟨hmap, hcond⟩ := List.mem_filter.mp hmem
  simp only [Bool.and_eq_true, Bool.not_eq_true', List.contains_eq_mem,
    decide_eq_false_iff_not] at hcond
  exact ⟨hcond.1.1, hcond.1.2, slot, hmap, hcond.2⟩

theorem slotCell_keys (map : SlotMap) (key : Key) (fresh now : Nat)
    (h : (map.map Prod.fst).Nodup) : ((slotCell map key fresh now).map Prod.fst).Nodup := by
  unfold slotCell
  split
  case isTrue =>
    rw [List.map_map]
    have hfst : (Prod.fst ∘ fun e : Key × Slot =>
        if e.1 == key then (e.1, { e.2 with lastUsed := now }) else e) = Prod.fst := by
      funext e
      simp only [Function.comp_apply]
      split <;> rfl
    rw [hfst]
    exact h
  case isFalse hnone =>
    simp only [List.any_eq_true, beq_iff_eq, not_exists, not_and] at hnone
    rw [List.map_append, List.nodup_append]
    refine ⟨h, by simp, ?_⟩
    intro a ha b hb heq
    obtain ⟨e, he, rfl⟩ := List.mem_map.mp ha
    obtain rfl : b = key := by simpa using hb
    exact hnone e he heq

theorem slotCell_keeps {map : SlotMap} {key k : Key} {slot : Slot} (fresh now : Nat)
    (h : (k, slot) ∈ map) :
    ∃ slot', (k, slot') ∈ slotCell map key fresh now ∧ slot'.cell = slot.cell := by
  unfold slotCell
  split
  case isTrue =>
    by_cases hk : k = key
    · subst hk
      refine ⟨{ slot with lastUsed := now }, List.mem_map.mpr ⟨(k, slot), h, ?_⟩, rfl⟩
      simp
    · refine ⟨slot, List.mem_map.mpr ⟨(k, slot), h, ?_⟩, rfl⟩
      simp [hk]
  case isFalse => exact ⟨slot, List.mem_append_left _ h, rfl⟩

theorem mem_slotCell {map : SlotMap} {key k : Key} {slot : Slot} {fresh now : Nat}
    (h : (k, slot) ∈ slotCell map key fresh now) :
    (∃ slot', (k, slot') ∈ map ∧ slot'.cell = slot.cell) ∨
      (k = key ∧ slot.cell = fresh ∧ ∀ slot', (key, slot') ∉ map) := by
  unfold slotCell at h
  split at h
  case isTrue =>
    obtain ⟨⟨k', slot'⟩, hmem, heq⟩ := List.mem_map.mp h
    left
    simp only at heq
    split at heq
    · obtain ⟨rfl, rfl⟩ := Prod.mk.inj heq
      exact ⟨slot', hmem, rfl⟩
    · obtain ⟨rfl, rfl⟩ := Prod.mk.inj heq
      exact ⟨slot', hmem, rfl⟩
  case isFalse hnone =>
    obtain hmem | hnew := List.mem_append.mp h
    · exact .inl ⟨slot, hmem, rfl⟩
    · obtain ⟨rfl, rfl⟩ := Prod.mk.inj (List.mem_singleton.mp hnew)
      refine .inr ⟨rfl, rfl, fun slot' hmem => hnone ?_⟩
      exact List.any_eq_true.mpr ⟨(k, slot'), hmem, by simp⟩

theorem cellOf_mem (map : SlotMap) (key : Key) (fresh now : Nat) :
    ∃ slot, (key, slot) ∈ slotCell map key fresh now ∧ slot.cell = cellOf map key fresh := by
  unfold cellOf
  cases hfind : map.find? fun e => e.1 == key with
  | some e =>
    obtain ⟨k, slot⟩ := e
    have hkey : k = key := by simpa using List.find?_some hfind
    subst hkey
    obtain ⟨slot', hmem, hcell⟩ : ∃ slot', (k, slot') ∈ slotCell map k fresh now ∧
        slot'.cell = slot.cell := slotCell_keeps fresh now (List.mem_of_find?_eq_some hfind)
    exact ⟨slot', hmem, by simpa using hcell⟩
  | none =>
    have hnone : ¬ (map.any fun e => e.1 == key) = true := by
      intro hany
      obtain ⟨e, hmem, heq⟩ := List.any_eq_true.mp hany
      exact List.find?_eq_none.mp hfind e hmem heq
    refine ⟨{ cell := fresh, lastUsed := now }, ?_, by simp⟩
    simp only [slotCell, hnone]
    simp

/-! ## Recency -/

theorem take_of_few {α : Type*} {r : α → α → Prop} {l : List α} (hsorted : l.Pairwise r) {x : α}
    (hx : x ∈ l) {n : Nat} {p : α → Bool} (hp : ∀ y ∈ l, r y x → y ≠ x → p y = true)
    (hnodup : l.Nodup) (hfew : (l.filter p).length < n) : x ∈ l.take n := by
  obtain ⟨before, after, rfl⟩ := List.append_of_mem hx
  have hbefore : ∀ y ∈ before, p y = true := by
    intro y hy
    refine hp y (List.mem_append_left _ hy)
      ((List.pairwise_append.mp hsorted).2.2 y hy x List.mem_cons_self) ?_
    rintro rfl
    exact (List.nodup_append.mp hnodup).2.2 y hy y List.mem_cons_self rfl
  have hlen : before.length ≤ ((before ++ x :: after).filter p).length := by
    rw [List.filter_append, List.length_append, List.filter_eq_self.mpr hbefore]
    omega
  rw [List.take_append, List.mem_append]
  right
  have hpos : 0 < n - before.length := by omega
  obtain ⟨m, hm⟩ : ∃ m, n - before.length = m + 1 := ⟨n - before.length - 1, by omega⟩
  rw [hm, List.take_succ_cons]
  exact List.mem_cons_self

theorem recent_mem_mostRecent {loaded : Nat → Bool} {map order : SlotMap} {n : Nat} {key : Key}
    (hkeys : (map.map Prod.fst).Nodup) (hperm : order.Perm map) (h : Recent loaded map n key) :
    key ∈ mostRecent loaded order n := by
  obtain ⟨slot, hmem, hloaded, hfew⟩ := h
  have hmem' : (key, slot) ∈ order := hperm.mem_iff.mpr hmem
  have hnodup : order.Nodup := hperm.nodup_iff.mpr (List.Nodup.of_map Prod.fst hkeys)
  have hkeys' : (order.map Prod.fst).Nodup := (hperm.map Prod.fst).nodup_iff.mpr hkeys
  refine List.mem_flatMap.mpr ⟨key.1, ?_, ?_⟩
  · exact List.mem_dedup.mpr (List.mem_map.mpr ⟨(key, slot), hmem', rfl⟩)
  refine List.mem_map.mpr ⟨(key, slot), ?_, rfl⟩
  have hsame : (byRecency loaded order key.1).Perm
      (order.filter fun e => loaded e.2.cell && e.1.1 == key.1) := List.mergeSort_perm _ _
  have hsorted : (byRecency loaded order key.1).Pairwise fun a b =>
      decide (b.2.lastUsed ≤ a.2.lastUsed) = true :=
    List.pairwise_mergeSort
      (fun a b c hab hbc => by simp only [decide_eq_true_eq] at *; omega)
      (fun a b => by simp only [Bool.or_eq_true, decide_eq_true_eq]; omega) _
  have hmem_iff : ∀ e, e ∈ byRecency loaded order key.1 ↔
      e ∈ order ∧ loaded e.2.cell = true ∧ e.1.1 = key.1 := by
    intro e
    rw [hsame.mem_iff, List.mem_filter, Bool.and_eq_true, beq_iff_eq]
  refine take_of_few (p := fun e => e.1 != key && loaded e.2.cell && e.1.1 == key.1 &&
      decide (slot.lastUsed ≤ e.2.lastUsed)) hsorted ((hmem_iff _).mpr ⟨hmem', hloaded, rfl⟩)
    ?_ ?_ ?_
  · intro e he hle hne
    obtain ⟨hin, hl, hws⟩ := (hmem_iff e).mp he
    have hkey : e.1 ≠ key := by
      intro heq
      exact hne (List.inj_on_of_nodup_map hkeys' hin hmem' heq)
    simpa [hl, hws, hkey] using hle
  · exact hsame.nodup_iff.mpr (hnodup.filter _)
  · rw [(hsame.filter _).length_eq, List.filter_filter, (hperm.filter _).length_eq]
    refine lt_of_le_of_lt (le_of_eq ?_) hfew
    congr 1
    refine List.filter_congr fun e _ => ?_
    cases loaded e.2.cell <;> cases e.1.1 == key.1 <;> simp

end Stroem.Pins
