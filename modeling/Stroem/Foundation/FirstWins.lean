import Mathlib.Data.List.Basic
import Mathlib.Tactic.Common

/-!
# First writer wins

A map that keeps the first value written under a key, as a list of bindings.  It models an
`or_insert` in memory and an `INSERT … ON CONFLICT DO NOTHING` in a table.  Such a map only
grows: `Extends` is the order in which it does, and what is in a map stays there.
-/

namespace Stroem.Foundation

variable {κ ν : Type*} [BEq κ]

def insertFirst (table : List (κ × ν)) (k : κ) (v : ν) : List (κ × ν) :=
  if (table.lookup k).isSome then table else table ++ [(k, v)]

def insertAllFirst (table entries : List (κ × ν)) : List (κ × ν) :=
  entries.foldl (fun table entry => insertFirst table entry.1 entry.2) table

def Extends (table table' : List (κ × ν)) : Prop :=
  ∀ k v, table.lookup k = some v → table'.lookup k = some v

theorem Extends.refl (table : List (κ × ν)) : Extends table table := fun _ _ h => h

theorem Extends.trans {a b c : List (κ × ν)} (h : Extends a b) (h' : Extends b c) :
    Extends a c :=
  fun k v hk => h' k v (h k v hk)

theorem extends_insertFirst (table : List (κ × ν)) (k : κ) (v : ν) :
    Extends table (insertFirst table k v) := by
  intro k' v' h
  unfold insertFirst
  split
  · exact h
  · rw [List.lookup_append, h]
    rfl

variable [LawfulBEq κ]

theorem lookup_insertFirst (table : List (κ × ν)) (k : κ) (v : ν) :
    (insertFirst table k v).lookup k = some ((table.lookup k).getD v) := by
  unfold insertFirst
  cases hk : table.lookup k with
  | none => simp [List.lookup_append, hk]
  | some w => simp [hk]

theorem lookup_insertFirst_of_none {table : List (κ × ν)} {k : κ} (v : ν)
    (h : table.lookup k = none) : (insertFirst table k v).lookup k = some v := by
  rw [lookup_insertFirst, h]
  rfl

theorem lookup_insertFirst_of_ne (table : List (κ × ν)) {k k' : κ} (v : ν) (h : k' ≠ k) :
    (insertFirst table k v).lookup k' = table.lookup k' := by
  unfold insertFirst
  split
  · rfl
  · have hsingle : List.lookup k' [(k, v)] = none := by
      rw [List.lookup_cons, beq_eq_false_iff_ne.mpr h]
      rfl
    rw [List.lookup_append, hsingle, Option.or_none]

theorem lookup_insertAllFirst (table entries : List (κ × ν)) (k : κ) :
    (insertAllFirst table entries).lookup k = (table.lookup k).or (entries.lookup k) := by
  induction entries generalizing table with
  | nil => simp [insertAllFirst]
  | cons entry entries ih =>
    obtain ⟨k', v⟩ := entry
    have hstep : insertAllFirst table ((k', v) :: entries) =
        insertAllFirst (insertFirst table k' v) entries := rfl
    rw [hstep, ih]
    by_cases hk : k = k'
    · subst hk
      rw [lookup_insertFirst, List.lookup_cons_self]
      cases table.lookup k <;> rfl
    · have hcons : List.lookup k ((k', v) :: entries) = entries.lookup k := by
        rw [List.lookup_cons, beq_eq_false_iff_ne.mpr hk]
      rw [lookup_insertFirst_of_ne table v hk, hcons]

theorem lookup_insertAllFirst_nil (entries : List (κ × ν)) (k : κ) :
    (insertAllFirst [] entries).lookup k = entries.lookup k := by
  rw [lookup_insertAllFirst]
  simp

theorem mem_of_lookup {table : List (κ × ν)} {k : κ} {v : ν}
    (h : table.lookup k = some v) : (k, v) ∈ table := by
  obtain ⟨before, after, rfl, -⟩ := List.lookup_eq_some_iff.mp h
  simp

theorem lookup_eq_some_of_mem {table : List (κ × ν)} (h : (table.map Prod.fst).Nodup)
    {e : κ × ν} (he : e ∈ table) : table.lookup e.1 = some e.2 := by
  induction table with
  | nil => cases he
  | cons a table ih =>
    obtain ⟨k, v⟩ := a
    obtain ⟨hnot, htail⟩ := List.nodup_cons.mp h
    rcases List.mem_cons.mp he with rfl | he
    · simp
    · have hne : (e.1 == k) = false :=
        beq_eq_false_iff_ne.mpr fun heq => hnot (List.mem_map.mpr ⟨e, he, heq⟩)
      rw [List.lookup_cons, hne]
      exact ih htail he

end Stroem.Foundation
