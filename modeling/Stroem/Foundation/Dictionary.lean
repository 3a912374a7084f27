import Mathlib.Data.List.AList
import Mathlib.Tactic.Common

/-!
# Dictionaries

A hash map is a list of entries with distinct keys; the order of the entries is the one in which
it happens to be iterated.  Inserting a list of entries keeps the last one of every key, so the
order matters for a key only where two entries disagree on it.
-/

namespace Stroem.Foundation

abbrev Dict (κ α : Type*) := AList fun _ : κ => α

variable {κ α β : Type*} [DecidableEq κ]

def pairs (dict : Dict κ α) : List (κ × α) :=
  dict.entries.map fun entry => (entry.1, entry.2)

def insertPairs (dict : Dict κ α) : List (κ × α) → Dict κ α
  | [] => dict
  | (key, value) :: entries => insertPairs (dict.insert key value) entries

def extend (dict other : Dict κ α) : Dict κ α :=
  insertPairs dict (pairs other)

def mapValues (f : κ → α → β) (dict : Dict κ α) : Dict κ β where
  entries := dict.entries.map fun entry => ⟨entry.1, f entry.1 entry.2⟩
  nodupKeys := by
    have h := dict.nodupKeys
    unfold List.NodupKeys List.keys at h ⊢
    rwa [List.map_map]

def mapKeys {κ' : Type*} [DecidableEq κ'] (g : κ → κ') (dict : Dict κ α) : Dict κ' α :=
  insertPairs ∅ ((pairs dict).map fun entry => (g entry.1, entry.2))

def extendAll (dict : Dict κ α) : List (Dict κ α) → Dict κ α
  | [] => dict
  | other :: others => extendAll (extend dict other) others

theorem mem_pairs {dict : Dict κ α} {key : κ} {value : α} :
    (key, value) ∈ pairs dict ↔ dict.lookup key = some value := by
  rw [← Option.mem_def, AList.mem_lookup_iff, pairs, List.mem_map]
  constructor
  · rintro ⟨entry, hentry, heq⟩
    obtain ⟨rfl, rfl⟩ := Prod.mk.inj heq
    exact hentry
  · exact fun h => ⟨_, h, rfl⟩

theorem lookup_mapValues (f : κ → α → β) (dict : Dict κ α) (key : κ) :
    (mapValues f dict).lookup key = (dict.lookup key).map (f key) := by
  apply Option.ext
  intro value
  rw [Option.map_eq_some_iff, ← Option.mem_def, AList.mem_lookup_iff, mapValues, List.mem_map]
  constructor
  · rintro ⟨entry, hentry, heq⟩
    obtain ⟨rfl, hvalue⟩ := Sigma.mk.inj heq
    exact ⟨entry.2, AList.mem_lookup_iff.mpr hentry, eq_of_heq hvalue⟩
  · rintro ⟨old, hold, rfl⟩
    exact ⟨⟨key, old⟩, AList.mem_lookup_iff.mp hold, rfl⟩

omit [DecidableEq κ] in
theorem mapValues_mapValues {γ : Type*} (f : κ → β → γ) (g : κ → α → β) (dict : Dict κ α) :
    mapValues f (mapValues g dict) = mapValues (fun key value => f key (g key value)) dict :=
  AList.ext (List.map_map)

theorem mapValues_congr_iff {f g : κ → α → β} {dict : Dict κ α} :
    mapValues f dict = mapValues g dict ↔
      ∀ key value, dict.lookup key = some value → f key value = g key value := by
  constructor
  · intro h key value hlookup
    have heq := congrArg (fun d : Dict κ β => d.lookup key) h
    rw [lookup_mapValues, lookup_mapValues, hlookup] at heq
    exact Option.some.inj heq
  · intro h
    refine AList.ext (List.map_congr_left fun entry hentry => ?_)
    rw [h entry.1 entry.2 (AList.mem_lookup_iff.mpr hentry)]

/-! ## Inserting entries -/

theorem lookup_insertPairs_of_not_mem {key : κ} {entries : List (κ × α)} (dict : Dict κ α)
    (h : ∀ value, (key, value) ∉ entries) :
    (insertPairs dict entries).lookup key = dict.lookup key := by
  induction entries generalizing dict with
  | nil => rfl
  | cons entry entries ih =>
    have hne : key ≠ entry.1 := fun heq => h entry.2 (by rw [heq]; exact List.mem_cons_self)
    rw [insertPairs, ih _ fun value hvalue => h value (List.mem_cons_of_mem _ hvalue),
      AList.lookup_insert_ne hne]

theorem lookup_insertPairs_of_mem {key : κ} {value : α} {entries : List (κ × α)}
    (dict : Dict κ α) (h : (key, value) ∈ entries) :
    ∃ held, (insertPairs dict entries).lookup key = some held ∧ (key, held) ∈ entries := by
  induction entries generalizing dict value with
  | nil => cases h
  | cons entry entries ih =>
    by_cases hrest : ∃ later, (key, later) ∈ entries
    · obtain ⟨later, hlater⟩ := hrest
      obtain ⟨held, hheld, hmem⟩ := ih (dict.insert entry.1 entry.2) hlater
      exact ⟨held, hheld, List.mem_cons_of_mem _ hmem⟩
    · obtain rfl | hmem := List.mem_cons.mp h
      · refine ⟨value, ?_, List.mem_cons_self⟩
        rw [insertPairs, lookup_insertPairs_of_not_mem _ (not_exists.mp hrest),
          AList.lookup_insert]
      · exact absurd ⟨value, hmem⟩ hrest

theorem lookup_extend (dict other : Dict κ α) (key : κ) :
    (extend dict other).lookup key = (other.lookup key).or (dict.lookup key) := by
  cases hlookup : other.lookup key with
  | none =>
    rw [Option.none_or]
    refine lookup_insertPairs_of_not_mem dict fun value hvalue => ?_
    rw [mem_pairs, hlookup] at hvalue
    cases hvalue
  | some value =>
    obtain ⟨held, hheld, hmem⟩ := lookup_insertPairs_of_mem dict (mem_pairs.mpr hlookup)
    rw [Option.some_or, extend, hheld]
    exact (mem_pairs.mp hmem).symm.trans hlookup

section Keys

variable {κ' : Type*} [DecidableEq κ'] {g : κ → κ'}

omit [DecidableEq κ'] in
theorem mem_map_pairs {dict : Dict κ α} {key' : κ'} {value : α} :
    (key', value) ∈ (pairs dict).map (fun entry => (g entry.1, entry.2)) ↔
      ∃ key, g key = key' ∧ dict.lookup key = some value := by
  rw [List.mem_map]
  constructor
  · rintro ⟨⟨key, held⟩, hmem, heq⟩
    obtain ⟨rfl, rfl⟩ := Prod.mk.inj heq
    exact ⟨key, rfl, mem_pairs.mp hmem⟩
  · rintro ⟨key, rfl, hlookup⟩
    exact ⟨(key, value), mem_pairs.mpr hlookup, rfl⟩

theorem lookup_mapKeys (hg : Function.Injective g) (dict : Dict κ α) (key : κ) :
    (mapKeys g dict).lookup (g key) = dict.lookup key := by
  cases hlookup : dict.lookup key with
  | none =>
    refine (lookup_insertPairs_of_not_mem ∅ fun value hmem => ?_).trans (AList.lookup_empty _)
    obtain ⟨key', hkey, hheld⟩ := mem_map_pairs.mp hmem
    rw [hg hkey, hlookup] at hheld
    cases hheld
  | some value =>
    have hin : (g key, value) ∈ (pairs dict).map fun entry => (g entry.1, entry.2) :=
      mem_map_pairs.mpr ⟨key, rfl, hlookup⟩
    obtain ⟨held, hheld, hmem⟩ := lookup_insertPairs_of_mem (∅ : Dict κ' α) hin
    obtain ⟨key', hkey, hvalue⟩ := mem_map_pairs.mp hmem
    rw [hg hkey, hlookup] at hvalue
    exact hheld.trans hvalue.symm

theorem exists_of_lookup_mapKeys {dict : Dict κ α} {key' : κ'} {value : α}
    (h : (mapKeys g dict).lookup key' = some value) :
    ∃ key, g key = key' ∧ dict.lookup key = some value := by
  by_cases hmem : ∃ held, (key', held) ∈ (pairs dict).map (fun entry => (g entry.1, entry.2))
  · obtain ⟨held, hmem⟩ := hmem
    obtain ⟨value', hvalue', hin⟩ := lookup_insertPairs_of_mem (∅ : Dict κ' α) hmem
    obtain rfl := Option.some.inj (h.symm.trans hvalue')
    exact mem_map_pairs.mp hin
  · rw [mapKeys, lookup_insertPairs_of_not_mem ∅ (not_exists.mp hmem), AList.lookup_empty] at h
    cases h

end Keys

/-! ## Several dictionaries -/

theorem lookup_extendAll_of_none {others : List (Dict κ α)} {key : κ} (dict : Dict κ α)
    (h : ∀ other ∈ others, other.lookup key = none) :
    (extendAll dict others).lookup key = dict.lookup key := by
  induction others generalizing dict with
  | nil => rfl
  | cons other others ih =>
    rw [extendAll, ih _ fun d hd => h d (List.mem_cons_of_mem _ hd), lookup_extend,
      h other List.mem_cons_self, Option.none_or]

theorem lookup_extendAll_of_mem {others : List (Dict κ α)} {key : κ} {value : α}
    (dict : Dict κ α)
    (hagree : ∀ other ∈ others, ∀ held, other.lookup key = some held → held = value)
    {other : Dict κ α} (hmem : other ∈ others) (hlookup : other.lookup key = some value) :
    (extendAll dict others).lookup key = some value := by
  induction others generalizing dict other with
  | nil => cases hmem
  | cons head others ih =>
    have htail : ∀ other ∈ others, ∀ held, other.lookup key = some held → held = value :=
      fun d hd => hagree d (List.mem_cons_of_mem _ hd)
    by_cases hlater : ∃ later ∈ others, ∃ held, later.lookup key = some held
    · obtain ⟨later, hlater, held, hheld⟩ := hlater
      obtain rfl := htail later hlater held hheld
      exact ih _ htail hlater hheld
    · have hnone : ∀ later ∈ others, later.lookup key = none := fun later hin =>
        Option.eq_none_iff_forall_ne_some.mpr fun held hheld => hlater ⟨later, hin, held, hheld⟩
      obtain rfl | hmem := List.mem_cons.mp hmem
      · rw [extendAll, lookup_extendAll_of_none _ hnone, lookup_extend, hlookup,
          Option.some_or]
      · rw [hnone other hmem] at hlookup
        cases hlookup

theorem lookup_extendAll_perm {others others' : List (Dict κ α)} {key : κ} (dict : Dict κ α)
    (hperm : others.Perm others')
    (hagree : ∀ other ∈ others, ∀ other' ∈ others, ∀ held held', other.lookup key = some held →
      other'.lookup key = some held' → held = held') :
    (extendAll dict others).lookup key = (extendAll dict others').lookup key := by
  by_cases hheld : ∃ other ∈ others, ∃ value, other.lookup key = some value
  · obtain ⟨other, hmem, value, hlookup⟩ := hheld
    have hsame : ∀ d ∈ others, ∀ held, d.lookup key = some held → held = value :=
      fun d hd held hheld => hagree d hd other hmem held value hheld hlookup
    rw [lookup_extendAll_of_mem dict hsame hmem hlookup,
      lookup_extendAll_of_mem dict (fun d hd => hsame d (hperm.mem_iff.mpr hd))
        (hperm.mem_iff.mp hmem) hlookup]
  · have hnone : ∀ other ∈ others, other.lookup key = none := fun other hin =>
      Option.eq_none_iff_forall_ne_some.mpr fun value hvalue => hheld ⟨other, hin, value, hvalue⟩
    rw [lookup_extendAll_of_none dict hnone,
      lookup_extendAll_of_none dict fun other hin => hnone other (hperm.mem_iff.mpr hin)]

end Stroem.Foundation
