import Stroem.Foundation.Table

/-!
# Slots

A list of slots, each of which may claim a key.  A key that is claimed once stays so when a slot
lets go of its key, takes over the one it had, or takes one that is free.
-/

namespace Stroem.Foundation

variable {σ κ : Type*}

def ClaimedOnce (claim : σ → Option κ) (slots : List σ) : Prop :=
  ∀ (i j : Nat) (a b : σ) (key : κ), slots[i]? = some a → slots[j]? = some b → claim a = some key →
    claim b = some key → i = j

namespace ClaimedOnce

variable {claim : σ → Option κ} {slots : List σ}

theorem nil : ClaimedOnce claim [] :=
  fun _ _ _ _ _ h => (by cases h)

theorem append (h : ClaimedOnce claim slots) {b : σ} (hb : claim b = none) :
    ClaimedOnce claim (slots ++ [b]) := by
  have hold : ∀ (i : Nat) (a : σ) (key : κ), (slots ++ [b])[i]? = some a → claim a = some key →
      slots[i]? = some a := by
    intro i a key hi hkey
    rw [List.getElem?_append] at hi
    split at hi
    · exact hi
    · have ha : a = b := List.mem_singleton.mp (List.mem_of_getElem? hi)
      rw [ha, hb] at hkey
      cases hkey
  intro i j a a' key hi hj hkey hkey'
  exact h i j a a' key (hold i a key hi hkey) (hold j a' key hj hkey') hkey hkey'

theorem set_of_imp (h : ClaimedOnce claim slots) {i : Nat} {old new : σ}
    (hi : slots[i]? = some old) (himp : ∀ key, claim new = some key → claim old = some key) :
    ClaimedOnce claim (slots.set i new) := by
  have hold : ∀ (j : Nat) (a : σ) (key : κ), (slots.set i new)[j]? = some a → claim a = some key →
      ∃ a', slots[j]? = some a' ∧ claim a' = some key := by
    intro j a key hj hkey
    obtain ⟨rfl, rfl⟩ | ⟨-, hj⟩ := getElem?_set_cases hj
    · exact ⟨old, hi, himp key hkey⟩
    · exact ⟨a, hj, hkey⟩
  intro j j' a a' key hj hj' hkey hkey'
  obtain ⟨b, hb, hclaim⟩ := hold j a key hj hkey
  obtain ⟨b', hb', hclaim'⟩ := hold j' a' key hj' hkey'
  exact h j j' b b' key hb hb' hclaim hclaim'

theorem set_of_free (h : ClaimedOnce claim slots) {i : Nat} {new : σ}
    (hfree : ∀ key, claim new = some key → ∀ a ∈ slots, claim a ≠ some key) :
    ClaimedOnce claim (slots.set i new) := by
  intro j j' a a' key hj hj' hkey hkey'
  obtain ⟨hij, ha⟩ | ⟨-, hj⟩ := getElem?_set_cases hj
  · obtain ⟨hij', -⟩ | ⟨-, hj'⟩ := getElem?_set_cases hj'
    · rw [hij, hij']
    · rw [ha] at hkey
      exact absurd hkey' (hfree key hkey a' (List.mem_of_getElem? hj'))
  · obtain ⟨-, ha'⟩ | ⟨-, hj'⟩ := getElem?_set_cases hj'
    · rw [ha'] at hkey'
      exact absurd hkey (hfree key hkey' a (List.mem_of_getElem? hj))
    · exact h j j' a a' key hj hj' hkey hkey'

theorem ne_of_mem_set (h : ClaimedOnce claim slots) {i : Nat} {old new a : σ} {key key' : κ}
    (hi : slots[i]? = some old) (hkey : claim old = some key) (hnew : claim new = none)
    (ha : a ∈ slots.set i new) (hkey' : claim a = some key') : key' ≠ key ∧ a ∈ slots := by
  obtain ⟨j, hj⟩ := List.mem_iff_getElem?.mp ha
  obtain ⟨rfl, rfl⟩ | ⟨hne, hj⟩ := getElem?_set_cases hj
  · rw [hnew] at hkey'
    cases hkey'
  · refine ⟨?_, List.mem_of_getElem? hj⟩
    rintro rfl
    exact hne (h j i a old key' hj hi hkey' hkey)

end ClaimedOnce

end Stroem.Foundation
