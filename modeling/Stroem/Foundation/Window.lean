import Mathlib.Algebra.GroupWithZero.Nat
import Mathlib.Algebra.Group.Int.Defs
import Mathlib.Algebra.BigOperators.Group.List.Basic
import Mathlib.Data.List.Infix
import Mathlib.Tactic.Common

/-!
# The newest items within a budget

`newestWithin weight cap items` is the longest suffix of `items` whose total weight is at most
`cap`.  Two greedy procedures compute it: one walks the items from the newest and stops at the
first that does not fit, the other takes the items as they come and drops the oldest whenever the
budget is exceeded.
-/

namespace Stroem.Foundation

variable {α : Type*} (weight : α → Nat)

def totalWeight (items : List α) : Nat :=
  (items.map weight).sum

def newestWithin (cap : Nat) : List α → List α
  | [] => []
  | item :: items =>
    if totalWeight weight (item :: items) ≤ cap then item :: items else newestWithin cap items

@[simp] theorem totalWeight_nil : totalWeight weight [] = 0 := rfl

@[simp] theorem totalWeight_cons (item : α) (items : List α) :
    totalWeight weight (item :: items) = weight item + totalWeight weight items := by
  simp [totalWeight]

@[simp] theorem totalWeight_append (xs ys : List α) :
    totalWeight weight (xs ++ ys) = totalWeight weight xs + totalWeight weight ys := by
  simp [totalWeight]

variable {weight}

theorem totalWeight_le_of_sublist {xs ys : List α} (h : xs.Sublist ys) :
    totalWeight weight xs ≤ totalWeight weight ys := by
  induction h with
  | slnil => exact le_rfl
  | cons y _ ih =>
    rw [totalWeight_cons]
    omega
  | cons_cons x _ ih =>
    rw [totalWeight_cons, totalWeight_cons]
    omega

variable (weight) in
theorem newestWithin_suffix (cap : Nat) (items : List α) :
    newestWithin weight cap items <:+ items := by
  induction items with
  | nil => exact List.suffix_rfl
  | cons item items ih =>
    unfold newestWithin
    split
    · exact List.suffix_rfl
    · exact ih.trans (List.suffix_cons item items)

variable (weight) in
theorem totalWeight_newestWithin_le (cap : Nat) (items : List α) :
    totalWeight weight (newestWithin weight cap items) ≤ cap := by
  induction items with
  | nil => exact Nat.zero_le cap
  | cons item items ih =>
    unfold newestWithin
    split
    · assumption
    · exact ih

theorem newestWithin_of_le {cap : Nat} {items : List α} (h : totalWeight weight items ≤ cap) :
    newestWithin weight cap items = items := by
  cases items with
  | nil => rfl
  | cons item items => exact if_pos h

theorem suffix_newestWithin {cap : Nat} {suffix items : List α} (hsuffix : suffix <:+ items)
    (hle : totalWeight weight suffix ≤ cap) : suffix <:+ newestWithin weight cap items := by
  induction items with
  | nil => exact hsuffix
  | cons item items ih =>
    unfold newestWithin
    split
    · exact hsuffix
    · next hover =>
        obtain rfl | hrest := List.suffix_cons_iff.mp hsuffix
        · exact absurd hle hover
        · exact ih hrest

theorem newestWithin_append_singleton (cap : Nat) (items : List α) (newest : α) :
    newestWithin weight cap (items ++ [newest]) =
      if weight newest ≤ cap then newestWithin weight (cap - weight newest) items ++ [newest]
      else [] := by
  induction items with
  | nil => simp [newestWithin]
  | cons item items ih =>
    rw [List.cons_append]
    unfold newestWithin
    rw [ih]
    simp only [totalWeight_cons, totalWeight_append, totalWeight_nil]
    by_cases hfit : weight newest ≤ cap
    · by_cases hall : weight item + totalWeight weight items ≤ cap - weight newest
      · rw [if_pos (by omega), if_pos hfit, if_pos hall, List.cons_append]
      · rw [if_neg (by omega), if_pos hfit, if_pos hfit, if_neg hall]
    · rw [if_neg (by omega), if_neg hfit, if_neg hfit]

theorem newestWithin_newestWithin {small cap : Nat} (h : small ≤ cap) (items : List α) :
    newestWithin weight small (newestWithin weight cap items) =
      newestWithin weight small items := by
  induction items with
  | nil => rfl
  | cons item items ih =>
    by_cases hcap : totalWeight weight (item :: items) ≤ cap
    · rw [newestWithin_of_le hcap]
    · have hsmall : ¬ totalWeight weight (item :: items) ≤ small := by omega
      have hdrop : ∀ n, ¬ totalWeight weight (item :: items) ≤ n →
          newestWithin weight n (item :: items) = newestWithin weight n items := fun n hn =>
        if_neg hn
      rw [hdrop cap hcap, hdrop small hsmall, ih]

variable (weight) in
theorem newestWithin_push (cap : Nat) (items : List α) (newest : α) :
    newestWithin weight cap (items ++ [newest]) =
      if weight newest ≤ cap then
        newestWithin weight (cap - weight newest) (newestWithin weight cap items) ++ [newest]
      else [] := by
  rw [newestWithin_append_singleton, newestWithin_newestWithin (Nat.sub_le cap _)]

end Stroem.Foundation
