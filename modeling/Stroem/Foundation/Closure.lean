import Mathlib.Data.List.Nodup
import Mathlib.Data.List.Perm.Subperm
import Mathlib.Order.Bounds.Basic
import Mathlib.Tactic.Common

/-!
# Closing a set under its dependents

Every node lists the nodes it depends on, and a set is closed when it contains every node with
a dependency in it.  The loop goes over the nodes again and again and adds what is missing; a
node added in a pass counts for the nodes after it.  It ends when a pass adds nothing, on any
graph, in the least closed set around what it started from.
-/

namespace Stroem.Foundation

/-! ## Closed sets -/

section Closed

variable {α : Type*} (deps : α → List α)

def closedAround (nodes start : List α) : Set (Set α) :=
  {S | (∀ a ∈ start, a ∈ S) ∧ ∀ n ∈ nodes, (∃ d ∈ deps n, d ∈ S) → n ∈ S}

structure Grows (nodes members next : List α) : Prop where
  added : ∃ new, next = members ++ new ∧ ∀ n ∈ new, n ∈ nodes
  nodup : members.Nodup → next.Nodup
  least : ∀ S ∈ closedAround deps nodes members, ∀ n ∈ next, n ∈ S

variable {deps} {nodes : List α}

theorem Grows.refl (members : List α) : Grows deps nodes members members :=
  ⟨⟨[], by simp, by simp⟩, id, fun _ hS => hS.1⟩

theorem Grows.subset {members next : List α} (h : Grows deps nodes members next) :
    ∀ n ∈ members, n ∈ next := by
  obtain ⟨new, rfl, -⟩ := h.added
  exact fun n hn => List.mem_append_left _ hn

theorem Grows.trans {members mid next : List α} (h : Grows deps nodes members mid)
    (h' : Grows deps nodes mid next) : Grows deps nodes members next := by
  refine ⟨?_, fun hnodup => h'.nodup (h.nodup hnodup), fun S hS => ?_⟩
  · obtain ⟨new, rfl, hnew⟩ := h.added
    obtain ⟨new', rfl, hnew'⟩ := h'.added
    refine ⟨new ++ new', List.append_assoc _ _ _, fun n hn => ?_⟩
    exact (List.mem_append.mp hn).elim (hnew n) (hnew' n)
  · exact h'.least S ⟨h.least S hS, hS.2⟩

end Closed

/-! ## The loop -/

section Loop

variable {α : Type*} [DecidableEq α] (deps : α → List α)

def touches (members : List α) (n : α) : Bool :=
  (deps n).any fun d => decide (d ∈ members)

def closureStep (members : List α) (n : α) : List α :=
  if n ∈ members then members
  else if touches deps members n then members ++ [n]
  else members

def closurePass (nodes members : List α) : List α :=
  nodes.foldl (closureStep deps) members

def closureLoop (nodes : List α) : Nat → List α → Option (List α)
  | 0, _ => none
  | fuel + 1, members =>
    let next := closurePass deps nodes members
    if next.length = members.length then some next else closureLoop nodes fuel next

variable {deps} {nodes : List α}

theorem closureStep_grows {members : List α} {n : α} (hn : n ∈ nodes) :
    Grows deps nodes members (closureStep deps members n) := by
  unfold closureStep
  split
  · exact .refl members
  case isFalse hnew =>
    split
    case isTrue htouch =>
      refine ⟨⟨[n], rfl, by simpa using hn⟩, fun hnodup => ?_, fun S hS a ha => ?_⟩
      · refine List.nodup_append.mpr ⟨hnodup, List.nodup_singleton n, fun a ha b hb heq => ?_⟩
        obtain rfl := List.mem_singleton.mp hb
        exact hnew (heq ▸ ha)
      · rcases List.mem_append.mp ha with ha | ha
        · exact hS.1 a ha
        · obtain rfl := List.mem_singleton.mp ha
          obtain ⟨d, hd, hmem⟩ := List.any_eq_true.mp htouch
          exact hS.2 a hn ⟨d, hd, hS.1 d (of_decide_eq_true hmem)⟩
    case isFalse => exact .refl members

theorem closurePass_grows {passed members : List α} (h : ∀ n ∈ passed, n ∈ nodes) :
    Grows deps nodes members (passed.foldl (closureStep deps) members) := by
  induction passed generalizing members with
  | nil => exact .refl members
  | cons n passed ih =>
    exact (closureStep_grows (h n List.mem_cons_self)).trans
      (ih fun m hm => h m (List.mem_cons_of_mem n hm))

theorem closureStep_complete {members : List α} {n : α} (h : ∃ d ∈ deps n, d ∈ members) :
    n ∈ closureStep deps members n := by
  obtain ⟨d, hd, hmem⟩ := h
  have htouch : touches deps members n = true :=
    List.any_eq_true.mpr ⟨d, hd, decide_eq_true hmem⟩
  unfold closureStep
  rw [if_pos htouch]
  split
  · assumption
  · exact List.mem_append_right _ (List.mem_singleton_self n)

theorem closurePass_complete {members : List α} {n : α} (hn : n ∈ nodes)
    (h : ∃ d ∈ deps n, d ∈ members) : n ∈ closurePass deps nodes members := by
  obtain ⟨before, after, rfl⟩ := List.append_of_mem hn
  rw [closurePass, List.foldl_append, List.foldl_cons]
  have hbefore : Grows deps before members (before.foldl (closureStep deps) members) :=
    closurePass_grows fun _ hm => hm
  have hafter : Grows deps after _ (after.foldl (closureStep deps)
      (closureStep deps (before.foldl (closureStep deps) members) n)) :=
    closurePass_grows fun _ hm => hm
  obtain ⟨d, hd, hmem⟩ := h
  exact hafter.subset n (closureStep_complete ⟨d, hd, hbefore.subset d hmem⟩)

theorem closureLoop_grows {fuel : Nat} {members last : List α}
    (h : closureLoop deps nodes fuel members = some last) :
    Grows deps nodes members last ∧ ∀ n ∈ nodes, (∃ d ∈ deps n, d ∈ last) → n ∈ last := by
  induction fuel generalizing members with
  | zero => cases h
  | succ fuel ih =>
    have hpass : Grows deps nodes members (closurePass deps nodes members) :=
      closurePass_grows fun _ hm => hm
    simp only [closureLoop] at h
    split at h
    case isTrue hlen =>
      cases h
      obtain ⟨new, hnew, -⟩ := hpass.added
      obtain rfl : new = [] := by
        rw [hnew, List.length_append] at hlen
        exact List.length_eq_zero_iff.mp (by omega)
      rw [List.append_nil] at hnew
      refine ⟨hpass, fun n hn htouch => ?_⟩
      rw [hnew] at htouch
      exact closurePass_complete hn htouch
    case isFalse =>
      obtain ⟨hrest, hclosed⟩ := ih h
      exact ⟨hpass.trans hrest, hclosed⟩

theorem closureLoop_isLeast {fuel : Nat} {start last : List α}
    (h : closureLoop deps nodes fuel start = some last) :
    IsLeast (closedAround deps nodes start) {n | n ∈ last} := by
  obtain ⟨hgrows, hclosed⟩ := closureLoop_grows h
  exact ⟨⟨hgrows.subset, hclosed⟩, fun S hS n hn => hgrows.least S hS n hn⟩

theorem closureLoop_ends {fuel : Nat} {start : List α} (hstart : start.Nodup)
    (hsub : ∀ a ∈ start, a ∈ nodes) (hfuel : nodes.length < fuel + start.length) :
    ∃ last, closureLoop deps nodes fuel start = some last := by
  induction fuel generalizing start with
  | zero =>
    have := (List.subperm_of_subset hstart hsub).length_le
    omega
  | succ fuel ih =>
    have hpass : Grows deps nodes start (closurePass deps nodes start) :=
      closurePass_grows fun _ hm => hm
    simp only [closureLoop]
    split
    · exact ⟨_, rfl⟩
    case isFalse hlen =>
      obtain ⟨new, hnew, hmem⟩ := hpass.added
      refine ih (hpass.nodup hstart) (fun a ha => ?_) ?_
      · rw [hnew] at ha
        exact (List.mem_append.mp ha).elim (hsub a) (hmem a)
      · rw [hnew, List.length_append] at hlen ⊢
        omega

theorem closureLoop_mono {fuel fuel' : Nat} {start last : List α} (hle : fuel ≤ fuel')
    (h : closureLoop deps nodes fuel start = some last) :
    closureLoop deps nodes fuel' start = some last := by
  induction fuel generalizing fuel' start with
  | zero => cases h
  | succ fuel ih =>
    obtain ⟨k, rfl⟩ : ∃ k, fuel' = k + 1 := ⟨fuel' - 1, by omega⟩
    simp only [closureLoop] at h ⊢
    split
    case isTrue hlen => rwa [if_pos hlen] at h
    case isFalse hlen =>
      rw [if_neg hlen] at h
      exact ih (by omega) h

end Loop

end Stroem.Foundation
