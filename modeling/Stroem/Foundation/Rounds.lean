import Mathlib.Logic.Function.Iterate
import Mathlib.Tactic.Common

/-!
# Loops with a bound on their rounds

A loop that repeats a round while the round reports that there may be more to do, and gives up
after a number of rounds.  `Done` are the states with nothing left to do: a round that reports
nothing ends in one, and a round that starts in one does nothing.
-/

namespace Stroem.Foundation

variable {σ : Type*} (round : σ → Bool × σ)

def repeatWhile : Nat → σ → σ
  | 0, s => s
  | n + 1, s =>
    match round s with
    | (true, t) => repeatWhile n t
    | (false, t) => t

def afterRounds (n : Nat) (s : σ) : σ :=
  (fun t => (round t).2)^[n] s

variable {round}

theorem afterRounds_succ (n : Nat) (s : σ) :
    afterRounds round (n + 1) s = afterRounds round n (round s).2 :=
  rfl

theorem afterRounds_succ_right (n : Nat) (s : σ) :
    afterRounds round (n + 1) s = (round (afterRounds round n s)).2 := by
  unfold afterRounds
  rw [Function.iterate_succ_apply']

theorem repeatWhile_invariant (Inv : σ → Prop) (hInv : ∀ s, Inv s → Inv (round s).2) (n : Nat)
    {s : σ} (hs : Inv s) : Inv (repeatWhile round n s) := by
  induction n generalizing s with
  | zero => exact hs
  | succ n ih =>
    have hround := hInv s hs
    unfold repeatWhile
    split
    case h_1 t heq =>
      rw [heq] at hround
      exact ih hround
    case h_2 t heq =>
      rw [heq] at hround
      exact hround

section Done

variable {Done : σ → Prop}

theorem afterRounds_of_done (hidle : ∀ s, Done s → round s = (false, s)) {s : σ} (h : Done s)
    (n : Nat) : afterRounds round n s = s := by
  induction n with
  | zero => rfl
  | succ n ih =>
    rw [afterRounds_succ, hidle s h]
    exact ih

theorem repeatWhile_eq_afterRounds (Inv : σ → Prop) (hInv : ∀ s, Inv s → Inv (round s).2)
    (hlast : ∀ s, Inv s → (round s).1 = false → Done (round s).2)
    (hidle : ∀ s, Done s → round s = (false, s)) (n : Nat) {s : σ} (hs : Inv s) :
    repeatWhile round n s = afterRounds round n s := by
  induction n generalizing s with
  | zero => rfl
  | succ n ih =>
    rw [afterRounds_succ]
    unfold repeatWhile
    split
    case h_1 t heq =>
      have ht : (round s).2 = t := by rw [heq]
      rw [← ht]
      exact ih (hInv s hs)
    case h_2 t heq =>
      have hdone := hlast s hs (by rw [heq])
      rw [afterRounds_of_done hidle hdone, heq]

theorem repeatWhile_done_iff (Inv : σ → Prop) (hInv : ∀ s, Inv s → Inv (round s).2)
    (hlast : ∀ s, Inv s → (round s).1 = false → Done (round s).2)
    (hidle : ∀ s, Done s → round s = (false, s)) (n : Nat) {s : σ} (hs : Inv s) :
    Done (repeatWhile round n s) ↔ ∃ k ≤ n, Done (afterRounds round k s) := by
  rw [repeatWhile_eq_afterRounds Inv hInv hlast hidle n hs]
  refine ⟨fun h => ⟨n, Nat.le_refl n, h⟩, ?_⟩
  rintro ⟨k, hk, hdone⟩
  obtain ⟨m, rfl⟩ := Nat.exists_eq_add_of_le hk
  have hsplit : afterRounds round (k + m) s = afterRounds round m (afterRounds round k s) := by
    unfold afterRounds
    rw [Nat.add_comm, Function.iterate_add_apply]
  rw [hsplit, afterRounds_of_done hidle hdone]
  exact hdone

theorem repeatWhile_done_of_rank (Inv : σ → Prop) (hInv : ∀ s, Inv s → Inv (round s).2)
    (hlast : ∀ s, Inv s → (round s).1 = false → Done (round s).2) (rank : σ → Nat)
    (hrank : ∀ s, Inv s → (round s).1 = true → rank (round s).2 < rank s) {n : Nat} {s : σ}
    (hs : Inv s) (hn : rank s < n) : Done (repeatWhile round n s) := by
  induction n generalizing s with
  | zero => exact absurd hn (Nat.not_lt_zero _)
  | succ n ih =>
    unfold repeatWhile
    split
    case h_1 t heq =>
      have ht : (round s).2 = t := by rw [heq]
      have hlt := hrank s hs (by rw [heq])
      rw [← ht]
      exact ih (hInv s hs) (by omega)
    case h_2 t heq =>
      have hdone := hlast s hs (by rw [heq])
      rwa [heq] at hdone

end Done

end Stroem.Foundation
