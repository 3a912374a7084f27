import Mathlib.Tactic.Common

/-!
# Triples of computations that can fail

A computation on a state returns a value or fails, and leaves a state either way.  `Triple` gives it
a precondition, a postcondition for the values and one for the failures; the rules follow the ways
in which computations are put together.
-/

namespace Stroem.Foundation

variable {ε σ α β : Type}

def Triple (pre : σ → Prop) (x : EStateM ε σ α) (post : α → σ → Prop) (fail : ε → σ → Prop) :
    Prop :=
  ∀ s, pre s → match x s with
    | .ok a s' => post a s'
    | .error e s' => fail e s'

theorem bind_eq_ok {x : EStateM ε σ α} {f : α → EStateM ε σ β} {s s' : σ} {b : β} :
    (x >>= f) s = .ok b s' ↔ ∃ a s₁, x s = .ok a s₁ ∧ f a s₁ = .ok b s' := by
  change EStateM.bind x f s = .ok b s' ↔ _
  unfold EStateM.bind
  split
  · next a s₁ hx => simp [hx]
  · next e s₁ hx => simp [hx]

theorem tryCatch_eq_ok {x : EStateM ε σ α} {handle : ε → EStateM ε σ α} {s s' : σ} {a : α}
    (hhandle : ∀ e s₁ a s₂, handle e s₁ ≠ .ok a s₂)
    (h : MonadExcept.tryCatch x handle s = .ok a s') : x s = .ok a s' := by
  change EStateM.tryCatch x handle s = .ok a s' at h
  cases hx : x s with
  | ok a s₁ =>
    simp only [EStateM.tryCatch, hx] at h
    exact h
  | error e s₁ =>
    simp only [EStateM.tryCatch, hx] at h
    exact absurd h (hhandle _ _ _ _)

namespace Triple

variable {pre pre' : σ → Prop} {x : EStateM ε σ α} {post post' : α → σ → Prop}
  {fail fail' : ε → σ → Prop}

/-! ## Reading a triple -/

theorem ok (h : Triple pre x post fail) {s s' : σ} {a : α} (hs : pre s) (hx : x s = .ok a s') :
    post a s' := by
  have hpost := h s hs
  rwa [hx] at hpost

theorem error (h : Triple pre x post fail) {s s' : σ} {e : ε} (hs : pre s)
    (hx : x s = .error e s') : fail e s' := by
  have hfail := h s hs
  rwa [hx] at hfail

/-! ## The rules -/

theorem weaken (h : Triple pre x post fail) (hpre : ∀ s, pre' s → pre s)
    (hpost : ∀ a s, post a s → post' a s) (hfail : ∀ e s, fail e s → fail' e s) :
    Triple pre' x post' fail' := by
  intro s hs
  cases hx : x s with
  | ok a s' => exact hpost a s' (h.ok (hpre s hs) hx)
  | error e s' => exact hfail e s' (h.error (hpre s hs) hx)

theorem pure {a : α} (h : ∀ s, pre s → post a s) :
    Triple pre (Pure.pure a : EStateM ε σ α) post fail := h

theorem throw {e : ε} (h : ∀ s, pre s → fail e s) :
    Triple pre (MonadExcept.throw e : EStateM ε σ α) post fail := h

theorem of_imp {p : Prop} (h : p → Triple pre x post fail) :
    Triple (fun s => p ∧ pre s) x post fail := fun s hs => h hs.1 s hs.2

theorem or (h : Triple pre x post fail) (h' : Triple pre' x post' fail') :
    Triple (fun s => pre s ∨ pre' s) x (fun a s => post a s ∨ post' a s)
      (fun e s => fail e s ∨ fail' e s) := by
  rintro s (hs | hs)
  · exact (h.weaken (fun _ h => h) (fun _ _ => .inl) fun _ _ => .inl) s hs
  · exact (h'.weaken (fun _ h => h) (fun _ _ => .inr) fun _ _ => .inr) s hs

theorem bind {f : α → EStateM ε σ β} {middle : α → σ → Prop} {last : β → σ → Prop}
    (hx : Triple pre x middle fail) (hf : ∀ a, Triple (middle a) (f a) last fail) :
    Triple pre (x >>= f) last fail := by
  intro s hs
  change match EStateM.bind x f s with
    | .ok b s' => last b s'
    | .error e s' => fail e s'
  unfold EStateM.bind
  cases hrun : x s with
  | ok a s' => exact hf a s' (hx.ok hs hrun)
  | error e s' => exact hx.error hs hrun

theorem tryCatch {handle : ε → EStateM ε σ α} {caught : ε → σ → Prop}
    (hx : Triple pre x post caught) (hhandle : ∀ e, Triple (caught e) (handle e) post fail) :
    Triple pre (MonadExcept.tryCatch x handle) post fail := by
  intro s hs
  change match EStateM.tryCatch x handle s with
    | .ok b s' => post b s'
    | .error e s' => fail e s'
  unfold EStateM.tryCatch
  cases hrun : x s with
  | ok a s' => exact hx.ok hs hrun
  | error e s' => exact hhandle e s' (hx.error hs hrun)

end Triple

end Stroem.Foundation
