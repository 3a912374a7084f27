import Mathlib.Data.List.Basic
import Mathlib.Tactic.Common

/-!
# Runs of labelled transition systems

A system is a partial step function on states, labelled by the action taken: the label carries
every choice the environment makes, so a run is the list of its labels.  The invariant rule below
turns a fact about one step into a fact about every run.  It is relative to a side condition
(`Meets`).
-/

namespace Stroem.Foundation

section Runs

variable {σ α : Type*} {step : σ → α → Option σ}

/-- Execute the labels in order; `none` when one of them is not enabled. -/
def exec (step : σ → α → Option σ) : σ → List α → Option σ
  | s, [] => some s
  | s, a :: as => (step s a).bind fun t => exec step t as

/-- Every step of the run meets `ok` in the state it is taken from. -/
def Meets (step : σ → α → Option σ) (ok : σ → α → Prop) : σ → List α → Prop
  | _, [] => True
  | s, a :: as => ok s a ∧ ∀ t, step s a = some t → Meets step ok t as

@[simp] theorem exec_nil (s : σ) : exec step s [] = some s := rfl

variable {s : σ} {as : List α}

theorem exec_cons_eq_some {u : σ} {a : α} :
    exec step s (a :: as) = some u ↔ ∃ t, step s a = some t ∧ exec step t as = some u := by
  simp [exec, Option.bind_eq_some_iff]

theorem exec_append_eq_some {u : σ} {bs : List α} :
    exec step s (as ++ bs) = some u ↔
      ∃ t, exec step s as = some t ∧ exec step t bs = some u := by
  induction as generalizing s with
  | nil => simp
  | cons a as ih =>
    simp only [List.cons_append, exec_cons_eq_some, ih]
    constructor
    · rintro ⟨t, ht, v, hv, hu⟩
      exact ⟨v, ⟨t, ht, hv⟩, hu⟩
    · rintro ⟨v, ⟨t, ht, hv⟩, hu⟩
      exact ⟨t, ht, v, hv, hu⟩

theorem Meets.cons {ok : σ → α → Prop} {s t : σ} {a : α} {as : List α} (hok : ok s a)
    (ht : step s a = some t) (h : Meets step ok t as) : Meets step ok s (a :: as) := by
  refine ⟨hok, fun u hu => ?_⟩
  obtain rfl : t = u := Option.some.inj (ht.symm.trans hu)
  exact h

variable {ok : σ → α → Prop}

theorem Meets.of_forall (h : ∀ s a, ok s a) (s : σ) (as : List α) : Meets step ok s as := by
  induction as generalizing s with
  | nil => trivial
  | cons a as ih => exact ⟨h s a, fun t _ => ih t⟩

theorem Meets.of_forall_mem {ok : α → Prop} (h : ∀ a ∈ as, ok a) (s : σ) :
    Meets step (fun _ a => ok a) s as := by
  induction as generalizing s with
  | nil => trivial
  | cons a as ih =>
    exact ⟨h a List.mem_cons_self, fun t _ => ih (fun b hb => h b (List.mem_cons_of_mem a hb)) t⟩

instance Meets.decidable {ok : σ → α → Prop} [∀ s a, Decidable (ok s a)] (s : σ) (as : List α) :
    Decidable (Meets step ok s as) :=
  match as with
  | [] => .isTrue trivial
  | a :: as =>
    match h : step s a with
    | none => decidable_of_iff (ok s a) (by simp [Meets, h])
    | some t =>
      have : Decidable (Meets step ok t as) := Meets.decidable t as
      decidable_of_iff (ok s a ∧ Meets step ok t as) (by simp [Meets, h])

theorem Meets.append {t : σ} {bs : List α} (h : Meets step ok s (as ++ bs))
    (hrun : exec step s as = some t) : Meets step ok s as ∧ Meets step ok t bs := by
  induction as generalizing s with
  | nil =>
    obtain rfl : s = t := by simpa using hrun
    exact ⟨trivial, h⟩
  | cons a as ih =>
    obtain ⟨u, hu, hrun⟩ := exec_cons_eq_some.mp hrun
    obtain ⟨hok, hrest⟩ := h
    have hparts := ih (hrest u hu) hrun
    refine ⟨⟨hok, fun v hv => ?_⟩, hparts.2⟩
    obtain rfl : u = v := Option.some.inj (hu.symm.trans hv)
    exact hparts.1

theorem Meets.of_append {t : σ} {bs : List α} (hrun : exec step s as = some t)
    (has : Meets step ok s as) (hbs : Meets step ok t bs) : Meets step ok s (as ++ bs) := by
  induction as generalizing s with
  | nil =>
    obtain rfl : s = t := by simpa using hrun
    exact hbs
  | cons a as ih =>
    obtain ⟨u, hu, hrun⟩ := exec_cons_eq_some.mp hrun
    exact .cons has.1 hu (ih hrun (has.2 u hu))

theorem Meets.and_iff {ok' : σ → α → Prop} :
    Meets step (fun s a => ok s a ∧ ok' s a) s as ↔
      Meets step ok s as ∧ Meets step ok' s as := by
  induction as generalizing s with
  | nil => simp [Meets]
  | cons a as ih =>
    simp only [Meets, ih]
    constructor
    · rintro ⟨⟨hok, hok'⟩, hrest⟩
      exact ⟨⟨hok, fun t ht => (hrest t ht).1⟩, hok', fun t ht => (hrest t ht).2⟩
    · rintro ⟨⟨hok, hrest⟩, hok', hrest'⟩
      exact ⟨⟨hok, hok'⟩, fun t ht => ⟨hrest t ht, hrest' t ht⟩⟩

theorem Meets.mono {ok' : σ → α → Prop} (h : ∀ s a, ok s a → ok' s a) (hok : Meets step ok s as) :
    Meets step ok' s as := by
  induction as generalizing s with
  | nil => trivial
  | cons a as ih => exact ⟨h s a hok.1, fun t ht => ih (hok.2 t ht)⟩

theorem exec_invariant (Inv : σ → Prop)
    (hstep : ∀ s a t, Inv s → ok s a → step s a = some t → Inv t) {t : σ} (hInv : Inv s)
    (hok : Meets step ok s as) (hrun : exec step s as = some t) : Inv t := by
  induction as generalizing s with
  | nil =>
    obtain rfl : s = t := by simpa using hrun
    exact hInv
  | cons a as ih =>
    obtain ⟨u, hu, hrun⟩ := exec_cons_eq_some.mp hrun
    exact ih (hstep s a u hInv hok.1 hu) (hok.2 u hu) hrun

theorem Meets.congr {ok' : σ → α → Prop} (Inv : σ → Prop)
    (hstep : ∀ s a t, Inv s → step s a = some t → Inv t)
    (hiff : ∀ s a, Inv s → (ok s a ↔ ok' s a)) (hInv : Inv s) :
    Meets step ok s as ↔ Meets step ok' s as := by
  induction as generalizing s with
  | nil => exact Iff.rfl
  | cons a as ih =>
    simp only [Meets, hiff s a hInv]
    refine and_congr_right fun _ => forall_congr' fun t => imp_congr_right fun ht => ?_
    exact ih (hstep s a t hInv ht)

theorem forall_segments_iff_meets (R : σ → σ → Prop) (Inv : σ → Prop) (hrefl : ∀ s, R s s)
    (htrans : ∀ s t u, R s t → R t u → R s u)
    (hInv : ∀ s a t, Inv s → ok s a → step s a = some t → Inv t)
    (hstep : ∀ s a t, Inv s → step s a = some t → (R s t ↔ ok s a))
    (hstuck : ∀ s a, step s a = none → ok s a) (hs : Inv s) :
    (∀ before after mid last, before ++ after <+: as → exec step s before = some mid →
        exec step mid after = some last → R mid last) ↔ Meets step ok s as := by
  constructor
  · intro h
    induction as generalizing s with
    | nil => trivial
    | cons a as ih =>
      cases ha : step s a with
      | none => exact ⟨hstuck s a ha, fun t ht => by simp [ha] at ht⟩
      | some t =>
        have hfirst : R s t := h [] [a] s t (by simp) rfl (by simp [exec, ha])
        have hok := (hstep s a t hs ha).mp hfirst
        refine ⟨hok, fun u hu => ?_⟩
        obtain rfl : t = u := Option.some.inj (ha.symm.trans hu)
        refine ih (hInv s a t hs hok ha) fun before after mid last hprefix hmid hlast => ?_
        refine h (a :: before) after mid last ?_ ?_ hlast
        · simpa using hprefix
        · exact exec_cons_eq_some.mpr ⟨t, ha, hmid⟩
  · rintro h before after mid last ⟨rest, rfl⟩ hmid hlast
    have hparts : Meets step ok s (before ++ (after ++ rest)) := by simpa using h
    obtain ⟨hbefore, hafter⟩ := hparts.append hmid
    have hmid' : Inv mid := exec_invariant Inv hInv hs hbefore hmid
    clear hbefore hmid h hparts hs
    induction after generalizing mid with
    | nil =>
      obtain rfl : mid = last := by simpa using hlast
      exact hrefl mid
    | cons a after ih =>
      obtain ⟨u, hu, hlast⟩ := exec_cons_eq_some.mp hlast
      exact htrans mid u last ((hstep mid a u hmid' hu).mpr hafter.1)
        (ih u hlast (hafter.2 u hu) (hInv mid a u hmid' hafter.1 hu))

theorem meets_iff_forall_steps {Q : σ → α → σ → Prop} :
    Meets step (fun s a => ∀ t, step s a = some t → Q s a t) s as ↔
      ∀ before a mid t, before ++ [a] <+: as → exec step s before = some mid →
        step mid a = some t → Q mid a t := by
  induction as generalizing s with
  | nil => simp [Meets]
  | cons b as ih =>
    constructor
    · rintro ⟨hfirst, hrest⟩ before a mid t hprefix hmid ht
      cases before with
      | nil =>
        obtain rfl : s = mid := by simpa using hmid
        obtain rfl : a = b := by simpa using hprefix
        exact hfirst t ht
      | cons b' before =>
        have hparts : b' = b ∧ before ++ [a] <+: as := by
          simpa [List.cons_prefix_cons] using hprefix
        obtain ⟨u, hu, hmid⟩ := exec_cons_eq_some.mp hmid
        rw [hparts.1] at hu
        exact ih.mp (hrest u hu) before a mid t hparts.2 hmid ht
    · intro h
      refine ⟨fun t ht => h [] b s t (by simp) rfl ht, fun u hu => ih.mpr ?_⟩
      intro before a mid t hprefix hmid ht
      refine h (b :: before) a mid t ?_ (exec_cons_eq_some.mpr ⟨u, hu, hmid⟩) ht
      simpa [List.cons_prefix_cons] using hprefix

theorem forall_states_iff_meets (P Inv : σ → Prop)
    (hInv : ∀ s a t, Inv s → step s a = some t → Inv t)
    (hstep : ∀ s a t, Inv s → P s → step s a = some t → (P t ↔ ok s a)) (hs : Inv s) (hP : P s) :
    (∀ before last, before <+: as → exec step s before = some last → P last) ↔
      Meets step (fun s a => (step s a).isSome → ok s a) s as := by
  induction as generalizing s with
  | nil =>
    refine ⟨fun _ => trivial, fun _ before last hprefix hrun => ?_⟩
    obtain rfl := List.prefix_nil.mp hprefix
    cases hrun
    exact hP
  | cons a as ih =>
    constructor
    · intro h
      have hnext : ∀ t, step s a = some t → P t := fun t ht =>
        h [a] t (by simp) (by simp [exec, ht])
      refine ⟨fun henabled => ?_, fun t ht => ?_⟩
      · obtain ⟨t, ht⟩ := Option.isSome_iff_exists.mp henabled
        exact (hstep s a t hs hP ht).mp (hnext t ht)
      · refine (ih (hInv s a t hs ht) (hnext t ht)).mp fun before last hprefix hrun => ?_
        refine h (a :: before) last ?_ (exec_cons_eq_some.mpr ⟨t, ht, hrun⟩)
        simpa [List.cons_prefix_cons] using hprefix
    · rintro ⟨hok, hrest⟩ before last hprefix hrun
      cases before with
      | nil =>
        cases hrun
        exact hP
      | cons b before =>
        have hparts : b = a ∧ before <+: as := by
          simpa [List.cons_prefix_cons] using hprefix
        obtain ⟨t, ht, hrun⟩ := exec_cons_eq_some.mp hrun
        rw [hparts.1] at ht
        have hPt : P t := (hstep s a t hs hP ht).mpr (hok (by simp [ht]))
        exact (ih (hInv s a t hs ht) hPt).mpr (hrest t ht) before last hparts.2 hrun

end Runs

end Stroem.Foundation
