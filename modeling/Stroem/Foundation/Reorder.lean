import Mathlib.Data.List.Sort

/-!
# Orders that do not matter

A run of steps that commute pairwise ends, up to an equivalence of states, where the run of the
same steps in another order ends.  A stable sort keeps the order of elements with one key, so
lists that agree on that order sort to the same list.
-/

namespace Stroem.Foundation

/-! ## Steps that commute -/

section Plays

variable {γ σ : Type*} {step : γ → σ → σ → Prop} {eqv : σ → σ → Prop}

inductive Plays (step : γ → σ → σ → Prop) : List γ → σ → σ → Prop
  | nil (s : σ) : Plays step [] s s
  | cons {c : γ} {cs : List γ} {s t u : σ} :
      step c s t → Plays step cs t u → Plays step (c :: cs) s u

theorem plays_nil_iff {s u : σ} : Plays step [] s u ↔ u = s := by
  constructor
  · rintro ⟨⟩
    rfl
  · rintro rfl
    exact .nil u

theorem plays_cons_iff {c : γ} {cs : List γ} {s u : σ} :
    Plays step (c :: cs) s u ↔ ∃ t, step c s t ∧ Plays step cs t u := by
  constructor
  · rintro ⟨⟩
    exact ⟨_, ‹_›, ‹_›⟩
  · rintro ⟨t, hstep, hrest⟩
    exact .cons hstep hrest

theorem plays_append_iff {cs ds : List γ} {s u : σ} :
    Plays step (cs ++ ds) s u ↔ ∃ t, Plays step cs s t ∧ Plays step ds t u := by
  induction cs generalizing s with
  | nil => simp [plays_nil_iff]
  | cons c cs ih =>
    rw [List.cons_append, plays_cons_iff]
    constructor
    · rintro ⟨t, hstep, hrest⟩
      obtain ⟨v, hcs, hds⟩ := ih.mp hrest
      exact ⟨v, .cons hstep hcs, hds⟩
    · rintro ⟨v, hcs, hds⟩
      obtain ⟨t, hstep, hcs⟩ := plays_cons_iff.mp hcs
      exact ⟨t, hstep, ih.mpr ⟨v, hcs, hds⟩⟩

theorem Plays.congr (hcongr : ∀ c s s' t, eqv s s' → step c s t → ∃ t', step c s' t' ∧ eqv t t')
    {cs : List γ} {s s' u : σ} (h : Plays step cs s u) (hs : eqv s s') :
    ∃ u', Plays step cs s' u' ∧ eqv u u' := by
  induction h generalizing s' with
  | nil s => exact ⟨s', .nil s', hs⟩
  | cons hstep _ ih =>
    obtain ⟨t', hstep', ht⟩ := hcongr _ _ _ _ hs hstep
    obtain ⟨u', hrest, hu⟩ := ih ht
    exact ⟨u', .cons hstep' hrest, hu⟩

theorem Plays.reorder (heqv : Equivalence eqv) (Inv : σ → Prop) (all : List γ)
    (hInv : ∀ c s t, Inv s → step c s t → Inv t)
    (hcongr : ∀ c s s' t, eqv s s' → step c s t → ∃ t', step c s' t' ∧ eqv t t')
    (hswap : ∀ c ∈ all, ∀ c' ∈ all, ∀ s t u, Inv s → step c s t → step c' t u →
      ∃ t' u', step c' s t' ∧ step c t' u' ∧ eqv u u')
    {cs ds : List γ} (hperm : cs.Perm ds) (hall : ∀ c ∈ cs, c ∈ all) {s u : σ} (hs : Inv s)
    (h : Plays step cs s u) : ∃ u', Plays step ds s u' ∧ eqv u u' := by
  induction hperm generalizing s u with
  | nil => exact ⟨u, h, heqv.refl u⟩
  | cons c _ ih =>
    obtain ⟨t, hstep, hrest⟩ := plays_cons_iff.mp h
    obtain ⟨u', hrest', hu⟩ :=
      ih (fun d hd => hall d (List.mem_cons_of_mem c hd)) (hInv c s t hs hstep) hrest
    exact ⟨u', .cons hstep hrest', hu⟩
  | swap c d cs =>
    obtain ⟨t, hfirst, hrest⟩ := plays_cons_iff.mp h
    obtain ⟨v, hsecond, hrest⟩ := plays_cons_iff.mp hrest
    obtain ⟨t', v', hfirst', hsecond', hv⟩ := hswap d (hall d List.mem_cons_self) c
      (hall c (List.mem_cons_of_mem d List.mem_cons_self)) s t v hs hfirst hsecond
    obtain ⟨u', hrest', hu⟩ := hrest.congr hcongr hv
    exact ⟨u', .cons hfirst' (.cons hsecond' hrest'), hu⟩
  | trans hperm _ ih ih' =>
    obtain ⟨v, hmid, hv⟩ := ih hall hs h
    obtain ⟨u', hlast, hu⟩ := ih' (fun c hc => hall c (hperm.mem_iff.mpr hc)) hs hmid
    exact ⟨u', hlast, heqv.trans hv hu⟩

end Plays

/-! ## Stable sorting -/

section StableSort

variable {α : Type*} {r s : α → α → Prop} [DecidableRel r] [Std.Total r] [IsTrans α r]

private theorem pairwise_orderedInsert_ties {a : α} {l : List α} (ha : ∀ b ∈ l, s a b)
    (h : l.Pairwise fun x y => r x y ∧ (r y x → s x y)) :
    (l.orderedInsert r a).Pairwise fun x y => r x y ∧ (r y x → s x y) := by
  induction l with
  | nil => exact List.pairwise_singleton _ a
  | cons b l ih =>
    obtain ⟨hb, hl⟩ := List.pairwise_cons.mp h
    by_cases hab : r a b
    · rw [List.orderedInsert_cons_of_le r l hab]
      refine List.pairwise_cons.mpr ⟨fun x hx => ⟨?_, fun _ => ha x hx⟩, h⟩
      rcases List.mem_cons.mp hx with rfl | hx
      · exact hab
      · exact trans_of r hab (hb x hx).1
    · rw [List.orderedInsert_cons, if_neg hab]
      refine List.pairwise_cons.mpr ⟨fun x hx => ?_, ih (fun x hx => ha x
        (List.mem_cons_of_mem b hx)) hl⟩
      rcases (List.mem_orderedInsert r).mp hx with rfl | hx
      · exact ⟨(total_of r x b).resolve_left hab, fun hxb => absurd hxb hab⟩
      · exact hb x hx

theorem pairwise_insertionSort_ties {l : List α} (h : l.Pairwise s) :
    (l.insertionSort r).Pairwise fun x y => r x y ∧ (r y x → s x y) := by
  induction l with
  | nil => exact List.Pairwise.nil
  | cons a l ih =>
    obtain ⟨ha, hl⟩ := List.pairwise_cons.mp h
    refine pairwise_orderedInsert_ties (fun b hb => ?_) (ih hl)
    exact ha b ((List.mem_insertionSort r).mp hb)

theorem insertionSort_eq_of_perm {l l' : List α} (hperm : l.Perm l') (h : l.Pairwise s)
    (h' : l'.Pairwise s)
    (hanti : ∀ a ∈ l, ∀ b ∈ l, r a b → r b a → s a b → s b a → a = b) :
    l.insertionSort r = l'.insertionSort r := by
  refine List.Perm.eq_of_pairwise (fun a b ha hb hab hba => ?_) (pairwise_insertionSort_ties h)
    (pairwise_insertionSort_ties h')
    ((List.perm_insertionSort r l).trans (hperm.trans (List.perm_insertionSort r l').symm))
  have ha' : a ∈ l := (List.mem_insertionSort r).mp ha
  have hb' : b ∈ l := hperm.mem_iff.mpr ((List.mem_insertionSort r).mp hb)
  exact hanti a ha' b hb' hab.1 hba.1 (hab.2 hba.1) (hba.2 hab.1)

end StableSort

end Stroem.Foundation
