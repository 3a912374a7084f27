import Stroem.Cascade.Run

/-!
# One change at a time

How a change moves the in-memory rows when step names are distinct: it rewrites its target row
and appends the instances of an expansion.  `Moves` collects what every change the phases
compute satisfies in the snapshot it is applied to, and `Steps` asks it along a list of
changes; the lemmas say what a move keeps.
-/

namespace Stroem.Cascade

open Foundation

variable {r : JobStepRow} {name : String}

/-! ## Instance names -/

private theorem bracket_notMem_toDigits (i : Nat) : '[' ∉ Nat.toDigits 10 i := by
  intro h
  have hdigit := Nat.isDigit_of_mem_toDigits (by decide) (by decide) h
  exact absurd hdigit (by decide)

private theorem toList_instanceName (p : String) (i : Nat) :
    (instanceName p i).toList = p.toList ++ '[' :: (Nat.toDigits 10 i ++ [']']) := by
  simp [instanceName, String.toList_append]

private theorem append_cons_inj {α : Type*} [DecidableEq α] {a : α} {xs ys us vs : List α}
    (hus : a ∉ us) (hvs : a ∉ vs) (h : xs ++ a :: us = ys ++ a :: vs) :
    xs = ys ∧ us = vs := by
  have htake : ∀ (zs ws : List α), a ∉ ws →
      (zs ++ a :: ws).reverse.takeWhile (· != a) = ws.reverse := by
    intro zs ws hws
    rw [List.reverse_append, List.reverse_cons, List.append_assoc]
    rw [List.takeWhile_append_of_pos]
    · simp
    · intro b hb
      have : b ≠ a := fun hba => hws (by simpa [hba] using hb)
      simpa using this
  have hrev : us = vs := by
    have := congrArg (fun l => (l.reverse.takeWhile (· != a))) h
    simp only [htake xs us hus, htake ys vs hvs] at this
    exact List.reverse_injective this
  subst hrev
  exact ⟨List.append_cancel_right h, rfl⟩

theorem instanceName_inj {p q : String} {i j : Nat}
    (h : instanceName p i = instanceName q j) : p = q ∧ i = j := by
  have hlist := congrArg String.toList h
  rw [toList_instanceName, toList_instanceName] at hlist
  have hnot : ∀ k, '[' ∉ Nat.toDigits 10 k ++ [']'] := by
    intro k
    simp [bracket_notMem_toDigits k]
  obtain ⟨hp, hd⟩ := append_cons_inj (hnot i) (hnot j) hlist
  refine ⟨String.toList_injective hp, ?_⟩
  have hdigits : Nat.toDigits 10 i = Nat.toDigits 10 j := List.append_cancel_right hd
  have hval := congrArg (Nat.ofDigitChars 10 · 0) hdigits
  simpa [Nat.ofDigitChars_ten_toDigits] using hval

theorem bracket_mem_instanceName (p : String) (i : Nat) :
    '[' ∈ (instanceName p i).toList := by
  rw [toList_instanceName]
  simp

/-! ## The anatomy of a change -/

namespace Change

def target : Change → String
  | .promote step => step
  | .skip step _ => step
  | .fail step _ => step
  | .expand placeholder _ => placeholder
  | .adopt placeholder => placeholder
  | .rollup placeholder _ => placeholder

def setRow : Change → JobStepRow → JobStepRow
  | .promote _, r => { r with status := .ready }
  | .skip _ reason, r => { r with status := .skipped, skipReason := some reason.asStr }
  | .fail _ error, r => { r with status := .failed, errorMessage := some error }
  | .expand _ _, r => { r with status := .running }
  | .adopt _, r => { r with status := .running }
  | .rollup _ (.completed output), r =>
    { r with status := .completed, output := some output }
  | .rollup _ (.failed error output), r =>
    { r with status := .failed, errorMessage := some error, output := some output }

def inserted : Change → List JobStepRow
  | .expand _ instances => instances.map syntheticRow
  | _ => []

def accepts : Change → JobStepRow → Bool
  | .rollup _ _, r => r.status == .running && r.isPlaceholder
  | _, r => r.status == .pending

def legalAt (snap : Snapshot) (c : Change) : Bool :=
  (snap.get c.target).any c.accepts

@[simp] theorem setRow_stepName (c : Change) (r : JobStepRow) :
    (c.setRow r).stepName = r.stepName := by
  unfold setRow
  split <;> rfl

@[simp] theorem setRow_forEachExpr (c : Change) (r : JobStepRow) :
    (c.setRow r).forEachExpr = r.forEachExpr := by
  unfold setRow
  split <;> rfl

@[simp] theorem setRow_isPlaceholder (c : Change) (r : JobStepRow) :
    (c.setRow r).isPlaceholder = r.isPlaceholder := by
  simp [JobStepRow.isPlaceholder]

@[simp] theorem setRow_loopSource (c : Change) (r : JobStepRow) :
    (c.setRow r).loopSource = r.loopSource := by
  unfold setRow
  split <;> rfl

@[simp] theorem setRow_loopIndex (c : Change) (r : JobStepRow) :
    (c.setRow r).loopIndex = r.loopIndex := by
  unfold setRow
  split <;> rfl

@[simp] theorem setRow_actionType (c : Change) (r : JobStepRow) :
    (c.setRow r).actionType = r.actionType := by
  unfold setRow
  split <;> rfl

@[simp] theorem setRow_whenCondition (c : Change) (r : JobStepRow) :
    (c.setRow r).whenCondition = r.whenCondition := by
  unfold setRow
  split <;> rfl

theorem setRow_status_ne_pending (c : Change) (r : JobStepRow) :
    (c.setRow r).status ≠ .pending := by
  unfold setRow
  split <;> simp

theorem setRow_status_congr (c : Change) (r r' : JobStepRow) :
    (c.setRow r).status = (c.setRow r').status := by
  unfold setRow
  split <;> rfl

theorem setRow_status_running {c : Change}
    (h : (c.setRow r).status = .running) :
    (∃ p instances, c = .expand p instances) ∨ ∃ p, c = .adopt p := by
  unfold setRow at h
  split at h <;> simp_all

end Change

/-! ## Changes on rows with distinct names -/

abbrev Distinct (snap : Snapshot) : Prop := Keyed JobStepRow.stepName snap

namespace Snapshot

theorem apply_eq (snap : Snapshot) (c : Change) :
    snap.apply c = snap.modify c.target c.setRow ++ c.inserted := by
  unfold apply Change.target Change.setRow Change.inserted
  split <;> simp

@[simp] theorem applyAll_nil (snap : Snapshot) : snap.applyAll [] = snap := rfl

@[simp] theorem applyAll_cons (snap : Snapshot) (c : Change) (cs : List Change) :
    snap.applyAll (c :: cs) = (snap.apply c).applyAll cs := rfl

theorem applyAll_append (snap : Snapshot) (cs ds : List Change) :
    snap.applyAll (cs ++ ds) = (snap.applyAll cs).applyAll ds := by
  simp [applyAll]

theorem get_eq_some_iff {snap : Snapshot} (h : Distinct snap)
    : snap.get name = some r ↔ r ∈ snap ∧ r.stepName = name :=
  h.lookupLast_eq_some_iff

theorem get_eq_none_iff {snap : Snapshot} :
    snap.get name = none ↔ ∀ r ∈ snap, r.stepName ≠ name :=
  lookupLast_eq_none_iff

theorem get_isSome_iff {snap : Snapshot} :
    (snap.get name).isSome = true ↔ ∃ r ∈ snap, r.stepName = name :=
  lookupLast_isSome_iff

theorem mem_apply {snap : Snapshot} (h : Distinct snap) {c : Change} :
    r ∈ snap.apply c ↔
      (∃ r₀ ∈ snap, r₀.stepName = c.target ∧ r = c.setRow r₀) ∨
      (r ∈ snap ∧ r.stepName ≠ c.target) ∨ r ∈ c.inserted := by
  rw [apply_eq, modify, h.modifyLast_eq_updateWhere, List.mem_append, mem_updateWhere]
  simp only [decide_eq_true_eq, ← or_assoc]
  refine or_congr_left ⟨?_, ?_⟩
  · rintro ⟨r₀, hr₀, heq⟩
    by_cases ht : r₀.stepName = c.target
    · exact .inl ⟨r₀, hr₀, ht, by simpa [ht] using heq.symm⟩
    · obtain rfl : r₀ = r := by simpa [ht] using heq
      exact .inr ⟨hr₀, ht⟩
  · rintro (⟨r₀, hr₀, ht, rfl⟩ | ⟨hr, ht⟩)
    · exact ⟨r₀, hr₀, by simp [ht]⟩
    · exact ⟨r, hr, by simp [ht]⟩

theorem get_apply_of_ne {snap : Snapshot} (h : Distinct snap) {c : Change}
    (htarget : name ≠ c.target) (hnew : ∀ a ∈ c.inserted, a.stepName ≠ name)
    (hkeyed : Distinct (snap.apply c)) : (snap.apply c).get name = snap.get name := by
  apply Option.ext
  intro r
  rw [get_eq_some_iff hkeyed, get_eq_some_iff h, mem_apply h]
  constructor
  · rintro ⟨⟨r₀, -, ht, rfl⟩ | ⟨hr, -⟩ | hr, hname⟩
    · exact absurd (hname.symm.trans (by simpa using ht)) htarget
    · exact ⟨hr, hname⟩
    · exact absurd hname (hnew r hr)
  · rintro ⟨hr, hname⟩
    exact ⟨.inr (.inl ⟨hr, fun ht => htarget (hname.symm.trans ht)⟩), hname⟩

end Snapshot

/-! ## Moves -/

/--
What every change of a phase satisfies in its snapshot: its target is in the status the plan
assumes (a promotion may also meet a `ready` row, which it leaves), and its instances are new.
-/
structure Moves (snap : Snapshot) (c : Change) : Prop where
  source : ∃ r, snap.get c.target = some r ∧
    (c.accepts r = true ∨ r.status = .ready ∧ c = .promote c.target)
  fresh : ∀ r ∈ snap, ∀ a ∈ c.inserted, r.stepName ≠ a.stepName
  keyed : Keyed JobStepRow.stepName c.inserted
  instances : ∀ a ∈ c.inserted, a.loopSource = some c.target ∧
    (∃ i, a.stepName = instanceName c.target i) ∧
    (a.status = .pending ∨ a.status = .ready)
  few : c.inserted.length ≤ maxForEachItems
  loop : c.inserted ≠ [] → ∀ r ∈ snap, r.stepName = c.target → r.isPlaceholder = true
  indexed : ∀ a ∈ c.inserted, ∀ b ∈ c.inserted, a.loopIndex = b.loopIndex →
    a.stepName = b.stepName

def Compatible (c c' : Change) : Prop :=
  (c.target ≠ c'.target ∨ ∃ t, c = .promote t ∧ c' = .promote t) ∧
    ∀ a ∈ c.inserted, ∀ b ∈ c'.inserted, a.stepName ≠ b.stepName

def Steps (snap : Snapshot) : List Change → Prop
  | [] => True
  | c :: cs => Moves snap c ∧ Steps (snap.apply c) cs

theorem Change.accepts_status {c : Change} (h : c.accepts r = true) :
    r.status = .pending ∨ r.status = .running := by
  unfold Change.accepts at h
  split at h <;> simp_all

theorem Change.inserted_forEachExpr {c : Change} {a : JobStepRow} (h : a ∈ c.inserted) :
    a.forEachExpr = none := by
  cases c <;> simp only [inserted, List.not_mem_nil, List.mem_map] at h
  obtain ⟨inst, -, rfl⟩ := h
  rfl

theorem Change.inserted_isPlaceholder {c : Change} {a : JobStepRow} (h : a ∈ c.inserted) :
    a.isPlaceholder = false := by
  simp [JobStepRow.isPlaceholder, inserted_forEachExpr h]

namespace Moves

variable {snap : Snapshot} {c c' : Change}

theorem distinct (h : Distinct snap) (hc : Moves snap c) : Distinct (snap.apply c) := by
  rw [Snapshot.apply_eq, Snapshot.modify, h.modifyLast_eq_updateWhere]
  refine Keyed.append (h.updateWhere (by simp)) hc.keyed ?_
  intro r hr a ha
  obtain ⟨r₀, hr₀, rfl⟩ := mem_updateWhere.mp hr
  have hname : (if decide (r₀.stepName = c.target) = true then c.setRow r₀ else r₀).stepName =
      r₀.stepName := by
    split <;> simp
  rw [hname]
  exact hc.fresh r₀ hr₀ a ha

theorem target_mem (h : Distinct snap) (hc : Moves snap c) :
    ∃ r ∈ snap, r.stepName = c.target ∧
      (c.accepts r = true ∨ r.status = .ready ∧ c = .promote c.target) := by
  obtain ⟨r, hget, hr⟩ := hc.source
  obtain ⟨hmem, hname⟩ := (Snapshot.get_eq_some_iff h).mp hget
  exact ⟨r, hmem, hname, hr⟩

theorem inserted_ne_target (h : Distinct snap) (hc : Moves snap c) (hc' : Moves snap c') :
    ∀ a ∈ c.inserted, a.stepName ≠ c'.target := by
  obtain ⟨r, hr, hname, -⟩ := hc'.target_mem h
  intro a ha heq
  exact hc.fresh r hr a ha (hname.trans heq.symm)

theorem get_of_ne (h : Distinct snap) (hc : Moves snap c)
    (htarget : name ≠ c.target) (hnew : ∀ a ∈ c.inserted, a.stepName ≠ name) :
    (snap.apply c).get name = snap.get name :=
  Snapshot.get_apply_of_ne h htarget hnew (hc.distinct h)

theorem get_target (h : Distinct snap) (hc : Moves snap c)
    (hr : snap.get c.target = some r) : (snap.apply c).get c.target = some (c.setRow r) := by
  obtain ⟨hmem, hname⟩ := (Snapshot.get_eq_some_iff h).mp hr
  rw [Snapshot.get_eq_some_iff (hc.distinct h), Snapshot.mem_apply h]
  exact ⟨.inl ⟨r, hmem, hname, rfl⟩, by simpa using hname⟩

theorem get_terminal (h : Distinct snap) (hc : Moves snap c)
    (hr : snap.get name = some r) (hterm : r.status.isTerminal = true) :
    (snap.apply c).get name = some r := by
  obtain ⟨t, ht, haccept⟩ := hc.source
  have hne : name ≠ c.target := by
    rintro rfl
    obtain rfl : t = r := Option.some.inj (ht.symm.trans hr)
    rcases haccept with haccept | ⟨hready, -⟩
    · rcases Change.accepts_status haccept with hs | hs <;>
        simp [hs, StepStatus.isTerminal] at hterm
    · simp [hready, StepStatus.isTerminal] at hterm
  obtain ⟨hmem, hname⟩ := (Snapshot.get_eq_some_iff h).mp hr
  rw [hc.get_of_ne h hne, hr]
  intro a ha heq
  exact hc.fresh r hmem a ha (hname.trans heq.symm)

theorem apply (h : Distinct snap) (hc : Moves snap c) (hc' : Moves snap c')
    (hcompat : Compatible c c') : Moves (snap.apply c) c' where
  source := by
    obtain ⟨r, hget, hr⟩ := hc'.source
    by_cases ht : c'.target = c.target
    · obtain ⟨t, rfl, rfl⟩ := hcompat.1.resolve_left fun hne => hne ht.symm
      exact ⟨_, hc.get_target h hget, .inr ⟨rfl, rfl⟩⟩
    · exact ⟨r, by rw [hc.get_of_ne h ht (hc.inserted_ne_target h hc'), hget], hr⟩
  fresh := by
    intro r hr a ha
    rcases (Snapshot.mem_apply h).mp hr with ⟨r₀, hr₀, -, rfl⟩ | ⟨hr, -⟩ | hr
    · simpa using hc'.fresh r₀ hr₀ a ha
    · exact hc'.fresh r hr a ha
    · exact hcompat.2 r hr a ha
  keyed := hc'.keyed
  instances := hc'.instances
  few := hc'.few
  loop := by
    intro hne r hr hname
    rcases (Snapshot.mem_apply h).mp hr with ⟨r₀, hr₀, -, rfl⟩ | ⟨hr, -⟩ | hr
    · simpa using hc'.loop hne r₀ hr₀ (by simpa using hname)
    · exact hc'.loop hne r hr hname
    · exact absurd hname (hc.inserted_ne_target h hc' r hr)
  indexed := hc'.indexed

end Moves

namespace Steps

variable {snap : Snapshot} {cs ds : List Change}

theorem of_batch (h : Distinct snap) (hmoves : ∀ c ∈ cs, Moves snap c)
    (hcompat : cs.Pairwise Compatible) : Steps snap cs := by
  induction cs generalizing snap with
  | nil => trivial
  | cons c cs ih =>
    obtain ⟨hhead, htail⟩ := List.pairwise_cons.mp hcompat
    have hc := hmoves c List.mem_cons_self
    refine ⟨hc, ih (hc.distinct h) (fun c' hc' => ?_) htail⟩
    exact hc.apply h (hmoves c' (List.mem_cons_of_mem _ hc')) (hhead c' hc')

theorem append (hcs : Steps snap cs) (hds : Steps (snap.applyAll cs) ds) :
    Steps snap (cs ++ ds) := by
  induction cs generalizing snap with
  | nil => exact hds
  | cons c cs ih => exact ⟨hcs.1, ih hcs.2 hds⟩

theorem of_append (h : Steps snap (cs ++ ds)) :
    Steps snap cs ∧ Steps (snap.applyAll cs) ds := by
  induction cs generalizing snap with
  | nil => exact ⟨trivial, h⟩
  | cons c cs ih =>
    obtain ⟨hcs, hds⟩ := ih h.2
    exact ⟨⟨h.1, hcs⟩, hds⟩

theorem invariant (Inv : Snapshot → Prop)
    (hstep : ∀ s c, Distinct s → Inv s → Moves s c → Inv (s.apply c))
    (h : Distinct snap) (hInv : Inv snap) (hsteps : Steps snap cs) :
    Inv (snap.applyAll cs) := by
  induction cs generalizing snap with
  | nil => exact hInv
  | cons c cs ih => exact ih (hsteps.1.distinct h) (hstep snap c h hInv hsteps.1) hsteps.2

theorem distinct (h : Distinct snap) (hsteps : Steps snap cs) :
    Distinct (snap.applyAll cs) :=
  hsteps.invariant Distinct (fun _ _ hs _ hc => hc.distinct hs) h h

theorem get_terminal (h : Distinct snap) (hsteps : Steps snap cs)
    (hr : snap.get name = some r) (hterm : r.status.isTerminal = true) :
    (snap.applyAll cs).get name = some r :=
  hsteps.invariant (fun s => s.get name = some r)
    (fun _ _ hs hget hc => hc.get_terminal hs hget hterm) h hr

end Steps

end Stroem.Cascade
