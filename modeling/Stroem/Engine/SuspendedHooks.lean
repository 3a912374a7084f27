import Stroem.Engine.TaskDispatch

/-!
# Hooks of a suspended step

Who fires the `on_suspended` hooks of an approval step is read off two snapshots: a call of
`dispatch_approvals` fires for a step that it finds suspended at its end and did not find
suspended at its start, whoever suspended it.  The request that created a job fires for all that
it finds suspended, if it looks.  Suspensions are numbered here, and each firing is recorded with
the one it found.
-/

namespace Stroem.Engine

open Foundation JobStepRepo Cascade

inductive WatchPhase where
  | begun
  | rendered
  | dispatched
  | done
  deriving DecidableEq

/-- A call of `dispatch_approvals`, or the creation of the job. -/
structure Watcher where
  phase : WatchPhase := .begun
  fires : Bool
  entered : Bool := false
  deriving DecidableEq

def Watcher.pending (w : Watcher) : Bool :=
  w.fires && w.phase != .done

def Watcher.owes (w : Watcher) : Bool :=
  w.entered && w.phase != .done

structure SuspendedStep where
  row : JobStepRow
  watchers : List Watcher := []
  entries : Nat := 0
  fired : List Nat := []

inductive SuspendAction where
  | begin
  | read (i : Nat)
  | suspend (i : Nat) (now : Time)
  | skip (i : Nat)
  | finish (i : Nat)
  | stop (i : Nat)
  | write (now : Time) (jobStatus : JobStatus) (w : Write)
  | cascade (now : Time) (change : Change)

def Write.besidesSuspension : Write → Bool
  | .markSuspended _ | .suspendAgentStep _ _ | .applyPlan _ => false
  | _ => true

namespace SuspendedStep

def created (row : JobStepRow) (looks : Bool) : SuspendedStep :=
  { row := row, watchers := [{ fires := looks }] }

def setWatcher (s : SuspendedStep) (i : Nat) (w : Watcher) : SuspendedStep :=
  { s with watchers := s.watchers.set i w }

def isSuspended (s : SuspendedStep) : Bool := s.row.status == .suspended

def act (s : SuspendedStep) : SuspendAction → Option SuspendedStep
  | .begin => some { s with watchers := s.watchers ++ [{ fires := !s.isSuspended }] }
  | .read i =>
    match s.watchers[i]? with
    | some w =>
      if w.phase = .begun then
        some (s.setWatcher i
          { w with phase := if s.row.status = .ready then .rendered else .dispatched })
      else none
    | none => none
  | .suspend i now =>
    match s.watchers[i]? with
    | some w =>
      if w.phase = .rendered then
        if s.row.status = .ready then
          some { s.setWatcher i { w with phase := .dispatched, entered := true } with
            row := (markSuspended s.row.stepName now).onRow s.row
            entries := s.entries + 1 }
        else some (s.setWatcher i { w with phase := .dispatched })
      else none
    | none => none
  | .skip i =>
    match s.watchers[i]? with
    | some w =>
      if w.phase = .begun ∨ w.phase = .rendered then
        some (s.setWatcher i { w with phase := .dispatched })
      else none
    | none => none
  | .finish i =>
    match s.watchers[i]? with
    | some w =>
      if w.phase = .dispatched then
        some { s.setWatcher i { w with phase := .done } with
          fired := if w.fires && s.isSuspended then s.fired ++ [s.entries] else s.fired }
      else none
    | none => none
  | .stop i =>
    match s.watchers[i]? with
    | some w => if w.phase = .done then none else some (s.setWatcher i { w with phase := .done })
    | none => none
  | .write now jobStatus w =>
    if w.besidesSuspension then some { s with row := rowAfter now jobStatus w s.row } else none
  | .cascade now change => some { s with row := changedRow now change s.row }

end SuspendedStep

/-! ## One call at a time -/

def SuspendAction.rowAfter? (r : JobStepRow) : SuspendAction → Option JobStepRow
  | .write now jobStatus w => some (rowAfter now jobStatus w r)
  | .cascade now change => some (changedRow now change r)
  | _ => none

/--
A call that suspends the step will look again and fire, and no other call that would fire is
under way; the step stays suspended until the call has looked, and the call does look.
-/
def OneCall (s : SuspendedStep) : SuspendAction → Prop
  | .suspend i _ => s.row.status = .ready →
      (∀ w ∈ s.watchers[i]?, w.fires = true) ∧ ∀ w ∈ s.watchers.eraseIdx i, w.pending = false
  | .stop i => ∀ w ∈ s.watchers[i]?, w.owes = false
  | a => ∀ row ∈ a.rowAfter? s.row, s.watchers.any Watcher.owes = true → row.status = .suspended

instance (s : SuspendedStep) : (a : SuspendAction) → Decidable (OneCall s a)
  | .suspend _ _ => inferInstanceAs (Decidable (_ = _ → (∀ w ∈ _, _ = _) ∧ ∀ w ∈ _, _ = _))
  | .stop _ => inferInstanceAs (Decidable (∀ w ∈ _, _ = _))
  | .begin | .read _ | .skip _ | .finish _ => .isTrue fun _ h => nomatch h
  | .write _ _ _ | .cascade _ _ => inferInstanceAs (Decidable (∀ row ∈ _, _ = _ → _ = _))

/-! ## What the writes of others do -/

theorem suspended_of_rowAfter {now : Time} {jobStatus : JobStatus} {w : Write} {r : JobStepRow}
    (hw : w.besidesSuspension = true)
    (h : (rowAfter now jobStatus w r).status = .suspended) : r.status = .suspended := by
  have hk : Keyed JobStepRow.stepName [r] := by simp [Keyed]
  have hcascade : w.isCascade = false := by
    cases w with
    | applyPlan plan => cases hw
    | _ => rfl
  have heffect : RowEffect w r (rowAfter now jobStatus w r) := by
    have hspec : List.Forall₂ (RowEffect w) [r] (rowsAfter now jobStatus [r] w) :=
      rowsAfter_spec hk hcascade
    unfold rowAfter
    cases hrows : rowsAfter now jobStatus [r] w with
    | nil =>
      rw [hrows] at hspec
      cases hspec
    | cons r' rest =>
      rw [hrows] at hspec
      exact (List.forall₂_cons.mp hspec).1
  rcases heffect.outcome with ⟨hsame, -⟩ | hmoves
  · exact hsame.symm.trans h
  · rw [h] at hmoves
    cases w with
    | markSuspended step | suspendAgentStep step message | applyPlan plan => cases hw
    | _ => simp_all [Write.moves]

private theorem runExpecting_singleton {u : Update JobStepRow} {step : String} {r : JobStepRow}
    {rows : List JobStepRow} (h : runExpecting u 1 step [r] = .ok rows) : rows = [u.onRow r] := by
  unfold runExpecting at h
  split at h
  · exact (Except.ok.inj h).symm
  · cases h

theorem suspended_of_changedRow {now : Time} {c : Change} {r : JobStepRow}
    (h : (changedRow now c r).status = .suspended) : r.status = .suspended := by
  unfold changedRow at h
  split at h
  case h_2 => exact h
  case h_1 rows hok =>
    have hset : ∀ (u : Update JobStepRow) (step : String) (rows : List JobStepRow),
        runExpecting u 1 step [r] = .ok rows → (u.set r).status ≠ .suspended →
        (rows.headD r).status = .suspended → r.status = .suspended := by
      intro u step rows hrun hnot hs
      obtain rfl := runExpecting_singleton hrun
      simp only [List.headD_cons, Update.onRow] at hs
      split at hs
      · exact absurd hs hnot
      · exact hs
    cases c with
    | expand p instances =>
      simp only [applySingle] at hok
      split at hok
      · cases hok
      case h_2 rows₁ hrun =>
        split at hok
        · cases hok
        case h_2 rows₂ hcreate =>
          cases hok
          obtain rfl := runExpecting_singleton hrun
          rw [(createStepsTx_ok hcreate).1] at h
          exact hset _ _ _ hrun (fun h => by cases h) h
    | rollup p outcome => cases outcome <;> exact hset _ _ _ hok (fun h => by cases h) h
    | _ => exact hset _ _ _ hok (fun h => by cases h) h

/-! ## Every suspension is fired for once -/

def SuspendedStep.owed (s : SuspendedStep) : Bool :=
  s.watchers.any Watcher.owes

structure FiredOnce (s : SuspendedStep) : Prop where
  quiet : s.isSuspended = true → ∀ w ∈ s.watchers, w.pending = true → w.owes = true
  owing : ∀ w ∈ s.watchers, w.owes = true →
    s.isSuspended = true ∧ w.fires = true ∧ w.phase = .dispatched
  alone : ∀ (i j : Nat) (w w' : Watcher), s.watchers[i]? = some w → s.watchers[j]? = some w' →
    w.owes = true → w'.owes = true → i = j
  numbered : s.owed = true → 1 ≤ s.entries
  counts : ∀ k, s.fired.count k =
    if 1 ≤ k ∧ (k < s.entries ∨ k = s.entries ∧ s.owed = false) then 1 else 0

namespace FiredOnce

variable {s t : SuspendedStep}

theorem owed_iff : s.owed = true ↔ ∃ (i : Nat) (w : Watcher), s.watchers[i]? = some w ∧
    w.owes = true := by
  simp only [SuspendedStep.owed, List.any_eq_true, List.mem_iff_getElem?]
  constructor
  · rintro ⟨w, ⟨i, hi⟩, hw⟩
    exact ⟨i, w, hi, hw⟩
  · rintro ⟨i, w, hi, hw⟩
    exact ⟨w, ⟨i, hi⟩, hw⟩

theorem created (row : JobStepRow) (looks : Bool) (hrow : row.status ≠ .suspended) :
    FiredOnce (.created row looks) where
  quiet hs := by simp [SuspendedStep.isSuspended, SuspendedStep.created, hrow] at hs
  owing w hw howes := by
    obtain rfl : w = { fires := looks } := by simpa [SuspendedStep.created] using hw
    cases howes
  alone i j w w' hi _ howes := by
    obtain rfl : w = { fires := looks } := by
      simpa [SuspendedStep.created] using List.mem_of_getElem? hi
    cases howes
  numbered howed := by simp [SuspendedStep.owed, SuspendedStep.created, Watcher.owes] at howed
  counts k := by
    simp [SuspendedStep.created]
    omega

private theorem owed_set {i : Nat} {w w' : Watcher} (hi : s.watchers[i]? = some w)
    (hsame : w'.owes = w.owes) : (s.setWatcher i w').owed = s.owed := by
  rw [Bool.eq_iff_iff, owed_iff, owed_iff]
  constructor
  · rintro ⟨j, v, hj, hv⟩
    rcases getElem?_set_cases hj with ⟨-, rfl⟩ | ⟨-, hj⟩
    · exact ⟨i, w, hi, hsame ▸ hv⟩
    · exact ⟨j, v, hj, hv⟩
  · rintro ⟨j, v, hj, hv⟩
    by_cases hij : j = i
    · subst hij
      obtain rfl : w = v := Option.some.inj (hi.symm.trans hj)
      refine ⟨j, w', ?_, hsame.trans hv⟩
      exact List.getElem?_set_self (List.getElem?_eq_some_iff.mp hi).1
    · exact ⟨j, v, by rw [SuspendedStep.setWatcher, List.getElem?_set_ne (Ne.symm hij), hj], hv⟩

private theorem move (h : FiredOnce s) {i : Nat} {w w' : Watcher}
    (hi : s.watchers[i]? = some w) (howes : w.owes = false) (howes' : w'.owes = false)
    (hpending : w'.pending = true → w.pending = true) : FiredOnce (s.setWatcher i w') := by
  have hmem := List.mem_of_getElem? hi
  have howed := owed_set hi (howes'.trans howes.symm)
  refine ⟨fun hs v hv hv' => ?_, fun v hv hv' => ?_, fun j k v v' hj hk hv hv' => ?_,
    fun ho => h.numbered (howed ▸ ho), fun m => ?_⟩
  · rcases List.mem_or_eq_of_mem_set hv with hv | rfl
    · exact h.quiet hs v hv hv'
    · rw [h.quiet hs w hmem (hpending hv')] at howes
      cases howes
  · rcases List.mem_or_eq_of_mem_set hv with hv | rfl
    · exact h.owing v hv hv'
    · rw [howes'] at hv'
      cases hv'
  · rcases getElem?_set_cases hj with ⟨-, rfl⟩ | ⟨-, hj⟩
    · rw [howes'] at hv
      cases hv
    · rcases getElem?_set_cases hk with ⟨-, rfl⟩ | ⟨-, hk⟩
      · rw [howes'] at hv'
        cases hv'
      · exact h.alone j k v v' hj hk hv hv'
  · rw [howed]
    exact h.counts m

private theorem owes_of_phase (h : FiredOnce s) {i : Nat} {w : Watcher}
    (hi : s.watchers[i]? = some w) (hphase : w.phase ≠ .dispatched) : w.owes = false := by
  cases howes : w.owes with
  | false => rfl
  | true => exact absurd (h.owing w (List.mem_of_getElem? hi) howes).2.2 hphase

private theorem begin (h : FiredOnce s) :
    FiredOnce { s with watchers := s.watchers ++ [{ fires := !s.isSuspended }] } := by
  have howed : (SuspendedStep.owed { s with
      watchers := s.watchers ++ [{ fires := !s.isSuspended }] }) = s.owed := by
    simp [SuspendedStep.owed, Watcher.owes]
  have hlast : ∀ {j : Nat} {v : Watcher},
      (s.watchers ++ [{ fires := !s.isSuspended }])[j]? = some v → v.owes = true →
      s.watchers[j]? = some v := by
    intro j v hj hv
    rw [List.getElem?_append] at hj
    split at hj
    · exact hj
    · rw [List.getElem?_singleton] at hj
      split at hj
      · cases hj
        cases hv
      · cases hj
  refine ⟨fun hs v hv hv' => ?_, fun v hv hv' => ?_, fun j k v v' hj hk hv hv' => ?_,
    fun ho => h.numbered (howed ▸ ho), fun m => ?_⟩
  · rcases List.mem_append.mp hv with hv | hv
    · exact h.quiet hs v hv hv'
    · obtain rfl := List.mem_singleton.mp hv
      change s.isSuspended = true at hs
      simp [Watcher.pending, hs] at hv'
  · rcases List.mem_append.mp hv with hv | hv
    · exact h.owing v hv hv'
    · obtain rfl := List.mem_singleton.mp hv
      cases hv'
  · exact h.alone j k v v' (hlast hj hv) (hlast hk hv') hv hv'
  · rw [howed]
    exact h.counts m

private theorem enter (h : FiredOnce s) {i : Nat} {w : Watcher} {now : Time}
    (hi : s.watchers[i]? = some w) (hready : s.row.status = .ready)
    (hok : OneCall s (.suspend i now)) :
    FiredOnce { s.setWatcher i { w with phase := .dispatched, entered := true } with
      row := (markSuspended s.row.stepName now).onRow s.row
      entries := s.entries + 1 } := by
  have hsuspended : ((markSuspended s.row.stepName now).onRow s.row).status = .suspended := by
    simp [Update.onRow, markSuspended, hready]
  have hnot : s.isSuspended = false := by simp [SuspendedStep.isSuspended, hready]
  -- nobody owes anything for a step that is ready
  have hnone : ∀ v ∈ s.watchers, v.owes = false := by
    intro v hv
    cases howes : v.owes with
    | false => rfl
    | true =>
      rw [(h.owing v hv howes).1] at hnot
      cases hnot
  have howed : s.owed = false := List.any_eq_false.mpr fun v hv => by simp [hnone v hv]
  have hfires : w.fires = true := (hok hready).1 w hi
  have hset : ∀ {j : Nat} {v : Watcher},
      (s.watchers.set i { w with phase := .dispatched, entered := true })[j]? = some v →
      v.owes = true → j = i ∧ v = { w with phase := .dispatched, entered := true } := by
    intro j v hj hv
    rcases getElem?_set_cases hj with hnew | ⟨-, hj⟩
    · exact hnew
    · rw [hnone v (List.mem_of_getElem? hj)] at hv
      cases hv
  refine ⟨fun _ v hv hv' => ?_, fun v hv hv' => ?_, fun j k v v' hj hk hv hv' => ?_,
    fun _ => Nat.le_add_left 1 _, fun m => ?_⟩
  · obtain ⟨j, hj⟩ := List.mem_iff_getElem?.mp hv
    rcases getElem?_set_cases hj with ⟨-, rfl⟩ | ⟨hne, hj⟩
    · rfl
    · have hother : v ∈ s.watchers.eraseIdx i :=
        List.mem_eraseIdx_iff_getElem?.mpr ⟨j, hne, hj⟩
      rw [(hok hready).2 v hother] at hv'
      cases hv'
  · obtain ⟨j, hj⟩ := List.mem_iff_getElem?.mp hv
    obtain ⟨-, rfl⟩ := hset hj hv'
    exact ⟨by simp [SuspendedStep.isSuspended, hsuspended], hfires, rfl⟩
  · exact (hset hj hv).1.trans (hset hk hv').1.symm
  · have howed' : SuspendedStep.owed
        { s.setWatcher i { w with phase := .dispatched, entered := true } with
          row := (markSuspended s.row.stepName now).onRow s.row
          entries := s.entries + 1 } = true := by
      refine owed_iff.mpr ⟨i, { w with phase := .dispatched, entered := true }, ?_, rfl⟩
      exact List.getElem?_set_self (List.getElem?_eq_some_iff.mp hi).1
    have hcount := h.counts m
    rw [howed] at hcount
    rw [howed']
    change s.fired.count m = _
    rw [hcount]
    simp only [and_true, Bool.true_eq_false, and_false, or_false]
    congr 2
    exact propext (by omega)

private theorem finish (h : FiredOnce s) {i : Nat} {w : Watcher} (hi : s.watchers[i]? = some w)
    (hphase : w.phase = .dispatched) :
    FiredOnce { s.setWatcher i { w with phase := .done } with
      fired := if w.fires && s.isSuspended then s.fired ++ [s.entries] else s.fired } := by
  have hmem := List.mem_of_getElem? hi
  have hdone : Watcher.owes { w with phase := .done } = false := by simp [Watcher.owes]
  cases hfires : w.fires && s.isSuspended with
  | false =>
    have howes : w.owes = false := by
      cases howes : w.owes with
      | false => rfl
      | true =>
        obtain ⟨hs, hf, -⟩ := h.owing w hmem howes
        simp [hs, hf] at hfires
    exact h.move hi howes hdone (by simp [Watcher.pending])
  | true =>
    simp only [Bool.and_eq_true] at hfires
    have howes : w.owes = true :=
      h.quiet hfires.2 w hmem (by simp [Watcher.pending, hfires.1, hphase])
    have howed : s.owed = true := owed_iff.mpr ⟨i, w, hi, howes⟩
    -- it was the only call that owed
    have hnone : ∀ {j : Nat} {v : Watcher},
        (s.watchers.set i { w with phase := .done })[j]? = some v → v.owes = false := by
      intro j v hj
      rcases getElem?_set_cases hj with ⟨-, rfl⟩ | ⟨hne, hj⟩
      · exact hdone
      · cases hv : v.owes with
        | false => rfl
        | true => exact absurd (h.alone j i v w hj hi hv howes) hne
    have howed' : SuspendedStep.owed { s.setWatcher i { w with phase := .done } with
        fired := s.fired ++ [s.entries] } = false := by
      rw [Bool.eq_false_iff, Ne, owed_iff]
      rintro ⟨j, v, hj, hv⟩
      rw [hnone hj] at hv
      cases hv
    have hmem' : ∀ v ∈ s.watchers.set i { w with phase := .done }, v.owes = false := by
      intro v hv
      obtain ⟨j, hj⟩ := List.mem_iff_getElem?.mp hv
      exact hnone hj
    refine ⟨fun hs v hv hv' => ?_, fun v hv hv' => ?_, fun j k v v' hj _ hv _ => ?_,
      fun ho => ?_, fun m => ?_⟩
    · rcases List.mem_or_eq_of_mem_set hv with hv | rfl
      · exact h.quiet hs v hv hv'
      · simp [Watcher.pending] at hv'
    · rw [hmem' v hv] at hv'
      cases hv'
    · rw [hnone hj] at hv
      cases hv
    · rw [if_pos rfl, howed'] at ho
      cases ho
    · have hcount := h.counts m
      have hpos := h.numbered howed
      rw [howed] at hcount
      rw [if_pos rfl, howed']
      simp only [List.count_append, hcount, List.count_singleton, beq_iff_eq, and_true,
        Bool.true_eq_false, and_false, or_false]
      change _ = if 1 ≤ m ∧ (m < s.entries ∨ m = s.entries) then 1 else 0
      split_ifs <;> omega

private theorem write (h : FiredOnce s) {row : JobStepRow}
    (hsuspended : row.status = .suspended → s.row.status = .suspended)
    (hkept : s.owed = true → row.status = .suspended) : FiredOnce { s with row := row } := by
  refine ⟨fun hs => h.quiet ?_, fun v hv hv' => ?_, h.alone, h.numbered, h.counts⟩
  · have hrow : row.status = .suspended := by simpa [SuspendedStep.isSuspended] using hs
    simp [SuspendedStep.isSuspended, hsuspended hrow]
  · have howed : s.owed = true := List.any_eq_true.mpr ⟨v, hv, hv'⟩
    refine ⟨?_, (h.owing v hv hv').2⟩
    simp [SuspendedStep.isSuspended, hkept howed]

theorem act {a : SuspendAction} (h : FiredOnce s) (hok : OneCall s a) (hact : s.act a = some t) :
    FiredOnce t := by
  cases a with
  | begin =>
    cases hact
    exact h.begin
  | read i =>
    simp only [SuspendedStep.act] at hact
    split at hact
    case h_1 w hi =>
      split at hact
      case isTrue hphase =>
        cases hact
        have howes := h.owes_of_phase hi (by simp [hphase])
        refine h.move hi howes ?_ fun _ => ?_
        · simp_all [Watcher.owes]
        · simp_all [Watcher.pending]
      case isFalse => cases hact
    case h_2 => cases hact
  | suspend i now =>
    simp only [SuspendedStep.act] at hact
    split at hact
    case h_1 w hi =>
      split at hact
      case isTrue hphase =>
        split at hact
        case isTrue hready =>
          cases hact
          exact h.enter hi hready hok
        case isFalse =>
          cases hact
          have howes := h.owes_of_phase hi (by simp [hphase])
          refine h.move hi howes ?_ fun _ => ?_
          · simp_all [Watcher.owes]
          · simp_all [Watcher.pending]
      case isFalse => cases hact
    case h_2 => cases hact
  | skip i =>
    simp only [SuspendedStep.act] at hact
    split at hact
    case h_1 w hi =>
      split at hact
      case isTrue hphase =>
        cases hact
        have hnot : w.phase ≠ .dispatched := by rcases hphase with hp | hp <;> simp [hp]
        have howes := h.owes_of_phase hi hnot
        refine h.move hi howes ?_ fun _ => ?_
        · rcases hphase with hp | hp <;> simp_all [Watcher.owes]
        · rcases hphase with hp | hp <;> simp_all [Watcher.pending]
      case isFalse => cases hact
    case h_2 => cases hact
  | finish i =>
    simp only [SuspendedStep.act] at hact
    split at hact
    case h_1 w hi =>
      split at hact
      case isTrue hphase =>
        cases hact
        exact h.finish hi hphase
      case isFalse => cases hact
    case h_2 => cases hact
  | stop i =>
    simp only [SuspendedStep.act] at hact
    split at hact
    case h_1 w hi =>
      split at hact
      · cases hact
      · cases hact
        refine h.move hi (hok w hi) (by simp [Watcher.owes]) fun hp => ?_
        simp [Watcher.pending] at hp
    case h_2 => cases hact
  | write now jobStatus w =>
    simp only [SuspendedStep.act] at hact
    split at hact
    case isTrue hbesides =>
      cases hact
      exact h.write (suspended_of_rowAfter hbesides) (hok _ rfl)
    case isFalse => cases hact
  | cascade now change =>
    cases hact
    exact h.write suspended_of_changedRow (hok _ rfl)

end FiredOnce

/-! ## Runs -/

/--
Suspension hooks fire exactly once in every run where a call that suspends the step is the only
one that would fire, looks again, and finds the step as it left it.
-/
theorem suspended_hooks_once {row : JobStepRow} {looks : Bool} {t : SuspendedStep}
    {as : List SuspendAction} (hrow : row.status ≠ .suspended)
    (hok : Meets SuspendedStep.act OneCall (.created row looks) as)
    (hrun : exec SuspendedStep.act (.created row looks) as = some t) :
    (∀ k, t.fired.count k ≤ 1) ∧
      ((∀ w ∈ t.watchers, w.phase = .done) → ∀ k, 1 ≤ k → k ≤ t.entries → t.fired.count k = 1) := by
  have h : FiredOnce t :=
    exec_invariant FiredOnce (fun _ _ _ h hok hact => h.act hok hact) (.created row looks hrow)
      hok hrun
  refine ⟨fun k => ?_, fun hdone k hpos hle => ?_⟩
  · rw [h.counts k]
    split <;> omega
  · have howed : t.owed = false :=
      List.any_eq_false.mpr fun w hw => by simp [Watcher.owes, hdone w hw]
    rw [h.counts k, howed, if_pos ⟨hpos, by simpa using Nat.lt_or_eq_of_le hle⟩]

/-! ## Overlapping calls -/

def signOffRow : JobStepRow :=
  { stepName := "sign-off", status := .ready, actionType := .approval }

def oneAfterAnother : List SuspendAction :=
  [.read 0, .finish 0, .cascade 10 (.promote "sign-off"), .begin, .read 1, .suspend 1 11,
    .finish 1, .write 20 .running (.approveStep "sign-off" none)]

theorem suspended_hooks_once_oneAfterAnother :
    ∃ t, exec SuspendedStep.act (.created { signOffRow with status := .pending } true)
        oneAfterAnother = some t ∧ t.row.status = .completed ∧ t.entries = 1 ∧
      t.fired.count 1 = 1 := by
  have hok : Meets SuspendedStep.act OneCall
      (.created { signOffRow with status := .pending } true) oneAfterAnother := by
    decide
  refine ⟨_, rfl, by decide, rfl, ?_⟩
  exact (suspended_hooks_once (by decide) hok rfl).2 (by decide) 1 (by decide) (by decide)

/--
Two overlapping calls both fire; an approval before the second look leaves the suspension without
hooks; and nothing fires at the root of a job whose creator does not look.
-/
theorem suspended_hooks_twice_or_never :
    (∃ t, exec SuspendedStep.act (.created { signOffRow with status := .pending } true)
        [.read 0, .finish 0, .cascade 10 (.promote "sign-off"), .begin, .begin, .read 1, .read 2,
          .suspend 1 11, .suspend 2 12, .finish 1, .finish 2] = some t ∧
      t.entries = 1 ∧ t.fired = [1, 1]) ∧
    (∃ t, exec SuspendedStep.act (.created { signOffRow with status := .pending } true)
        [.read 0, .finish 0, .cascade 10 (.promote "sign-off"), .begin, .read 1, .suspend 1 11,
          .write 12 .running (.approveStep "sign-off" none), .finish 1] = some t ∧
      t.entries = 1 ∧ t.fired = []) ∧
    ∃ t, exec SuspendedStep.act (.created signOffRow false)
        [.read 0, .suspend 0 10, .finish 0, .begin, .read 1, .finish 1] = some t ∧
      t.entries = 1 ∧ t.row.status = .suspended ∧ t.fired = [] := by
  refine ⟨⟨_, rfl, rfl, ?_⟩, ⟨_, rfl, rfl, ?_⟩, ⟨_, rfl, rfl, ?_, ?_⟩⟩ <;> decide

end Stroem.Engine
