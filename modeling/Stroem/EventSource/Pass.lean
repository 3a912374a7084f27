import Stroem.EventSource
import Mathlib.Data.List.Perm.Basic

/-!
# What one pass does to one source

Sources have different ids, so what a pass does to a source depends on that source's rows alone:
on its active jobs if it has any, else on its recently finished ones.
-/

namespace Stroem.EventSource

variable {desired : List DesiredEventSource} {des : DesiredEventSource}
  {jobs : List EventSourceJobRow}

/-! ## The creations of one source -/

def startsOf (des : DesiredEventSource) (rows : List EventSourceJobRow) (dbNow : Time)
    (utcNow : EventSourceJobRow → Time) : List Nat :=
  match activeOf rows des.sourceId, endedOf rows dbNow des.sourceId with
  | [], [] => [0]
  | [], ended => ended.filterMap fun row => due des (utcNow row) row
  | jobs, _ => if jobs.any fun row => row.fingerprint == des.fingerprint then [] else [0]

theorem flatMap_of_nodup_map {α β κ : Type*} {key : α → κ} {f : α → List β} {l : List α} {x : α}
    (hnodup : (l.map key).Nodup) (hx : x ∈ l) (hf : ∀ y ∈ l, key y ≠ key x → f y = []) :
    l.flatMap f = f x := by
  induction l with
  | nil => cases hx
  | cons a l ih =>
    obtain ⟨hnot, hnodup⟩ := List.nodup_cons.mp hnodup
    rw [List.flatMap_cons]
    obtain rfl | hx := List.mem_cons.mp hx
    · have hrest : l.flatMap f = [] := by
        refine List.flatMap_eq_nil_iff.mpr fun y hy => hf y (List.mem_cons_of_mem _ hy) ?_
        intro heq
        exact hnot (List.mem_map.mpr ⟨y, hy, heq⟩)
      rw [hrest, List.append_nil]
    · have hne : key a ≠ key x := by
        intro heq
        exact hnot (List.mem_map.mpr ⟨x, hx, heq.symm⟩)
      rw [hf a List.mem_cons_self hne, List.nil_append]
      exact ih hnodup hx fun y hy => hf y (List.mem_cons_of_mem _ hy)

theorem find?_sourceId
    (hids : (desired.map (·.sourceId)).Nodup) (hdes : des ∈ desired) :
    (desired.find? fun d => d.sourceId == des.sourceId) = some des := by
  cases hfind : desired.find? fun d => d.sourceId == des.sourceId with
  | none =>
    have := List.find?_eq_none.mp hfind des hdes
    simp at this
  | some d =>
    have hid : d.sourceId = des.sourceId := by simpa using List.find?_some hfind
    rw [List.inj_on_of_nodup_map hids (List.mem_of_find?_eq_some hfind) hdes hid]

theorem keepIdx_of_any {fingerprint : String}
    (h : (jobs.any fun row => row.fingerprint == fingerprint) = true) :
    ∃ kept, jobs[keepIdx fingerprint jobs]? = some kept ∧ kept.fingerprint = fingerprint := by
  unfold keepIdx
  cases hfind : jobs.findIdx? fun row => row.fingerprint == fingerprint with
  | none =>
    obtain ⟨row, hrow, heq⟩ := List.any_eq_true.mp h
    have := List.findIdx?_eq_none_iff.mp hfind row hrow
    rw [heq] at this
    cases this
  | some k =>
    obtain ⟨hlt, hk, -⟩ := List.findIdx?_eq_some_iff_getElem.mp hfind
    exact ⟨jobs[k], by simp [hlt], by simpa using hk⟩

theorem keepIdx_of_none {fingerprint : String}
    (h : (jobs.any fun row => row.fingerprint == fingerprint) = false) :
    keepIdx fingerprint jobs = 0 := by
  have hfind : (jobs.findIdx? fun row => row.fingerprint == fingerprint) = none := by
    refine List.findIdx?_eq_none_iff.mpr fun row hrow => ?_
    exact (List.any_eq_false.mp h) row hrow |> Bool.eq_false_iff.mpr
  simp [keepIdx, hfind]

theorem creations_cancels (sourceId : String) (jobs : List EventSourceJobRow) :
    creations sourceId (jobs.map fun row => Effect.cancel row.jobId) = [] := by
  induction jobs with
  | nil => rfl
  | cons row jobs ih => exact ih

theorem creations_replace (des : DesiredEventSource)
    (hjobs : jobs ≠ []) :
    creations des.sourceId (replace des jobs) =
      if jobs.any fun row => row.fingerprint == des.fingerprint then [] else [0] := by
  have hcancels := creations_cancels des.sourceId (jobs.eraseIdx (keepIdx des.fingerprint jobs))
  unfold replace
  rw [creations, List.filterMap_append, ← creations, hcancels, List.nil_append]
  cases hany : jobs.any fun row => row.fingerprint == des.fingerprint with
  | true =>
    obtain ⟨kept, hkept, hfp⟩ := keepIdx_of_any hany
    simp [hkept, hfp, replaceKept]
  | false =>
    obtain ⟨kept, rest, rfl⟩ := List.exists_cons_of_ne_nil hjobs
    rw [keepIdx_of_none hany]
    have hfp : (kept.fingerprint == des.fingerprint) = false := by
      simp only [List.any_cons, Bool.or_eq_false_iff] at hany
      exact hany.1
    simp [hfp, replaceKept, Effect.created, List.filterMap_cons]

theorem creations_ensureJob_other {des' : DesiredEventSource}
    (hne : des'.sourceId ≠ des.sourceId) (rows terminal : List EventSourceJobRow) :
    creations des.sourceId (ensureJob rows terminal des') = [] := by
  unfold ensureJob
  split
  · split
    · rfl
    · simp [creations, Effect.created, hne]
  · unfold replace
    rw [creations, List.filterMap_append, ← creations, creations_cancels, List.nil_append]
    unfold replaceKept
    split
    · split
      · rfl
      · simp [Effect.created, hne]
    · rfl

theorem creations_restarts
    (hids : (desired.map (·.sourceId)).Nodup) (hdes : des ∈ desired)
    (rows : List EventSourceJobRow) (dbNow : Time) (utcNow : EventSourceJobRow → Time) :
    creations des.sourceId (((loadTerminal rows dbNow).filterMap
      (restart desired rows utcNow)).map fun (d, failures) => .create d failures) =
        if (activeOf rows des.sourceId).isEmpty then
          (endedOf rows dbNow des.sourceId).filterMap fun row => due des (utcNow row) row
        else [] := by
  unfold creations endedOf
  rw [List.filterMap_map, List.filterMap_filterMap]
  induction loadTerminal rows dbNow with
  | nil => simp
  | cons row terminal ih =>
    by_cases hsource : row.source = des.sourceId
    · have hfound := find?_sourceId hids hdes
      by_cases hactive : (activeOf rows des.sourceId).isEmpty
      · rw [if_pos hactive] at ih ⊢
        rw [List.filter_cons_of_pos (by simpa using hsource), List.filterMap_cons,
          List.filterMap_cons, ih]
        simp only [restart, hsource, hactive, if_true, hfound, Option.bind_some]
        cases due des (utcNow row) row <;> simp [Effect.created]
      · rw [if_neg hactive] at ih ⊢
        rw [List.filterMap_cons, ih]
        simp [restart, hsource, hactive]
    · rw [List.filter_cons_of_neg (by simpa using hsource), List.filterMap_cons, ih]
      have hnone : ((restart desired rows utcNow row).bind fun p =>
          Effect.created des.sourceId (.create p.1 p.2)) = none := by
        unfold restart
        split
        · cases hfind : desired.find? fun d => d.sourceId == row.source with
          | none => rfl
          | some d =>
            have hid : d.sourceId = row.source := by simpa using List.find?_some hfind
            have hne : d.sourceId ≠ des.sourceId := by rw [hid]; exact hsource
            cases due d (utcNow row) row <;> simp [Effect.created, hne]
        · rfl
      simp only [Function.comp_def] at hnone ⊢
      rw [hnone]

theorem creations_reconcile
    (hids : (desired.map (·.sourceId)).Nodup) (hdes : des ∈ desired)
    (rows : List EventSourceJobRow) (dbNow : Time) (utcNow : EventSourceJobRow → Time) :
    creations des.sourceId (reconcile desired rows dbNow utcNow) =
      startsOf des rows dbNow utcNow := by
  have hstep3 : creations des.sourceId
      (desired.flatMap (ensureJob rows (loadTerminal rows dbNow))) =
        creations des.sourceId (ensureJob rows (loadTerminal rows dbNow) des) := by
    unfold creations
    rw [List.filterMap_flatMap]
    exact flatMap_of_nodup_map hids hdes fun d _ hne => creations_ensureJob_other hne _ _
  have hstep5 := creations_restarts hids hdes rows dbNow utcNow
  have hstep4 : creations des.sourceId (stopRemoved desired rows) = [] :=
    creations_cancels des.sourceId _
  have hended : (loadTerminal rows dbNow).any (fun row => row.source == des.sourceId) =
      !(endedOf rows dbNow des.sourceId).isEmpty := by
    unfold endedOf
    induction loadTerminal rows dbNow with
    | nil => rfl
    | cons row terminal ih =>
      cases hsource : row.source == des.sourceId with
      | true => simp [hsource]
      | false => simpa [hsource] using ih
  unfold reconcile
  rw [creations, List.filterMap_append, List.filterMap_append, ← creations, ← creations,
    ← creations, hstep3, hstep4, hstep5, List.append_nil]
  unfold ensureJob startsOf
  cases hactive : activeOf rows des.sourceId with
  | nil =>
    cases hlist : endedOf rows dbNow des.sourceId with
    | nil => simp [hended, hlist, creations, Effect.created]
    | cons row ended => simp [hended, hlist, creations]
  | cons job jobs =>
    simp only [List.isEmpty_cons, Bool.false_eq_true, if_false, List.append_nil]
    exact creations_replace des (by simp)

/-! ## The cancellations -/

theorem mem_cancelled_replace
    {jobId : Uuid} :
    jobId ∈ cancelled (replace des jobs) ↔
      ∃ (i : Nat) (row : EventSourceJobRow), jobs[i]? = some row ∧ row.jobId = jobId ∧
        (i ≠ keepIdx des.fingerprint jobs ∨ row.fingerprint ≠ des.fingerprint) := by
  have hdups : ∀ l : List EventSourceJobRow,
      cancelled (l.map fun row => Effect.cancel row.jobId) = l.map (·.jobId) := by
    intro l
    induction l with
    | nil => rfl
    | cons row l ih => simpa [cancelled, Effect.cancelled] using ih
  have hkept : jobId ∈ cancelled (replaceKept des jobs[keepIdx des.fingerprint jobs]?) ↔
      ∃ row, jobs[keepIdx des.fingerprint jobs]? = some row ∧ row.jobId = jobId ∧
        row.fingerprint ≠ des.fingerprint := by
    cases hrow : jobs[keepIdx des.fingerprint jobs]? with
    | none => simp [cancelled, replaceKept]
    | some row =>
      by_cases hfp : row.fingerprint = des.fingerprint
      · simp [hfp, cancelled, replaceKept]
      · have hid : jobId ∈ cancelled (replaceKept des (some row)) ↔ row.jobId = jobId := by
          simp only [replaceKept, beq_iff_eq, if_neg hfp]
          exact ⟨fun h => (List.mem_singleton.mp h).symm, fun h => by simp [cancelled, h,
            Effect.cancelled]⟩
        rw [hid]
        constructor
        · rintro rfl
          exact ⟨row, rfl, rfl, hfp⟩
        · rintro ⟨row', hrow', rfl, -⟩
          rw [Option.some.inj hrow']
  unfold replace
  rw [cancelled, List.filterMap_append, ← cancelled, ← cancelled, List.mem_append, hdups,
    hkept, List.mem_map]
  simp only [List.mem_eraseIdx_iff_getElem?]
  constructor
  · rintro (⟨row, ⟨i, hne, hrow⟩, hid⟩ | ⟨row, hrow, hid, hfp⟩)
    · exact ⟨i, row, hrow, hid, .inl hne⟩
    · exact ⟨_, row, hrow, hid, .inr hfp⟩
  · rintro ⟨i, row, hrow, hid, hne | hfp⟩
    · exact .inl ⟨row, ⟨i, hne, hrow⟩, hid⟩
    · by_cases hi : i = keepIdx des.fingerprint jobs
      · subst hi
        exact .inr ⟨row, hrow, hid, hfp⟩
      · exact .inl ⟨row, ⟨i, hi, hrow⟩, hid⟩

theorem cancelled_creates (starts : List (DesiredEventSource × Nat)) :
    cancelled (starts.map fun (d, failures) => .create d failures) = [] := by
  induction starts with
  | nil => rfl
  | cons start starts ih => exact ih

variable {rows : List EventSourceJobRow} {utcNow : EventSourceJobRow → Time}

theorem mem_cancelled_reconcile {dbNow : Time} {jobId : Uuid} :
    jobId ∈ cancelled (reconcile desired rows dbNow utcNow) ↔
      (∃ des ∈ desired, jobId ∈ cancelled (replace des (activeOf rows des.sourceId))) ∨
        ∃ row ∈ rows, row.isActive = true ∧ row.jobId = jobId ∧
          row.source ∉ desired.map (·.sourceId) := by
  have hensure : ∀ des, cancelled (ensureJob rows (loadTerminal rows dbNow) des) =
      cancelled (replace des (activeOf rows des.sourceId)) := by
    intro des
    unfold ensureJob
    cases activeOf rows des.sourceId with
    | nil =>
      simp only
      split <;> simp [replace, replaceKept, cancelled, Effect.cancelled, List.filterMap_cons]
    | cons job jobs => rfl
  have hrestarts := cancelled_creates ((loadTerminal rows dbNow).filterMap
    (restart desired rows utcNow))
  unfold reconcile
  rw [cancelled, List.filterMap_append, List.filterMap_append, ← cancelled, ← cancelled,
    ← cancelled, hrestarts, List.append_nil, List.mem_append]
  refine or_congr ?_ ?_
  · rw [cancelled, List.filterMap_flatMap, List.mem_flatMap]
    refine exists_congr fun des => and_congr_right fun _ => ?_
    rw [← cancelled, hensure]
  · simp only [cancelled, stopRemoved, List.mem_filterMap, List.mem_map, List.mem_filter,
      Bool.and_eq_true, Bool.not_eq_true', List.contains_eq_mem, decide_eq_false_iff_not]
    constructor
    · rintro ⟨effect, ⟨row, ⟨hrow, hactive, hnot⟩, rfl⟩, hid⟩
      exact ⟨row, hrow, hactive, by simpa [Effect.cancelled] using hid, hnot⟩
    · rintro ⟨row, hrow, hactive, rfl, hnot⟩
      exact ⟨.cancel row.jobId, ⟨row, ⟨hrow, hactive, hnot⟩, rfl⟩, rfl⟩

/-! ## One job per source -/

theorem filter_length_le_one {α : Type*} {l : List α} {p : α → Bool} {k : Nat}
    (h : ∀ (i : Nat) (a : α), l[i]? = some a → i ≠ k → p a = false) :
    (l.filter p).length ≤ 1 := by
  by_cases hk : k < l.length
  · have hrest : (l.eraseIdx k).filter p = [] := by
      refine List.filter_eq_nil_iff.mpr fun a ha => ?_
      obtain ⟨i, hne, hi⟩ := List.mem_eraseIdx_iff_getElem?.mp ha
      simp [h i a hi hne]
    have hperm := (List.getElem_cons_eraseIdx_perm hk).filter p
    rw [← hperm.length_eq, List.filter_cons, hrest]
    split <;> simp
  · have hnil : l.filter p = [] := by
      refine List.filter_eq_nil_iff.mpr fun a ha => ?_
      obtain ⟨i, hi⟩ := List.mem_iff_getElem?.mp ha
      have hlt := (List.getElem?_eq_some_iff.mp hi).1
      simp [h i a hi (by omega)]
    simp [hnil]

def insertedFor (ids : Nat → Option Uuid) (now : Time) (effects : List Effect)
    (sourceId : String) : List EventSourceJobRow :=
  (inserted ids now effects).filter fun row => row.source == sourceId

theorem creations_eq (sourceId : String) (effects : List Effect) :
    creations sourceId effects = ((effects.filterMap Effect.create?).filter
      fun start => start.1.sourceId == sourceId).map Prod.snd := by
  induction effects with
  | nil => rfl
  | cons effect effects ih =>
    cases effect with
    | cancel jobId => exact ih
    | create des failures =>
      rw [creations] at ih ⊢
      by_cases hsource : des.sourceId = sourceId
      · simp [Effect.created, Effect.create?, hsource, ih]
      · simp [Effect.created, Effect.create?, hsource, ih]

private theorem starts_inserted (ids : Nat → Option Uuid) (now : Time) (sourceId : String)
    (starts : List (DesiredEventSource × Nat)) (n : Nat) :
    (((starts.zipIdx n).filterMap (insertRow ids now)).filter
        fun row => row.source == sourceId).length ≤
      (starts.filter fun start => start.1.sourceId == sourceId).length ∧
    ((∀ k, (ids k).isSome) →
      (((starts.zipIdx n).filterMap (insertRow ids now)).filter
          fun row => row.source == sourceId).length =
        (starts.filter fun start => start.1.sourceId == sourceId).length) := by
  induction starts generalizing n with
  | nil => simp
  | cons start starts ih =>
    obtain ⟨hle, heq⟩ := ih (n + 1)
    rw [List.zipIdx_cons]
    cases hid : ids n with
    | none =>
      have hrow : insertRow ids now (start, n) = none := by simp [insertRow, hid]
      rw [List.filterMap_cons_none hrow]
      refine ⟨Nat.le_trans hle ?_, fun hall => ?_⟩
      · rw [List.filter_cons]
        split <;> simp
      · have := hall n
        rw [hid] at this
        cases this
    | some jobId =>
      have hrow : insertRow ids now (start, n) = some (jobRow jobId now start.1 start.2) := by
        simp [insertRow, hid]
      have hsource : (jobRow jobId now start.1 start.2).source = start.1.sourceId := rfl
      rw [List.filterMap_cons_some hrow, List.filter_cons, List.filter_cons, hsource]
      split
      · simp only [List.length_cons]
        exact ⟨Nat.succ_le_succ hle, fun hall => congrArg Nat.succ (heq hall)⟩
      · exact ⟨hle, heq⟩

theorem insertedFor_length_le (ids : Nat → Option Uuid) (now : Time) (effects : List Effect)
    (sourceId : String) :
    (insertedFor ids now effects sourceId).length ≤ (creations sourceId effects).length := by
  rw [creations_eq, List.length_map]
  exact (starts_inserted ids now sourceId _ 0).1

theorem insertedFor_length {ids : Nat → Option Uuid} (hids : ∀ k, (ids k).isSome) (now : Time)
    (effects : List Effect) (sourceId : String) :
    (insertedFor ids now effects sourceId).length = (creations sourceId effects).length := by
  rw [creations_eq, List.length_map]
  exact (starts_inserted ids now sourceId _ 0).2 hids

structure OneJob (desired : List DesiredEventSource) (rows : List EventSourceJobRow)
    (dbNow : Time) (utcNow : EventSourceJobRow → Time) (ids : Nat → Option Uuid) (now : Time)
    (des : DesiredEventSource) : Prop where
  created : (insertedFor ids now (reconcile desired rows dbNow utcNow) des.sourceId).length ≤ 1
  kept : (∃ row ∈ activeOf rows des.sourceId, row.fingerprint = des.fingerprint) →
    insertedFor ids now (reconcile desired rows dbNow utcNow) des.sourceId = []
  active : (activeOf (after ids now (reconcile desired rows dbNow utcNow) rows)
    des.sourceId).length ≤ 1
  waited : ∀ row ∈ loadTerminal rows dbNow, ∀ failures,
    restart desired rows utcNow row = some (des, failures) →
      ∀ newest ∈ (endedOf rows dbNow des.sourceId).head?,
        backedOff des.backoffSecs (utcNow row) newest = true

/-- A source without an active job has at most one recently finished job that is due for a
restart, and if one is, the back-off of the newest of them has passed. -/
def AtMostOneDue (rows : List EventSourceJobRow) (dbNow : Time)
    (utcNow : EventSourceJobRow → Time) (des : DesiredEventSource) : Prop :=
  activeOf rows des.sourceId = [] →
    ((endedOf rows dbNow des.sourceId).filter
      fun row => (due des (utcNow row) row).isSome).length ≤ 1 ∧
    ∀ row ∈ endedOf rows dbNow des.sourceId, (due des (utcNow row) row).isSome →
      ∀ newest ∈ (endedOf rows dbNow des.sourceId).head?,
        backedOff des.backoffSecs (utcNow row) newest = true

instance (rows : List EventSourceJobRow) (dbNow : Time) (utcNow : EventSourceJobRow → Time)
    (des : DesiredEventSource) : Decidable (AtMostOneDue rows dbNow utcNow des) :=
  inferInstanceAs (Decidable (_ → _ ∧ _))

theorem activeOf_after (ids : Nat → Option Uuid) (now : Time) (effects : List Effect)
    (rows : List EventSourceJobRow) (sourceId : String) :
    (activeOf (after ids now effects rows) sourceId).length ≤
      ((activeOf rows sourceId).filter
        fun row => !(cancelled effects).contains row.jobId).length +
      (insertedFor ids now effects sourceId).length := by
  unfold activeOf after insertedFor
  rw [List.filter_append, List.length_append]
  refine Nat.add_le_add ?_ ?_
  · induction rows with
    | nil => simp
    | cons row rows ih =>
      rw [List.map_cons, List.filter_cons, List.filter_cons]
      by_cases hcancel : ((cancelled effects).contains row.jobId && !row.status.isTerminal)
      · have hdead : EventSourceJobRow.isActive
            { row with status := .cancelled, completedAt := some now } = false := by
          simp [EventSourceJobRow.isActive, JobStatus.isTerminal]
        rw [if_pos hcancel, hdead]
        simp only [Bool.false_and, Bool.false_eq_true, if_false]
        refine Nat.le_trans ih ?_
        split
        · rw [List.filter_cons]
          split <;> simp
        · exact Nat.le_refl _
      · rw [if_neg hcancel]
        split
        case isTrue hactive =>
          have hlive : (cancelled effects).contains row.jobId = false := by
            simp only [EventSourceJobRow.isActive, Bool.and_eq_true] at hactive
            simpa [hactive.1.2] using hcancel
          rw [List.filter_cons_of_pos (by simpa using hlive)]
          exact Nat.succ_le_succ ih
        case isFalse => exact ih
  · refine List.Sublist.length_le ?_
    refine List.monotone_filter_right _ fun row hrow => ?_
    simp only [Bool.and_eq_true] at hrow
    exact hrow.2

theorem active_kept
    (hdes : des ∈ desired) (rows : List EventSourceJobRow) (dbNow : Time)
    (utcNow : EventSourceJobRow → Time) :
    ((activeOf rows des.sourceId).filter fun row =>
      !(cancelled (reconcile desired rows dbNow utcNow)).contains row.jobId).length ≤ 1 ∧
    ((activeOf rows des.sourceId).any (fun row => row.fingerprint == des.fingerprint) = false →
      (activeOf rows des.sourceId).filter (fun row =>
        !(cancelled (reconcile desired rows dbNow utcNow)).contains row.jobId) = []) := by
  have hgone : ∀ (i : Nat) (row : EventSourceJobRow),
      (activeOf rows des.sourceId)[i]? = some row →
      i ≠ keepIdx des.fingerprint (activeOf rows des.sourceId) ∨
        row.fingerprint ≠ des.fingerprint →
      (!(cancelled (reconcile desired rows dbNow utcNow)).contains row.jobId) = false := by
    intro i row hrow hor
    have hmem : row.jobId ∈ cancelled (reconcile desired rows dbNow utcNow) :=
      mem_cancelled_reconcile.mpr
        (.inl ⟨des, hdes, mem_cancelled_replace.mpr ⟨i, row, hrow, rfl, hor⟩⟩)
    simpa using hmem
  refine ⟨filter_length_le_one fun i row hrow hne => hgone i row hrow (.inl hne), fun hnone => ?_⟩
  refine List.filter_eq_nil_iff.mpr fun row hrow => ?_
  obtain ⟨i, hi⟩ := List.mem_iff_getElem?.mp hrow
  have hfp : row.fingerprint ≠ des.fingerprint := by
    have := List.any_eq_false.mp hnone row hrow
    simpa using this
  simpa using hgone i row hi (.inr hfp)

theorem filterMap_length {α β : Type*} (f : α → Option β) (l : List α) :
    (l.filterMap f).length = (l.filter fun a => (f a).isSome).length := by
  rw [List.length_filterMap_eq_countP, List.countP_eq_length_filter]

theorem startsOf_active {dbNow : Time} (h : activeOf rows des.sourceId ≠ []) :
    startsOf des rows dbNow utcNow =
      if (activeOf rows des.sourceId).any fun row => row.fingerprint == des.fingerprint then []
      else [0] := by
  unfold startsOf
  cases hactive : activeOf rows des.sourceId with
  | nil => exact absurd hactive h
  | cons job jobs => rfl

theorem restart_eq_some (hids : (desired.map (·.sourceId)).Nodup) (hdes : des ∈ desired)
    {row : EventSourceJobRow} {failures : Nat} :
    restart desired rows utcNow row = some (des, failures) ↔
      row.source = des.sourceId ∧ activeOf rows des.sourceId = [] ∧
        due des (utcNow row) row = some failures := by
  have hfound := find?_sourceId hids hdes
  unfold restart
  constructor
  · intro h
    split at h
    case isTrue hidle =>
      obtain ⟨d, hfind, hd⟩ := Option.bind_eq_some_iff.mp h
      obtain ⟨n, hdue, heq⟩ := Option.map_eq_some_iff.mp hd
      obtain ⟨rfl, rfl⟩ := Prod.mk.inj heq
      have hid : d.sourceId = row.source := by simpa using List.find?_some hfind
      exact ⟨hid.symm, by simpa [hid] using hidle, hdue⟩
    case isFalse => cases h
  · rintro ⟨hsource, hidle, hdue⟩
    rw [hsource, hidle, hfound]
    simp [hdue]

/-- One pass keeps one job per source, whatever becomes of its creations, exactly when every
idle source has at most one finished job that is due. -/
theorem reconcile_one_job {desired : List DesiredEventSource}
    (hids : (desired.map (·.sourceId)).Nodup) (rows : List EventSourceJobRow) (dbNow : Time)
    (utcNow : EventSourceJobRow → Time) :
    (∀ ids now, ∀ des ∈ desired, OneJob desired rows dbNow utcNow ids now des) ↔
      ∀ des ∈ desired, AtMostOneDue rows dbNow utcNow des := by
  constructor
  · intro h des hdes hidle
    have hone := h (fun k => some k) 0 des hdes
    refine ⟨?_, fun row hrow hdue newest hnewest => ?_⟩
    · have hcreated := hone.created
      rw [insertedFor_length (by simp), creations_reconcile hids hdes] at hcreated
      rw [← filterMap_length]
      unfold startsOf at hcreated
      rw [hidle] at hcreated
      cases hended : endedOf rows dbNow des.sourceId with
      | nil => simp
      | cons row ended => simpa [hended] using hcreated
    · obtain ⟨failures, hfailures⟩ := Option.isSome_iff_exists.mp hdue
      obtain ⟨hmem, hsource⟩ := List.mem_filter.mp hrow
      refine hone.waited row hmem failures ?_ newest hnewest
      exact (restart_eq_some hids hdes).mpr ⟨by simpa using hsource, hidle, hfailures⟩
  · intro h ids now des hdes
    have hstarts : (startsOf des rows dbNow utcNow).length ≤ 1 := by
      by_cases hidle : activeOf rows des.sourceId = []
      · unfold startsOf
        rw [hidle]
        cases hended : endedOf rows dbNow des.sourceId with
        | nil => simp
        | cons row ended =>
          have hfew := (h des hdes hidle).1
          rw [hended, ← filterMap_length] at hfew
          exact hfew
      · rw [startsOf_active hidle]
        split <;> simp
    have hinserted : (insertedFor ids now (reconcile desired rows dbNow utcNow)
        des.sourceId).length ≤ (startsOf des rows dbNow utcNow).length := by
      rw [← creations_reconcile hids hdes]
      exact insertedFor_length_le ids now _ _
    obtain ⟨hleft, hnone⟩ := active_kept hdes rows dbNow utcNow
    have hafter := activeOf_after ids now (reconcile desired rows dbNow utcNow) rows des.sourceId
    refine ⟨Nat.le_trans hinserted hstarts, ?_, ?_, ?_⟩
    · rintro ⟨row, hrow, hfp⟩
      have hany : (activeOf rows des.sourceId).any
          (fun row => row.fingerprint == des.fingerprint) = true :=
        List.any_eq_true.mpr ⟨row, hrow, by simpa using hfp⟩
      rw [startsOf_active (List.ne_nil_of_mem hrow), if_pos hany] at hinserted
      exact List.length_eq_zero_iff.mp (Nat.le_zero.mp hinserted)
    · refine Nat.le_trans hafter ?_
      by_cases hidle : activeOf rows des.sourceId = []
      · rw [hidle]
        simpa using Nat.le_trans hinserted hstarts
      · rw [startsOf_active hidle] at hinserted
        cases hany : (activeOf rows des.sourceId).any
            fun row => row.fingerprint == des.fingerprint with
        | true =>
          rw [if_pos hany] at hinserted
          simp only [List.length_nil] at hinserted
          omega
        | false =>
          rw [hnone hany, List.length_nil, Nat.zero_add]
          exact Nat.le_trans hinserted (by rw [hany]; simp)
    · intro row hrow failures hrestart newest hnewest
      obtain ⟨hsource, hidle, hdue⟩ := (restart_eq_some hids hdes).mp hrestart
      refine (h des hdes hidle).2 row ?_ (by simp [hdue]) newest hnewest
      exact List.mem_filter.mpr ⟨hrow, by simpa using hsource⟩

/-! ### A queue that failed twice -/

def queue : DesiredEventSource where
  workspace := "w"
  triggerName := "q"
  task := "consume"
  targetTask := "handle"
  fingerprint := "f"

def ranFrom (jobId : Uuid) (status : JobStatus) (started ended : Nat) : EventSourceJobRow where
  jobId := jobId
  sourceId := some queue.sourceId
  input := some (jobInput queue 0)
  status := status
  createdAt := started * 1000000000
  completedAt := some (ended * 1000000000)

theorem two_failures_restart_twice :
    ¬ OneJob [queue] [ranFrom 1 .failed 0 10, ranFrom 2 .failed 40 50] (80 * 1000000000)
      (fun _ => 80 * 1000000000) some (80 * 1000000000) queue := by
  intro h
  have hlength : (insertedFor some (80 * 1000000000)
      (reconcile [queue] [ranFrom 1 .failed 0 10, ranFrom 2 .failed 40 50] (80 * 1000000000)
        (fun _ => 80 * 1000000000)) queue.sourceId).length = 2 := by
    decide +kernel
  have hone := h.created
  rw [hlength] at hone
  exact absurd hone (by decide)

theorem reconcile_one_job_afterOneFailure :
    (∀ des ∈ [queue], AtMostOneDue [ranFrom 1 .failed 0 10] (80 * 1000000000)
        (fun _ => 80 * 1000000000) des) ∧
      ∀ ids now, ∀ des ∈ [queue], OneJob [queue] [ranFrom 1 .failed 0 10] (80 * 1000000000)
        (fun _ => 80 * 1000000000) ids now des := by
  have hdue : ∀ des ∈ [queue], AtMostOneDue [ranFrom 1 .failed 0 10] (80 * 1000000000)
      (fun _ => 80 * 1000000000) des := by decide +kernel
  exact ⟨hdue, (reconcile_one_job (by decide) [ranFrom 1 .failed 0 10] (80 * 1000000000)
    (fun _ => 80 * 1000000000)).mpr hdue⟩

end Stroem.EventSource
