import Stroem.EventSource.Pass

/-!
# Emitted jobs in a pass

A job that `emit_event` creates has the source type and the source id of its consumer, and the
pass reads both kinds of rows alike.  What the emitted jobs change is compared here with the
pass over the consumer jobs alone.
-/

namespace Stroem.EventSource

variable {des : DesiredEventSource} {rows : List EventSourceJobRow} {row : EventSourceJobRow}
  {desired : List DesiredEventSource} {emitted : EventSourceJobRow → Bool}
  {utcNow : EventSourceJobRow → Time}

theorem activeOf_filter (p : EventSourceJobRow → Bool) (rows : List EventSourceJobRow)
    (sourceId : String) :
    activeOf (rows.filter p) sourceId = (activeOf rows sourceId).filter p := by
  unfold activeOf
  rw [List.filter_filter, List.filter_filter]
  refine List.filter_congr fun row _ => ?_
  rw [Bool.and_comm]

def endedRows (rows : List EventSourceJobRow) (dbNow : Time) (sourceId : String) :
    List EventSourceJobRow :=
  rows.filter fun row => row.isRecentlyEnded dbNow && row.source == sourceId

theorem endedOf_perm (rows : List EventSourceJobRow) (dbNow : Time) (sourceId : String) :
    (endedOf rows dbNow sourceId).Perm (endedRows rows dbNow sourceId) := by
  have hsort := (List.perm_insertionSort (fun a b : EventSourceJobRow => b.createdAt ≤ a.createdAt)
    (rows.filter (·.isRecentlyEnded dbNow))).filter fun row => row.source == sourceId
  refine hsort.trans (List.Perm.of_eq ?_)
  rw [List.filter_filter]
  refine List.filter_congr fun row _ => ?_
  rw [Bool.and_comm]

theorem endedRows_split (p : EventSourceJobRow → Bool) (rows : List EventSourceJobRow)
    (dbNow : Time) (sourceId : String) :
    (endedRows rows dbNow sourceId).Perm
      (endedRows (rows.filter fun row => !p row) dbNow sourceId ++
      endedRows (rows.filter p) dbNow sourceId) := by
  have hsplit := (List.filter_append_perm p rows).symm.trans List.perm_append_comm
  have := hsplit.filter fun row => row.isRecentlyEnded dbNow && row.source == sourceId
  rwa [List.filter_append] at this

def dues (des : DesiredEventSource) (utcNow : EventSourceJobRow → Time)
    (rows : List EventSourceJobRow) : List Nat :=
  rows.filterMap fun row => due des (utcNow row) row

theorem startsOf_idle (dbNow : Time)
    (utcNow : EventSourceJobRow → Time) (hidle : activeOf rows des.sourceId = []) :
    (startsOf des rows dbNow utcNow).Perm
      (if endedRows rows dbNow des.sourceId = [] then [0]
       else dues des utcNow (endedRows rows dbNow des.sourceId)) := by
  have hperm := endedOf_perm rows dbNow des.sourceId
  unfold startsOf
  rw [hidle]
  cases hended : endedOf rows dbNow des.sourceId with
  | nil =>
    rw [hended] at hperm
    rw [if_pos (List.nil_perm.mp hperm)]
  | cons row ended =>
    rw [hended] at hperm
    rw [if_neg fun hnil => by rw [hnil] at hperm; cases hperm.eq_nil]
    exact hperm.filterMap _

theorem find?_eq_kept {fingerprint : String} {jobs : List EventSourceJobRow} :
    jobs.find? (fun r => r.fingerprint == fingerprint) = some row ↔
      jobs[keepIdx fingerprint jobs]? = some row ∧ row.fingerprint = fingerprint := by
  constructor
  · intro hfind
    have hfp : row.fingerprint = fingerprint := by simpa using List.find?_some hfind
    refine ⟨?_, hfp⟩
    obtain ⟨-, i, hlt, hi, hbefore⟩ := List.find?_eq_some_iff_getElem.mp hfind
    have hidx : (jobs.findIdx? fun r => r.fingerprint == fingerprint) = some i := by
      refine List.findIdx?_eq_some_iff_getElem.mpr ⟨hlt, by rw [hi]; simpa using hfp, ?_⟩
      intro j hj
      simpa using hbefore j hj
    simp [keepIdx, hidx, hlt, hi]
  · rintro ⟨hkeep, hfp⟩
    have hmem : row ∈ jobs := List.mem_of_getElem? hkeep
    cases hidx : jobs.findIdx? fun r => r.fingerprint == fingerprint with
    | none =>
      have := List.findIdx?_eq_none_iff.mp hidx row hmem
      simp [hfp] at this
    | some i =>
      obtain ⟨hlt, hp, hbefore⟩ := List.findIdx?_eq_some_iff_getElem.mp hidx
      have hi : jobs[i] = row := by
        simpa [keepIdx, hidx, hlt] using hkeep
      refine List.find?_eq_some_iff_getElem.mpr ⟨by simpa using hfp, i, hlt, hi, ?_⟩
      intro j hj
      simpa using hbefore j hj

theorem jobId_inj (hkeys : (rows.map (·.jobId)).Nodup)
    {a b : EventSourceJobRow} (ha : a ∈ rows) (hb : b ∈ rows) (h : a.jobId = b.jobId) : a = b :=
  List.inj_on_of_nodup_map hkeys ha hb h

theorem mem_activeOf {sourceId : String} :
    row ∈ activeOf rows sourceId ↔ row ∈ rows ∧ row.isActive = true ∧ row.source = sourceId := by
  simp [activeOf, List.mem_filter]

theorem not_cancelled_iff
    (hids : (desired.map (·.sourceId)).Nodup) (hdes : des ∈ desired)
    (hkeys : (rows.map (·.jobId)).Nodup) (dbNow : Time)
    (utcNow : EventSourceJobRow → Time)
    (hrow : row ∈ activeOf rows des.sourceId) :
    row.jobId ∉ cancelled (reconcile desired rows dbNow utcNow) ↔
      (activeOf rows des.sourceId).find? (fun r => r.fingerprint == des.fingerprint) =
        some row := by
  obtain ⟨hin, -, hsource⟩ := mem_activeOf.mp hrow
  have hnodup : (activeOf rows des.sourceId).Nodup := (List.Nodup.of_map _ hkeys).filter _
  rw [find?_eq_kept, mem_cancelled_reconcile]
  constructor
  · intro hnot
    obtain ⟨i, hi⟩ := List.mem_iff_getElem?.mp hrow
    have hstays : ¬ (i ≠ keepIdx des.fingerprint (activeOf rows des.sourceId) ∨
        row.fingerprint ≠ des.fingerprint) := by
      intro hor
      exact hnot (.inl ⟨des, hdes, mem_cancelled_replace.mpr ⟨i, row, hi, rfl, hor⟩⟩)
    simp only [ne_eq, not_or, not_not] at hstays
    exact ⟨hstays.1 ▸ hi, hstays.2⟩
  · rintro ⟨hkeep, hfp⟩
    rintro (⟨des', hdes', hcancel⟩ | ⟨row', hrow', -, hid, hnot⟩)
    · obtain ⟨i, row', hi, hid, hor⟩ := mem_cancelled_replace.mp hcancel
      obtain ⟨hin', -, hsource'⟩ := mem_activeOf.mp (List.mem_of_getElem? hi)
      obtain rfl := jobId_inj hkeys hin' hin hid
      obtain rfl := List.inj_on_of_nodup_map hids hdes' hdes (hsource'.symm.trans hsource)
      obtain hne | hne := hor
      · have hlt := (List.getElem?_eq_some_iff.mp hi).1
        exact hne ((List.getElem?_inj hlt hnodup).mp (hi.trans hkeep.symm))
      · exact hne hfp
    · obtain rfl := jobId_inj hkeys hrow' hin hid
      exact hnot (List.mem_map.mpr ⟨des, hdes, hsource.symm⟩)

/-! ## What it takes for the emitted jobs to go unseen -/

/-- The pass spares the emitted jobs, and does to the consumer jobs and the sources what it does
when the emitted jobs are not there. -/
structure Unseen (emitted : EventSourceJobRow → Bool) (desired : List DesiredEventSource)
    (rows : List EventSourceJobRow) (dbNow : Time) (utcNow : EventSourceJobRow → Time) :
    Prop where
  spared : ∀ row ∈ rows, emitted row = true →
    row.jobId ∉ cancelled (reconcile desired rows dbNow utcNow)
  cancels : ∀ row ∈ rows, emitted row = false →
    (row.jobId ∈ cancelled (reconcile desired rows dbNow utcNow) ↔
      row.jobId ∈ cancelled
        (reconcile desired (rows.filter fun row => !emitted row) dbNow utcNow))
  starts : ∀ des ∈ desired,
    (creations des.sourceId (reconcile desired rows dbNow utcNow)).Perm
      (creations des.sourceId
        (reconcile desired (rows.filter fun row => !emitted row) dbNow utcNow))

/--
No emitted job of the source is active, and no recently finished one changes what is started.
-/
def QuietlyEmitted (consumers emittedRows : List EventSourceJobRow) (dbNow : Time)
    (utcNow : EventSourceJobRow → Time) (des : DesiredEventSource) : Prop :=
  activeOf emittedRows des.sourceId = [] ∧
    (activeOf consumers des.sourceId ≠ [] ∨
      (endedRows consumers dbNow des.sourceId ≠ [] ∧
        dues des utcNow (endedRows emittedRows dbNow des.sourceId) = []) ∨
      (endedRows consumers dbNow des.sourceId = [] ∧
        (endedRows emittedRows dbNow des.sourceId = [] ∨
          dues des utcNow (endedRows emittedRows dbNow des.sourceId) = [0])))

/-- The source has one active emitted job, whose input carries the source's current fingerprint,
no active consumer, and recently finished consumers none of which is due for a restart. -/
def StandsIn (consumers emittedRows : List EventSourceJobRow) (dbNow : Time)
    (utcNow : EventSourceJobRow → Time) (des : DesiredEventSource) : Prop :=
  (activeOf emittedRows des.sourceId).map (·.fingerprint) = [des.fingerprint] ∧
    activeOf consumers des.sourceId = [] ∧
    endedRows consumers dbNow des.sourceId ≠ [] ∧
    dues des utcNow (endedRows consumers dbNow des.sourceId) = []

variable {dbNow : Time}

theorem startsOf_idle_split (hidle : activeOf rows des.sourceId = []) :
    (startsOf des rows dbNow utcNow).Perm (startsOf des (rows.filter fun row => !emitted row)
        dbNow utcNow) ↔
      (endedRows (rows.filter fun row => !emitted row) dbNow des.sourceId ≠ [] ∧
        dues des utcNow (endedRows (rows.filter emitted) dbNow des.sourceId) = []) ∨
      (endedRows (rows.filter fun row => !emitted row) dbNow des.sourceId = [] ∧
        (endedRows (rows.filter emitted) dbNow des.sourceId = [] ∨
          dues des utcNow (endedRows (rows.filter emitted) dbNow des.sourceId) = [0])) := by
  have hidle' : activeOf (rows.filter fun row => !emitted row) des.sourceId = [] := by
    rw [activeOf_filter, hidle]
    rfl
  have hall := startsOf_idle dbNow utcNow hidle
  have hconsumers := startsOf_idle dbNow utcNow hidle'
  have hsplit := endedRows_split emitted rows dbNow des.sourceId
  have hdues : (dues des utcNow (endedRows rows dbNow des.sourceId)).Perm
      (dues des utcNow (endedRows (rows.filter fun row => !emitted row) dbNow des.sourceId) ++
        dues des utcNow (endedRows (rows.filter emitted) dbNow des.sourceId)) := by
    have := hsplit.filterMap fun row => due des (utcNow row) row
    rwa [List.filterMap_append] at this
  have hcong : (startsOf des rows dbNow utcNow).Perm
      (startsOf des (rows.filter fun row => !emitted row) dbNow utcNow) ↔
      (if endedRows rows dbNow des.sourceId = [] then [0]
        else dues des utcNow (endedRows rows dbNow des.sourceId)).Perm
      (if endedRows (rows.filter fun row => !emitted row) dbNow des.sourceId = [] then [0]
        else dues des utcNow
          (endedRows (rows.filter fun row => !emitted row) dbNow des.sourceId)) :=
    ⟨fun h => hall.symm.trans (h.trans hconsumers),
      fun h => hall.trans (h.trans hconsumers.symm)⟩
  rw [hcong]
  by_cases hnone : endedRows (rows.filter fun row => !emitted row) dbNow des.sourceId = []
  · rw [if_pos hnone]
    rw [hnone, List.nil_append] at hsplit
    rw [hnone] at hdues
    simp only [hnone, ne_eq, not_true_eq_false, false_and, true_and, false_or]
    by_cases hemit : endedRows (rows.filter emitted) dbNow des.sourceId = []
    · rw [hemit] at hsplit
      rw [if_pos hsplit.eq_nil]
      exact ⟨fun _ => .inl hemit, fun _ => List.Perm.refl _⟩
    · have hall : endedRows rows dbNow des.sourceId ≠ [] := by
        intro hnil
        rw [hnil] at hsplit
        exact hemit (List.nil_perm.mp hsplit)
      rw [if_neg hall]
      constructor
      · intro hperm
        exact .inr (List.perm_singleton.mp (hdues.symm.trans hperm))
      · rintro (hnil | hzero)
        · exact absurd hnil hemit
        · rw [hzero] at hdues
          exact hdues
  · have hall' : endedRows rows dbNow des.sourceId ≠ [] := by
      intro hnil
      rw [hnil] at hsplit
      exact hnone (List.append_eq_nil_iff.mp (List.nil_perm.mp hsplit)).1
    rw [if_neg hnone, if_neg hall']
    simp only [hnone, ne_eq, not_false_eq_true, true_and, false_and, or_false]
    constructor
    · intro hperm
      have hlength := (hdues.symm.trans hperm).length_eq
      rw [List.length_append] at hlength
      exact List.length_eq_zero_iff.mp (by omega)
    · intro hnil
      rw [hnil, List.append_nil] at hdues
      exact hdues

private theorem standsIn_of_unseen (hids : (desired.map (·.sourceId)).Nodup)
    (hkeys : (rows.map (·.jobId)).Nodup) (h : Unseen emitted desired rows dbNow utcNow)
    (hdes : des ∈ desired) (hrow : row ∈ activeOf rows des.sourceId) (hemit : emitted row = true) :
    StandsIn (rows.filter fun row => !emitted row) (rows.filter emitted) dbNow utcNow des := by
  have hkeys' : ((rows.filter fun row => !emitted row).map (·.jobId)).Nodup :=
    hkeys.sublist (List.filter_sublist.map _)
  have hspared : ∀ r ∈ activeOf rows des.sourceId, emitted r = true →
      (activeOf rows des.sourceId).find? (fun r => r.fingerprint == des.fingerprint) =
        some r := by
    intro r hr hemitted
    have hin := (mem_activeOf.mp hr).1
    exact (not_cancelled_iff hids hdes hkeys dbNow utcNow hr).mp (h.spared r hin hemitted)
  have hkept := hspared row hrow hemit
  have hfp : row.fingerprint = des.fingerprint := by simpa using List.find?_some hkept
  have hconsumers : (activeOf (rows.filter fun row => !emitted row) des.sourceId).find?
      (fun r => r.fingerprint == des.fingerprint) = none := by
    -- a consumer that is kept without the emitted jobs is kept beside them
    cases hfind : (activeOf (rows.filter fun row => !emitted row) des.sourceId).find?
        (fun r => r.fingerprint == des.fingerprint) with
    | none => rfl
    | some consumer =>
      exfalso
      have hmem := List.mem_of_find?_eq_some hfind
      have hactive : consumer ∈ activeOf rows des.sourceId := by
        rw [activeOf_filter] at hmem
        exact (List.mem_filter.mp hmem).1
      have hin := List.mem_filter.mp (mem_activeOf.mp hmem).1
      have hnot : emitted consumer = false := by simpa using hin.2
      have hstays := (not_cancelled_iff hids hdes hkeys' dbNow utcNow hmem).mpr hfind
      have hstays' : consumer.jobId ∉ cancelled (reconcile desired rows dbNow utcNow) :=
        fun hgone => hstays ((h.cancels consumer hin.1 hnot).mp hgone)
      have hkept' := (not_cancelled_iff hids hdes hkeys dbNow utcNow hactive).mp hstays'
      rw [hkept] at hkept'
      rw [Option.some.inj hkept', hnot] at hemit
      cases hemit
  have hnostart : startsOf des (rows.filter fun row => !emitted row) dbNow utcNow = [] := by
    have hstarts := h.starts des hdes
    have hany : (activeOf rows des.sourceId).any
        (fun r => r.fingerprint == des.fingerprint) = true :=
      List.any_eq_true.mpr ⟨row, hrow, by simpa using hfp⟩
    rw [creations_reconcile hids hdes, creations_reconcile hids hdes,
      startsOf_active (List.ne_nil_of_mem hrow), if_pos hany] at hstarts
    exact List.nil_perm.mp hstarts
  have hidle : activeOf (rows.filter fun row => !emitted row) des.sourceId = [] := by
    by_contra hactive
    have hany : (activeOf (rows.filter fun row => !emitted row) des.sourceId).any
        (fun r => r.fingerprint == des.fingerprint) = false := by
      refine List.any_eq_false.mpr fun r hr => ?_
      exact List.find?_eq_none.mp hconsumers r hr
    rw [startsOf_active hactive, hany] at hnostart
    cases hnostart
  have hidleStarts := startsOf_idle dbNow utcNow hidle
  rw [hnostart] at hidleStarts
  have hended : endedRows (rows.filter fun row => !emitted row) dbNow des.sourceId ≠ [] := by
    intro hnil
    rw [if_pos hnil] at hidleStarts
    exact absurd (List.nil_perm.mp hidleStarts) (by simp)
  rw [if_neg hended] at hidleStarts
  refine ⟨?_, hidle, hended, List.nil_perm.mp hidleStarts⟩
  have hnodup : (activeOf (rows.filter emitted) des.sourceId).Nodup :=
    (((List.Nodup.of_map _ hkeys).filter _).filter _)
  have hall : ∀ r ∈ activeOf (rows.filter emitted) des.sourceId, r = row := by
    intro r hr
    rw [activeOf_filter] at hr
    obtain ⟨hactive, hemitted⟩ := List.mem_filter.mp hr
    exact Option.some.inj ((hspared r hactive hemitted).symm.trans hkept)
  have hmem : row ∈ activeOf (rows.filter emitted) des.sourceId := by
    rw [activeOf_filter]
    exact List.mem_filter.mpr ⟨hrow, hemit⟩
  have hone : activeOf (rows.filter emitted) des.sourceId = [row] := by
    refine List.perm_singleton.mp ((List.perm_ext_iff_of_nodup hnodup (by simp)).mpr fun r => ?_)
    rw [List.mem_singleton]
    exact ⟨hall r, fun heq => heq ▸ hmem⟩
  simp [hone, hfp]

private theorem activeOf_consumers
    {sourceId : String}
    (hnone : activeOf (rows.filter emitted) sourceId = []) :
    activeOf (rows.filter fun row => !emitted row) sourceId = activeOf rows sourceId := by
  rw [activeOf_filter] at hnone ⊢
  refine List.filter_eq_self.mpr fun row hrow => ?_
  have := List.filter_eq_nil_iff.mp hnone row hrow
  simpa using this

private theorem starts_perm_iff_quiet (hnone : activeOf (rows.filter emitted) des.sourceId = []) :
    (startsOf des rows dbNow utcNow).Perm
        (startsOf des (rows.filter fun row => !emitted row) dbNow utcNow) ↔
      QuietlyEmitted (rows.filter fun row => !emitted row) (rows.filter emitted) dbNow utcNow
        des := by
  have hsame := activeOf_consumers hnone
  unfold QuietlyEmitted
  by_cases hidle : activeOf rows des.sourceId = []
  · rw [startsOf_idle_split hidle, hsame, hidle]
    simp [hnone]
  · have hactive : activeOf (rows.filter fun row => !emitted row) des.sourceId ≠ [] := by
      rw [hsame]
      exact hidle
    rw [startsOf_active hidle, startsOf_active hactive, hsame]
    exact ⟨fun _ => ⟨hnone, .inl hidle⟩, fun _ => List.Perm.refl _⟩

private theorem StandsIn.activeOf
    (h : StandsIn (rows.filter fun row => !emitted row) (rows.filter emitted) dbNow utcNow des) :
    ∃ row, activeOf rows des.sourceId = [row] ∧ row.fingerprint = des.fingerprint := by
  obtain ⟨hone, hidle, -, -⟩ := h
  obtain ⟨row, hrow, hfp⟩ := List.map_eq_singleton_iff.mp hone
  refine ⟨row, ?_, hfp⟩
  rw [activeOf_filter] at hrow hidle
  rw [← hrow]
  refine (List.filter_eq_self.mpr fun r hr => ?_).symm
  have := List.filter_eq_nil_iff.mp hidle r hr
  simpa using this

private theorem cancels_iff (hids : (desired.map (·.sourceId)).Nodup)
    (hkeys : (rows.map (·.jobId)).Nodup) (hdes : des ∈ desired)
    (hsame : activeOf (rows.filter fun row => !emitted row) des.sourceId =
      activeOf rows des.sourceId) (hrow : row ∈ activeOf rows des.sourceId) :
    row.jobId ∈ cancelled (reconcile desired rows dbNow utcNow) ↔
      row.jobId ∈ cancelled
        (reconcile desired (rows.filter fun row => !emitted row) dbNow utcNow) := by
  have hkeys' : ((rows.filter fun row => !emitted row).map (·.jobId)).Nodup :=
    hkeys.sublist (List.filter_sublist.map _)
  have hwith := not_cancelled_iff hids hdes hkeys dbNow utcNow hrow
  have hwithout := not_cancelled_iff hids hdes hkeys' dbNow utcNow (hsame ▸ hrow)
  rw [hsame] at hwithout
  exact not_iff_not.mp (hwith.trans hwithout.symm)

private theorem isActive_of_cancelled (hkeys : (rows.map (·.jobId)).Nodup) (hrow : row ∈ rows)
    (h : row.jobId ∈ cancelled (reconcile desired rows dbNow utcNow)) : row.isActive = true := by
  obtain ⟨des, -, hcancel⟩ | ⟨row', hrow', hactive, hid, -⟩ := mem_cancelled_reconcile.mp h
  · obtain ⟨i, row', hi, hid, -⟩ := mem_cancelled_replace.mp hcancel
    obtain ⟨hrow', hactive, -⟩ := mem_activeOf.mp (List.mem_of_getElem? hi)
    rwa [jobId_inj hkeys hrow' hrow hid] at hactive
  · rwa [jobId_inj hkeys hrow' hrow hid] at hactive

/--
A pass does not see the emitted jobs exactly when none of an unconfigured source is active, and
for every configured one they are quiet or one stands in for a consumer.
-/
theorem emitted_unseen_iff {desired : List DesiredEventSource}
    (hids : (desired.map (·.sourceId)).Nodup) {rows : List EventSourceJobRow}
    (hkeys : (rows.map (·.jobId)).Nodup) (emitted : EventSourceJobRow → Bool) (dbNow : Time)
    (utcNow : EventSourceJobRow → Time) :
    Unseen emitted desired rows dbNow utcNow ↔
      (∀ row ∈ rows, emitted row = true → row.isActive = true →
        row.source ∈ desired.map (·.sourceId)) ∧
      ∀ des ∈ desired,
        QuietlyEmitted (rows.filter fun row => !emitted row) (rows.filter emitted) dbNow utcNow
          des ∨
        StandsIn (rows.filter fun row => !emitted row) (rows.filter emitted) dbNow utcNow des := by
  have hkeys' : ((rows.filter fun row => !emitted row).map (·.jobId)).Nodup :=
    hkeys.sublist (List.filter_sublist.map _)
  constructor
  · intro h
    refine ⟨fun row hrow hemit hactive => ?_, fun des hdes => ?_⟩
    · by_contra hnot
      exact h.spared row hrow hemit
        (mem_cancelled_reconcile.mpr (.inr ⟨row, hrow, hactive, rfl, hnot⟩))
    · by_cases hnone : activeOf (rows.filter emitted) des.sourceId = []
      · have hstarts := h.starts des hdes
        rw [creations_reconcile hids hdes, creations_reconcile hids hdes] at hstarts
        exact .inl ((starts_perm_iff_quiet hnone).mp hstarts)
      · obtain ⟨row, hrow⟩ := List.exists_mem_of_ne_nil _ hnone
        rw [activeOf_filter] at hrow
        obtain ⟨hactive, hemit⟩ := List.mem_filter.mp hrow
        exact .inr (standsIn_of_unseen hids hkeys h hdes hactive hemit)
  · rintro ⟨hstray, hsources⟩
    refine ⟨fun row hrow hemit hgone => ?_, fun row hrow hnot => ?_, fun des hdes => ?_⟩
    · have hactive := isActive_of_cancelled hkeys hrow hgone
      obtain ⟨des, hdes, hsource⟩ := List.mem_map.mp (hstray row hrow hemit hactive)
      have hmem : row ∈ activeOf rows des.sourceId := mem_activeOf.mpr ⟨hrow, hactive, hsource.symm⟩
      obtain ⟨hnone, -⟩ | hstands := hsources des hdes
      · rw [activeOf_filter] at hnone
        exact absurd hemit (List.filter_eq_nil_iff.mp hnone row hmem)
      · obtain ⟨job, hone, hfp⟩ := hstands.activeOf
        refine (not_cancelled_iff hids hdes hkeys dbNow utcNow hmem).mpr ?_ hgone
        rw [hone] at hmem ⊢
        simp [List.mem_singleton.mp hmem, hfp]
    · have hrow' : row ∈ rows.filter fun row => !emitted row :=
        List.mem_filter.mpr ⟨hrow, by simpa using hnot⟩
      by_cases hactive : row.isActive = true
      · by_cases hconfigured : row.source ∈ desired.map (·.sourceId)
        · obtain ⟨des, hdes, hsource⟩ := List.mem_map.mp hconfigured
          have hmem : row ∈ activeOf rows des.sourceId :=
            mem_activeOf.mpr ⟨hrow, hactive, hsource.symm⟩
          obtain ⟨hnone, -⟩ | ⟨-, hidle, -, -⟩ := hsources des hdes
          · exact cancels_iff hids hkeys hdes (activeOf_consumers hnone) hmem
          · rw [activeOf_filter] at hidle
            have := List.filter_eq_nil_iff.mp hidle row hmem
            simp [hnot] at this
        · exact iff_of_true
            (mem_cancelled_reconcile.mpr (.inr ⟨row, hrow, hactive, rfl, hconfigured⟩))
            (mem_cancelled_reconcile.mpr (.inr ⟨row, hrow', hactive, rfl, hconfigured⟩))
      · exact iff_of_false (fun hgone => hactive (isActive_of_cancelled hkeys hrow hgone))
          fun hgone => hactive (isActive_of_cancelled hkeys' hrow' hgone)
    · rw [creations_reconcile hids hdes, creations_reconcile hids hdes]
      obtain hquiet | hstands := hsources des hdes
      · exact (starts_perm_iff_quiet hquiet.1).mpr hquiet
      · obtain ⟨job, hone, hfp⟩ := hstands.activeOf
        obtain ⟨-, hidle, hended, hnodues⟩ := hstands
        have hwithout := startsOf_idle dbNow utcNow hidle
        rw [if_neg hended, hnodues] at hwithout
        rw [startsOf_active (by simp [hone]), hone, hwithout.eq_nil]
        simp [hfp]

/-! ### A consumer of the queue beside the jobs it emitted -/

def emittedJob (jobId : Uuid) (status : JobStatus) (input : Fields) : EventSourceJobRow where
  jobId := jobId
  sourceId := some queue.sourceId
  input := some (.obj input)
  status := status
  createdAt := 60 * 1000000000
  completedAt := if status.isTerminal then some (70 * 1000000000) else none

theorem emitted_job_is_cancelled :
    ¬ Unseen (fun row => row.jobId == 2) [queue]
      [ranFrom 1 .running 0 0, emittedJob 2 .running [("order", .num (.int 7))]]
      (80 * 1000000000) (fun _ => 80 * 1000000000) := by
  intro h
  refine h.spared (emittedJob 2 .running [("order", .num (.int 7))]) (by simp) (by decide) ?_
  decide +kernel

theorem emitted_unseen_iff_afterSuccess :
    Unseen (fun row => row.jobId == 2) [queue]
      [ranFrom 1 .running 0 0, emittedJob 2 .completed [("order", .num (.int 7))]]
      (80 * 1000000000) (fun _ => 80 * 1000000000) := by
  refine (emitted_unseen_iff (by decide) (by decide) _ _ _).mpr ⟨by decide, ?_⟩
  intro des hdes
  obtain rfl := List.mem_singleton.mp hdes
  exact .inl ⟨by decide +kernel, .inl (by decide +kernel)⟩

end Stroem.EventSource
