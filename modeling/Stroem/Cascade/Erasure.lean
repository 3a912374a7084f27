import Stroem.Cascade.Steps

/-!
# What the cascade's decisions do not depend on

The text of an error, the timestamps of a row and the columns of its git pins (which the in-memory
row of an instance leaves empty) play no part in which changes are legal or in which rows are
still to move.  `JobStepRow.visible` erases them from a row and `Change.forget` erases the text of
a failure from a change; replaying a plan is the same up to both.
-/

namespace Stroem

def JobStepRow.visible (r : JobStepRow) : JobStepRow :=
  { r with
    errorMessage := none, startedAt := none, completedAt := none, readyAt := none,
    actionRef := none, taskWorkspace := none, taskRef := none, taskRevision := none,
    refTemplate := none }

end Stroem

namespace Stroem.Cascade

open Foundation

def Change.forget : Change → Change
  | .fail step _ => .fail step ""
  | .rollup placeholder (.failed _ output) => .rollup placeholder (.failed "" output)
  | other => other

theorem Change.forget_redact (env : TemplateEnv) (secretValues : List String) (c : Change) :
    (c.redact env secretValues).forget = c.forget := by
  cases c <;> rfl

theorem redactChanges_forget (env : TemplateEnv) (ws : Option WorkspaceConfig)
    (cs : List Change) :
    (redactChanges env ws cs).map Change.forget = cs.map Change.forget := by
  unfold redactChanges
  split
  · rfl
  · simp only
    split
    · rfl
    · rw [List.map_map]
      exact List.map_congr_left fun c _ => c.forget_redact env _

variable {cs : List Change}

theorem mem_redactChanges {env : TemplateEnv} {ws : Option WorkspaceConfig} {c : Change}
    (h : c ∈ redactChanges env ws cs) : ∃ c₀ ∈ cs, c₀.forget = c.forget := by
  have hmem : c.forget ∈ cs.map Change.forget := by
    rw [← redactChanges_forget env ws cs]
    exact List.mem_map_of_mem h
  exact List.mem_map.mp hmem

theorem mem_of_redactChanges (env : TemplateEnv) (ws : Option WorkspaceConfig) {c : Change}
    (h : c ∈ cs) : ∃ c' ∈ redactChanges env ws cs, c'.forget = c.forget := by
  have hmem : c.forget ∈ (redactChanges env ws cs).map Change.forget := by
    rw [redactChanges_forget env ws cs]
    exact List.mem_map_of_mem h
  exact List.mem_map.mp hmem

@[simp] theorem Change.forget_target (c : Change) : c.forget.target = c.target := by
  unfold forget
  split <;> rfl

theorem Change.forget_forget (c : Change) : c.forget.forget = c.forget := by
  cases c with
  | rollup p outcome => cases outcome <;> rfl
  | _ => rfl

theorem Change.forget_inserted (c : Change) : c.forget.inserted = c.inserted := by
  unfold forget
  split <;> rfl

theorem Change.visible_setRow (c : Change) (r : JobStepRow) :
    (c.setRow r).visible = (c.forget.setRow r.visible).visible := by
  cases c with
  | rollup p outcome => cases outcome <;> rfl
  | _ => rfl

def Snapshot.visible (snap : Snapshot) : Snapshot :=
  List.map JobStepRow.visible snap

theorem JobStepRow.visible_visible (r : JobStepRow) : r.visible.visible = r.visible := rfl

@[simp] theorem Snapshot.visible_visible (snap : Snapshot) :
    snap.visible.visible = snap.visible := by
  simp only [visible, List.map_map]
  exact List.map_congr_left fun r _ => JobStepRow.visible_visible r

theorem Snapshot.visible_apply (snap : Snapshot) (c : Change) :
    (snap.apply c).visible = (snap.visible.apply c.forget).visible := by
  have hmodify : ∀ (s : Snapshot) (d : Change),
      (s.modify d.target d.setRow).visible =
        modifyLast JobStepRow.stepName d.target
          (fun r => (d.forget.setRow r).visible) s.visible := by
    intro s d
    exact modifyLast_map JobStepRow.stepName (v := JobStepRow.visible) (fun _ => rfl)
      (fun r => d.visible_setRow r) d.target s
  rw [apply_eq, apply_eq]
  have happend : ∀ a b : Snapshot, visible (a ++ b) = a.visible ++ b.visible := by
    intro a b
    simp [visible]
  rw [happend, happend, hmodify, hmodify, Change.forget_target, Change.forget_forget,
    Change.forget_inserted, visible_visible]

variable {snap snap' : Snapshot}

theorem Snapshot.visible_applyAll_congr {ds : List Change} (hsnap : snap.visible = snap'.visible)
    (h : cs.map Change.forget = ds.map Change.forget) :
    (snap.applyAll cs).visible = (snap'.applyAll ds).visible := by
  induction cs generalizing snap snap' ds with
  | nil =>
    obtain rfl : ds = [] := by simpa using h.symm
    exact hsnap
  | cons c cs ih =>
    obtain ⟨d, ds, rfl, hd, hds⟩ := List.map_eq_cons_iff.mp h.symm
    have happly : (snap.apply c).visible = (snap'.apply d).visible := by
      rw [visible_apply, visible_apply snap', hsnap, hd]
    simpa only [applyAll_cons] using ih happly hds.symm

theorem Snapshot.get_visible (snap : Snapshot) (name : String) :
    snap.visible.get name = (snap.get name).map JobStepRow.visible :=
  lookupLast_map JobStepRow.stepName (v := JobStepRow.visible) (fun _ => rfl) name snap

theorem Snapshot.outcome_visible (snap : Snapshot) (name : String) :
    snap.visible.outcome name = snap.outcome name := by
  simp only [outcome, get_visible]
  cases snap.get name <;> rfl

theorem gateFor_visible (snap : Snapshot) (fs : FlowStep) :
    gateFor snap.visible fs = gateFor snap fs := by
  unfold gateFor
  exact gate_congr fun n _ => snap.outcome_visible n

theorem gateFor_congr (h : snap.visible = snap'.visible) (fs : FlowStep) :
    gateFor snap fs = gateFor snap' fs := by
  rw [← gateFor_visible, h, gateFor_visible]

theorem Snapshot.mem_of_visible (h : snap.visible = snap'.visible) {r' : JobStepRow}
    (hr' : r' ∈ snap') : ∃ r ∈ snap, r.visible = r'.visible := by
  have hmem : r'.visible ∈ snap.visible := by
    rw [h]
    exact List.mem_map_of_mem hr'
  obtain ⟨r, hr, heq⟩ := List.mem_map.mp hmem
  exact ⟨r, hr, heq⟩

/-! ## Legal plans -/

def replays (snap : Snapshot) : List Change → Bool
  | [] => true
  | c :: cs => c.legalAt snap && replays (snap.apply c) cs

theorem Change.accepts_forget (c : Change) (r : JobStepRow) :
    c.forget.accepts r.visible = c.accepts r := by
  cases c with
  | rollup p outcome => cases outcome <;> rfl
  | _ => rfl

theorem Change.legalAt_visible (snap : Snapshot) (c : Change) :
    c.forget.legalAt snap.visible = c.legalAt snap := by
  simp only [legalAt, forget_target, Snapshot.get_visible]
  cases snap.get c.target with
  | none => rfl
  | some r => exact c.accepts_forget r

theorem replays_congr {ds : List Change} (hsnap : snap.visible = snap'.visible)
    (h : cs.map Change.forget = ds.map Change.forget) : replays snap cs = replays snap' ds := by
  induction cs generalizing snap snap' ds with
  | nil =>
    obtain rfl : ds = [] := by simpa using h.symm
    rfl
  | cons c cs ih =>
    obtain ⟨d, ds, rfl, hd, hds⟩ := List.map_eq_cons_iff.mp h.symm
    have happly : (snap.apply c).visible = (snap'.apply d).visible := by
      rw [Snapshot.visible_apply, Snapshot.visible_apply snap', hsnap, hd]
    simp only [replays, ih happly hds.symm]
    rw [← c.legalAt_visible snap, ← d.legalAt_visible snap', hsnap, hd]

/-! ## Moves -/

theorem Moves.congr {c c' : Change} (hsnap : snap.visible = snap'.visible)
    (hc : c.forget = c'.forget) (h : Moves snap c) : Moves snap' c' := by
  have htarget : c.target = c'.target := by
    rw [← c.forget_target, hc, c'.forget_target]
  have hins : c.inserted = c'.inserted := by
    rw [← c.forget_inserted, hc, c'.forget_inserted]
  have hname : ∀ r r' : JobStepRow, r.visible = r'.visible → r.stepName = r'.stepName :=
    fun r r' heq => by simpa [JobStepRow.visible] using congrArg JobStepRow.stepName heq
  refine ⟨?_, ?_, hins ▸ h.keyed, ?_, hins ▸ h.few, ?_, hins ▸ h.indexed⟩
  · obtain ⟨r, hget, hr⟩ := h.source
    have hvis := snap'.get_visible c'.target
    rw [← hsnap, ← htarget, snap.get_visible, hget] at hvis
    obtain ⟨r', hget', heq⟩ := Option.map_eq_some_iff.mp hvis.symm
    refine ⟨r', htarget ▸ hget', hr.imp (fun haccepts => ?_) fun ⟨hready, hpromote⟩ => ⟨?_, ?_⟩⟩
    · rw [← c'.accepts_forget, ← hc, heq, c.accepts_forget]
      exact haccepts
    · exact (congrArg JobStepRow.status heq).trans hready
    · rw [hpromote] at hc
      rw [← htarget]
      cases c' with
      | promote t => exact (hc.symm.trans rfl)
      | rollup p outcome => cases outcome <;> cases hc
      | _ => cases hc
  · intro r' hr' a ha
    obtain ⟨r, hr, heq⟩ := Snapshot.mem_of_visible hsnap hr'
    rw [← hname r r' heq]
    exact h.fresh r hr a (hins ▸ ha)
  · intro a ha
    rw [← htarget]
    exact h.instances a (hins ▸ ha)
  · intro hne r' hr' hr'name
    obtain ⟨r, hr, heq⟩ := Snapshot.mem_of_visible hsnap hr'
    have hplace := h.loop (hins ▸ hne) r hr ((hname r r' heq).trans (hr'name.trans htarget.symm))
    have hexpr : r.forEachExpr = r'.forEachExpr := by
      simpa [JobStepRow.visible] using congrArg JobStepRow.forEachExpr heq
    simpa [JobStepRow.isPlaceholder, hexpr] using hplace

theorem Steps.congr {ds : List Change} (hsnap : snap.visible = snap'.visible)
    (h : cs.map Change.forget = ds.map Change.forget) (hsteps : Steps snap cs) :
    Steps snap' ds := by
  induction cs generalizing snap snap' ds with
  | nil =>
    obtain rfl : ds = [] := by simpa using h.symm
    trivial
  | cons c cs ih =>
    obtain ⟨d, ds, rfl, hd, hds⟩ := List.map_eq_cons_iff.mp h.symm
    have happly : (snap.apply c).visible = (snap'.apply d).visible := by
      rw [Snapshot.visible_apply, Snapshot.visible_apply snap', hsnap, hd]
    exact ⟨hsteps.1.congr hsnap hd.symm, ih happly hds.symm hsteps.2⟩

end Stroem.Cascade
