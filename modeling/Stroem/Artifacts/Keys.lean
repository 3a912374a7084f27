import Stroem.Artifacts

/-!
# Keys of artifacts

Two uploads of a job share a key only when they share the step and the name, and the keys under a
step's prefix are those of that step: a validated step name holds no slash.
-/

namespace Stroem.Artifacts

variable {cfg : Config} {job : Job}

def NoSlash (step : String) : Prop := '/' ∉ step.toList

theorem noSlash_of_validatePathSegment {value field : String}
    (h : (validatePathSegment value field).isOk = true) : NoSlash value := by
  intro hmem
  have hany : value.toList.any (fun c =>
      c = '\x00' || c = '\\' || c = '/' || (isControl c && c ≠ ' ')) = true :=
    List.any_eq_true.mpr ⟨'/', hmem, by decide⟩
  unfold validatePathSegment at h
  rw [if_pos hany] at h
  repeat' split at h
  all_goals cases h

private def jobPrefix (cfg : Config) (job : Job) : List Char :=
  (cfg.keyPrefix ++ job.workspace ++ "/" ++ toString job.jobId ++ "/").toList

private theorem stepPrefix_toList (step : String) :
    (stepPrefix cfg job step).toList = jobPrefix cfg job ++ (step.toList ++ ['/']) := by
  simp [stepPrefix, jobPrefix, String.toList_append]

private theorem key_toList (step name : String) :
    (artifactStorageKey cfg job step name).toList =
      jobPrefix cfg job ++ (step.toList ++ '/' :: name.toList) := by
  simp [artifactStorageKey, String.toList_append, stepPrefix_toList]

private theorem segment_append_inj {xs ys xs' ys' : List Char} (hx : '/' ∉ xs) (hx' : '/' ∉ xs')
    (h : xs ++ '/' :: ys = xs' ++ '/' :: ys') : xs = xs' ∧ ys = ys' := by
  induction xs generalizing xs' with
  | nil =>
    cases xs' with
    | nil => exact ⟨rfl, (List.cons.inj h).2⟩
    | cons c rest =>
      obtain ⟨hc, -⟩ := List.cons.inj h
      exact absurd (hc ▸ List.mem_cons_self) hx'
  | cons c rest ih =>
    cases xs' with
    | nil =>
      obtain ⟨hc, -⟩ := List.cons.inj h
      exact absurd (hc ▸ List.mem_cons_self) hx
    | cons c' rest' =>
      obtain ⟨hc, htail⟩ := List.cons.inj h
      have hrest := ih (fun hmem => hx (List.mem_cons_of_mem _ hmem))
        (fun hmem => hx' (List.mem_cons_of_mem _ hmem)) htail
      exact ⟨by rw [hc, hrest.1], hrest.2⟩

theorem artifactStorageKey_inj {step step' name name' : String} (hstep : NoSlash step)
    (hstep' : NoSlash step')
    (h : artifactStorageKey cfg job step name = artifactStorageKey cfg job step' name') :
    step = step' ∧ name = name' := by
  have hlist := congrArg String.toList h
  rw [key_toList, key_toList] at hlist
  obtain ⟨hsteps, hnames⟩ := segment_append_inj hstep hstep' (List.append_cancel_left hlist)
  exact ⟨String.toList_inj.mp hsteps, String.toList_inj.mp hnames⟩

theorem stepPrefix_isPrefix_iff {step step' name : String} (hstep : NoSlash step)
    (hstep' : NoSlash step') :
    (stepPrefix cfg job step).toList <+: (artifactStorageKey cfg job step' name).toList ↔
      step = step' := by
  rw [stepPrefix_toList, key_toList, List.prefix_append_right_inj]
  constructor
  · rintro ⟨rest, hrest⟩
    rw [List.append_assoc, List.singleton_append] at hrest
    exact String.toList_inj.mp (segment_append_inj hstep hstep' hrest).1
  · rintro rfl
    exact ⟨name.toList, by simp⟩

end Stroem.Artifacts
