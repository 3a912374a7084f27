import Stroem.Kubernetes.Merge

/-!
# Overrides that pass the check

The check looks at the overrides alone.  What it forbids is a property that merges keep, so it is
enough that the manifest of the runner and the overrides have it.
-/

namespace Stroem.Kubernetes

variable {spec : Json} {entries : List (String × Json)} {f : Json → Json}

/-! ## What is forbidden -/

def ContainerSafe (container : Json) : Prop :=
  OnField "securityContext" (fun context =>
      OnField "privileged" (fun v => v ≠ .bool true) context ∧
        OnField "allowPrivilegeEscalation" (fun v => v ≠ .bool true) context) container ∧
    OnField "volumeMounts"
      (OnItems (OnField "mountPath" fun path => path ≠ .str dockerSocket)) container

def SpecSafe (spec : Json) : Prop :=
  OnField "hostNetwork" (fun v => v ≠ .bool true) spec ∧
    OnField "hostPID" (fun v => v ≠ .bool true) spec ∧
    OnField "hostIPC" (fun v => v ≠ .bool true) spec ∧
    OnField "volumes" (OnItems fun volume => field "hostPath" volume = none) spec ∧
    OnField "containers" (OnItems ContainerSafe) spec ∧
    OnField "initContainers" (OnItems ContainerSafe) spec

def PodSafe (pod : Json) : Prop := OnField "spec" SpecSafe pod

theorem mergeClosed_containerSafe : MergeClosed ContainerSafe := by
  have hflag : MergeClosed fun v => v ≠ .bool true :=
    mergeClosed_ne (fun _ h => by cases h) fun _ h => by cases h
  have hpath : MergeClosed fun v => v ≠ .str dockerSocket :=
    mergeClosed_ne (fun _ h => by cases h) fun _ h => by cases h
  exact (((hflag.onField "privileged").and (hflag.onField _)).onField _).and
    ((hpath.onField _).onItems.onField _)

theorem mergeClosed_podSafe : MergeClosed PodSafe := by
  have hflag : MergeClosed fun v => v ≠ .bool true :=
    mergeClosed_ne (fun _ h => by cases h) fun _ h => by cases h
  have hcontainers : MergeClosed (OnItems ContainerSafe) := mergeClosed_containerSafe.onItems
  have hspec : MergeClosed SpecSafe :=
    (hflag.onField _).and ((hflag.onField _).and ((hflag.onField _).and
      (((mergeClosed_absent "hostPath").onItems.onField _).and
        ((hcontainers.onField _).and (hcontainers.onField _)))))
  exact hspec.onField "spec"

/-! ## The check -/

theorem mem_bind_asArray {value : Option Json} {items : List Json}
    (h : value = some (.arr items)) : (value.bind asArray).getD [] = items := by
  rw [h]
  rfl

theorem checkContainer_ok {label : String} {container : Json}
    (h : checkContainer label container = .ok ()) : ContainerSafe container := by
  unfold checkContainer at h
  split at h
  · cases h
  · next hprivileged =>
      split at h
      · cases h
      · next hescalation =>
          split at h
          · cases h
          · next hsocket =>
              refine ⟨fun context hcontext => ⟨?_, ?_⟩, fun mounts hmounts => ?_⟩
              · rintro v hv rfl
                exact hprivileged (by rw [securityFlag, hcontext, Option.bind_some, hv]; rfl)
              · rintro v hv rfl
                exact hescalation (by rw [securityFlag, hcontext, Option.bind_some, hv]; rfl)
              · rintro items rfl mount hmount path hpath rfl
                refine hsocket (List.any_eq_true.mpr ⟨mount, ?_, ?_⟩)
                · rw [hmounts]
                  exact hmount
                · rw [hpath]
                  exact decide_eq_true rfl

theorem checkContainers_ok {label : String} {containers : List Json}
    (h : checkContainers label containers = .ok ()) :
    ∀ container ∈ containers, ContainerSafe container := by
  induction containers with
  | nil => exact fun _ hmem => absurd hmem List.not_mem_nil
  | cons first containers ih =>
    rw [checkContainers] at h
    cases hfirst : checkContainer label first with
    | error text =>
      rw [hfirst] at h
      cases h
    | ok _ =>
      rw [hfirst] at h
      intro container hmem
      obtain rfl | hmem := List.mem_cons.mp hmem
      · exact checkContainer_ok hfirst
      · exact ih h container hmem

theorem checkHostFlag_ok {flag : String} (h : checkHostFlag flag spec = .ok ()) :
    OnField flag (fun v => v ≠ .bool true) spec := by
  rintro v hv rfl
  unfold checkHostFlag at h
  rw [hv, if_pos (by rfl)] at h
  cases h

theorem checkVolumes_ok {volumes : List Json} (h : checkVolumes volumes = .ok ()) :
    ∀ volume ∈ volumes, field "hostPath" volume = none := by
  intro volume hmem
  unfold checkVolumes at h
  split at h
  · cases h
  · next hnone =>
      by_contra hpath
      exact hnone (List.any_eq_true.mpr ⟨volume, hmem, Option.isSome_iff_ne_none.mpr hpath⟩)

theorem ok_of_bind {x : Except String Unit} {y : Except String Unit}
    (h : (do x; y) = .ok ()) : x = .ok () ∧ y = .ok () := by
  cases x with
  | error text => cases h
  | ok _ => exact ⟨rfl, h⟩

theorem podSafe_of_validate {overrides : Json} (h : validatePodOverrides overrides = .ok ()) :
    PodSafe overrides := by
  intro spec hspec
  rw [validatePodOverrides, hspec] at h
  obtain ⟨hnetwork, h⟩ := ok_of_bind h
  obtain ⟨hpid, h⟩ := ok_of_bind h
  obtain ⟨hipc, h⟩ := ok_of_bind h
  obtain ⟨hvolumes, h⟩ := ok_of_bind h
  obtain ⟨hcontainers, hinits⟩ := ok_of_bind h
  refine ⟨checkHostFlag_ok hnetwork, checkHostFlag_ok hpid, checkHostFlag_ok hipc, ?_, ?_, ?_⟩
  · rintro value hvalue items rfl
    rw [mem_bind_asArray hvalue] at hvolumes
    exact checkVolumes_ok hvolumes
  · rintro value hvalue items rfl
    rw [mem_bind_asArray hvalue] at hcontainers
    exact checkContainers_ok hcontainers
  · rintro value hvalue items rfl
    rw [mem_bind_asArray hvalue] at hinits
    exact checkContainers_ok hinits

/-! ## What the runner builds -/

theorem field_object (hkeys : (entries.map Prod.fst).Nodup)
    (key : String) : field key (object entries) = Fields.get key entries :=
  Fields.get_collect hkeys key

variable {P Q : Json → Prop}

theorem onField_object (hkeys : (entries.map Prod.fst).Nodup)
    {key : String} (h : ∀ value, Fields.get key entries = some value → P value) :
    OnField key P (object entries) := by
  intro value hvalue
  rw [field_object hkeys] at hvalue
  exact h value hvalue

theorem OnField.modify {key : String} {value : Json}
    (h : OnField key P value) (hf : ∀ v, v = .null ∨ P v → Q (f v)) :
    OnField key Q (modifyField key f value) := by
  unfold modifyField
  intro w hw
  split at hw
  · next fields =>
      rw [field, Fields.get_insert_self] at hw
      cases hw
      cases hget : Fields.get key fields with
      | none => exact hf .null (Or.inl rfl)
      | some old => exact hf old (Or.inr (h old hget))
  · rw [field, Fields.get, if_pos rfl] at hw
    cases hw
    exact hf .null (Or.inl rfl)
  · next value hobj hnull =>
      unfold field at hw
      split at hw
      · exact (hobj _ rfl).elim
      · cases hw

theorem OnField.modify_of_ne {key other : String} (hne : key ≠ other)
    {value : Json} (h : OnField key P value) : OnField key P (modifyField other f value) := by
  unfold modifyField
  intro w hw
  split at hw
  · rw [field, Fields.get_insert_of_ne hne] at hw
    exact h w hw
  · rw [field, Fields.get, if_neg hne.symm] at hw
    cases hw
  · exact h w hw

theorem OnItems.push {item value : Json} (hitem : P item) (h : value = .null ∨ OnItems P value) :
    OnItems P (pushOrCreate item value) := by
  have hnew : ∀ e ∈ [item], P e := List.forall_mem_singleton.mpr hitem
  unfold pushOrCreate
  split
  · next old =>
      rintro items heq element helement
      obtain rfl := Json.arr.inj heq
      obtain hmem | hmem := List.mem_append.mp helement
      · obtain hnull | hold := h
        · cases hnull
        · exact hold old rfl element hmem
      · exact hnew element hmem
  · rintro items heq
    obtain rfl := Json.arr.inj heq
    exact hnew

theorem forall_modifyFirst {p : Json → Bool} (hf : ∀ v, P v → P (f v))
    {items : List Json} (h : ∀ item ∈ items, P item) :
    ∀ item ∈ modifyFirst p f items, P item := by
  induction items with
  | nil => exact h
  | cons first items ih =>
    have hrest : ∀ item ∈ items, P item := fun item hitem => h item (List.mem_cons_of_mem _ hitem)
    have hfirst := h first List.mem_cons_self
    rw [modifyFirst]
    split
    · exact List.forall_mem_cons.mpr ⟨hf first hfirst, hrest⟩
    · exact List.forall_mem_cons.mpr ⟨hfirst, ih hrest⟩

theorem onField_modifyStep (hf : ∀ v, P v → P (f v))
    (h : OnField "containers" (OnItems P) spec) :
    OnField "containers" (OnItems P) (modifyStep f spec) := by
  refine OnField.modify h fun v hv => ?_
  unfold mapArray
  split
  · next old =>
      rintro items heq
      obtain rfl := Json.arr.inj heq
      obtain hnull | hold := hv
      · cases hnull
      · exact forall_modifyFirst hf (hold old rfl)
  · next v harr =>
      rintro items rfl
      exact (harr items rfl).elim

/-! ## Safe parts -/

theorem mount_safe {name path : String} (h : path ≠ dockerSocket) :
    OnField "mountPath" (fun path => path ≠ .str dockerSocket) (mount name path) := by
  refine onField_object (by simp) fun value hvalue => ?_
  obtain rfl : Json.str path = value := by simpa [Fields.get] using hvalue
  exact fun heq => h (Json.str.inj heq)

theorem readOnlyMount_safe {name path : String} (h : path ≠ dockerSocket) :
    OnField "mountPath" (fun path => path ≠ .str dockerSocket) (readOnlyMount name path) := by
  refine onField_object (by simp) fun value hvalue => ?_
  obtain rfl : Json.str path = value := by simpa [Fields.get] using hvalue
  exact fun heq => h (Json.str.inj heq)

theorem emptyDir_safe (name : String) : field "hostPath" (emptyDir name) = none := by
  rw [emptyDir, field_object (by simp)]
  rfl

theorem containerSafe_object
    (hkeys : (entries.map Prod.fst).Nodup)
    (hcontext : Fields.get "securityContext" entries = none)
    (hmounts : ∀ value, Fields.get "volumeMounts" entries = some value →
      OnItems (OnField "mountPath" fun path => path ≠ .str dockerSocket) value) :
    ContainerSafe (object entries) :=
  ⟨onField_object hkeys fun value hvalue => (by rw [hcontext] at hvalue; cases hvalue),
    onField_object hkeys hmounts⟩

theorem ContainerSafe.push {container item : Json} (h : ContainerSafe container)
    (hitem : OnField "mountPath" (fun path => path ≠ .str dockerSocket) item) :
    ContainerSafe (modifyField "volumeMounts" (pushOrCreate item) container) :=
  ⟨h.1.modify_of_ne (by decide), h.2.modify fun _ hv => OnItems.push hitem hv⟩

theorem ContainerSafe.wrap {container : Json} (h : ContainerSafe container) :
    ContainerSafe (wrapCommandWithStartup container) := by
  unfold wrapCommandWithStartup
  split
  · exact h
  · exact h
  · exact ⟨h.1.modify_of_ne (by decide), h.2.modify_of_ne (by decide)⟩

theorem SpecSafe.pushVolume {volume : Json} (h : SpecSafe spec)
    (hvolume : field "hostPath" volume = none) :
    SpecSafe (modifyField "volumes" (pushOrCreate volume) spec) :=
  ⟨h.1.modify_of_ne (by decide), h.2.1.modify_of_ne (by decide), h.2.2.1.modify_of_ne (by decide),
    h.2.2.2.1.modify fun _ hv => OnItems.push hvolume hv, h.2.2.2.2.1.modify_of_ne (by decide),
    h.2.2.2.2.2.modify_of_ne (by decide)⟩

theorem SpecSafe.pushInit {container : Json} (h : SpecSafe spec)
    (hcontainer : ContainerSafe container) :
    SpecSafe (modifyField "initContainers" (pushOrCreate container) spec) :=
  ⟨h.1.modify_of_ne (by decide), h.2.1.modify_of_ne (by decide), h.2.2.1.modify_of_ne (by decide),
    h.2.2.2.1.modify_of_ne (by decide), h.2.2.2.2.1.modify_of_ne (by decide),
    h.2.2.2.2.2.modify fun _ hv => OnItems.push hcontainer hv⟩

theorem SpecSafe.step (h : SpecSafe spec)
    (hf : ∀ container, ContainerSafe container → ContainerSafe (f container)) :
    SpecSafe (modifyStep f spec) :=
  ⟨h.1.modify_of_ne (by decide), h.2.1.modify_of_ne (by decide), h.2.2.1.modify_of_ne (by decide),
    h.2.2.2.1.modify_of_ne (by decide), onField_modifyStep hf h.2.2.2.2.1,
    h.2.2.2.2.2.modify_of_ne (by decide)⟩

/-! ## The manifest of the runner -/

variable {scripts : Scripts} {runner : KubeRunner} {config : RunConfig}

theorem inputsInitContainer_safe (inputs : RunInputs) :
    ContainerSafe (inputsInitContainer runner inputs) := by
  refine containerSafe_object (by simp) (by simp [Fields.get]) fun value hvalue => ?_
  obtain rfl : .arr [mount inputsVolume canonicalInputsRoot] = value := by
    simpa [Fields.get] using hvalue
  rintro items heq
  obtain rfl := Json.arr.inj heq
  exact List.forall_mem_singleton.mpr (mount_safe (by decide))

theorem workspaceInitContainer_safe (workspaceName : String) :
    ContainerSafe (workspaceInitContainer scripts runner config workspaceName) := by
  refine containerSafe_object (by simp) (by simp [Fields.get]) fun value hvalue => ?_
  obtain rfl : .arr [mount "workspace" "/workspace"] = value := by
    simpa [Fields.get] using hvalue
  rintro items heq
  obtain rfl := Json.arr.inj heq
  exact List.forall_mem_singleton.mpr (mount_safe (by decide))

theorem SpecSafe.injectInputs (h : SpecSafe spec) (inputs : RunInputs) :
    SpecSafe (modifyStep (modifyField "volumeMounts"
        (pushOrCreate (readOnlyMount inputsVolume canonicalInputsRoot)))
      (modifyField "volumes" (pushOrCreate (emptyDir inputsVolume))
        (modifyField "initContainers"
          (pushOrCreate (inputsInitContainer runner inputs)) spec))) :=
  ((h.pushInit (inputsInitContainer_safe inputs)).pushVolume (emptyDir_safe _)).step
    fun _ hcontainer => hcontainer.push (readOnlyMount_safe (by decide))

theorem SpecSafe.injectStartup (h : SpecSafe spec) (cmName : String) :
    SpecSafe (modifyStep (fun step => wrapCommandWithStartup (modifyField "volumeMounts"
        (pushOrCreate (readOnlyMount "startup-scripts" "/etc/stroem/startup.d")) step))
      (modifyField "volumes" (pushOrCreate (object
        [("name", .str "startup-scripts"),
          ("configMap", object [("name", .str cmName), ("defaultMode", .num (.int 493))])]))
        spec)) := by
  refine (h.pushVolume ?_).step fun _ hcontainer =>
    (hcontainer.push (readOnlyMount_safe (by decide))).wrap
  rw [field_object (by simp)]
  simp [Fields.get]

theorem specSafe_null : SpecSafe .null :=
  ⟨fun _ h => (by cases h), fun _ h => (by cases h), fun _ h => (by cases h),
    fun _ h => (by cases h), fun _ h => (by cases h), fun _ h => (by cases h)⟩

theorem PodSafe.modifySpec {manifest : Json} (h : PodSafe manifest)
    (hf : ∀ spec, SpecSafe spec → SpecSafe (f spec)) :
    PodSafe (modifyField "spec" f manifest) := by
  refine OnField.modify h fun spec hspec => hf spec ?_
  obtain rfl | hspec := hspec
  · exact specSafe_null
  · exact hspec

theorem pod_safe {podName : String} {labels : List (String × String)}
    (h : SpecSafe spec) : PodSafe (pod podName labels spec) := by
  refine onField_object (by simp) fun value hvalue => ?_
  obtain rfl : spec = value := by simpa [Fields.get] using hvalue
  exact h

theorem stateMounts_safe : ∀ item ∈ stateMounts config,
    OnField "mountPath" (fun path => path ≠ .str dockerSocket) item := by
  intro item hitem
  rw [stateMounts, List.mem_append] at hitem
  obtain hitem | hitem := hitem
  all_goals
    split at hitem
    · obtain rfl | hitem := List.mem_cons.mp hitem
      · exact readOnlyMount_safe (by decide)
      · rw [List.mem_singleton.mp hitem]
        exact mount_safe (by decide)
    · cases hitem

theorem stateVolumes_safe : ∀ volume ∈ stateVolumes config, field "hostPath" volume = none := by
  intro volume hvolume
  rw [stateVolumes, List.mem_append] at hvolume
  obtain hvolume | hvolume := hvolume
  all_goals
    split at hvolume
    · obtain rfl | hvolume := List.mem_cons.mp hvolume
      · exact emptyDir_safe _
      · rw [List.mem_singleton.mp hvolume]
        exact emptyDir_safe _
    · cases hvolume

theorem specSafe_object (hkeys : (entries.map Prod.fst).Nodup)
    (hhost : Fields.get "hostNetwork" entries = none ∧ Fields.get "hostPID" entries = none ∧
      Fields.get "hostIPC" entries = none)
    (hvolumes : ∀ value, Fields.get "volumes" entries = some value →
      OnItems (fun volume => field "hostPath" volume = none) value)
    (hcontainers : ∀ value, Fields.get "containers" entries = some value →
      OnItems ContainerSafe value)
    (hinits : ∀ value, Fields.get "initContainers" entries = some value →
      OnItems ContainerSafe value) : SpecSafe (object entries) := by
  obtain ⟨hnetwork, hpid, hipc⟩ := hhost
  refine ⟨onField_object hkeys fun value hvalue => ?_, onField_object hkeys fun value hvalue => ?_,
    onField_object hkeys fun value hvalue => ?_, onField_object hkeys hvolumes,
    onField_object hkeys hcontainers, onField_object hkeys hinits⟩
  · rw [hnetwork] at hvalue
    cases hvalue
  · rw [hpid] at hvalue
    cases hvalue
  · rw [hipc] at hvalue
    cases hvalue

theorem buildPodJsonWithWorkspace_safe (podName workspaceName : String)
    (labels : List (String × String)) (image : String) (env : List Json) :
    PodSafe (buildPodJsonWithWorkspace scripts runner config podName workspaceName labels image
      env) := by
  refine pod_safe (specSafe_object (by simp) (by simp [Fields.get]) (fun value hvalue => ?_)
    (fun value hvalue => ?_) fun value hvalue => ?_)
  · obtain rfl : .arr (emptyDir "workspace" :: stateVolumes config) = value := by
      simpa [Fields.get] using hvalue
    rintro items heq
    obtain rfl := Json.arr.inj heq
    exact List.forall_mem_cons.mpr ⟨emptyDir_safe _, stateVolumes_safe⟩
  · simp only [Fields.get, String.reduceEq, if_false, if_true, Option.some.injEq] at hvalue
    subst hvalue
    rintro items heq
    obtain rfl := Json.arr.inj heq
    refine List.forall_mem_singleton.mpr (containerSafe_object (by simp) (by simp [Fields.get])
      fun value hvalue => ?_)
    obtain rfl : .arr (mount "workspace" "/workspace" :: stateMounts config) = value := by
      simpa [Fields.get] using hvalue
    rintro items heq
    obtain rfl := Json.arr.inj heq
    exact List.forall_mem_cons.mpr ⟨mount_safe (by decide), stateMounts_safe⟩
  · obtain rfl : .arr [workspaceInitContainer scripts runner config workspaceName] = value := by
      simpa [Fields.get] using hvalue
    rintro items heq
    obtain rfl := Json.arr.inj heq
    exact List.forall_mem_singleton.mpr (workspaceInitContainer_safe workspaceName)

theorem containerCommand_keys : ((containerCommand scripts config).map Prod.fst).Nodup ∧
    ∀ e ∈ containerCommand scripts config, e.1 = "command" ∨ e.1 = "args" := by
  unfold containerCommand
  cases config.entrypoint with
  | none =>
    cases config.command with
    | some command => simp
    | none =>
      cases config.cmd with
      | none => simp
      | some cmd =>
        dsimp only [Option.isSome_none]
        rw [if_neg Bool.false_ne_true]
        split <;> simp
  | some entrypoint =>
    cases config.command with
    | some command => simp
    | none => cases config.cmd <;> simp

theorem buildPodJsonNoWorkspace_safe (podName : String) (labels : List (String × String))
    (image : String) (env : List Json) :
    PodSafe (buildPodJsonNoWorkspace scripts config podName labels image env) := by
  obtain ⟨hnodup, hcommand⟩ := @containerCommand_keys scripts config
  refine pod_safe (specSafe_object (by simp) (by simp [Fields.get]) (fun value hvalue => ?_)
    (fun value hvalue => ?_) fun value hvalue => ?_)
  · simp [Fields.get] at hvalue
  · simp only [Fields.get, String.reduceEq, if_false, if_true, Option.some.injEq] at hvalue
    subst hvalue
    rintro items heq
    obtain rfl := Json.arr.inj heq
    have hkeys : (([("name", Json.str "step"), ("image", .str image), ("env", .arr env)] ++
        containerCommand scripts config).map Prod.fst).Nodup := by
      rw [List.map_append, List.nodup_append]
      refine ⟨by simp, hnodup, fun key hkey key' hkey' heq => ?_⟩
      obtain ⟨e, he, rfl⟩ := List.mem_map.mp hkey'
      subst heq
      obtain heq | heq := hcommand e he
      · simp [heq] at hkey
      · simp [heq] at hkey
    have hamong : ∀ e ∈ [("name", Json.str "step"), ("image", .str image), ("env", .arr env)] ++
        containerCommand scripts config, e.1 ∈ ["name", "image", "env", "command", "args"] := by
      intro e he
      obtain he | he := List.mem_append.mp he
      · have hfixed : e.1 ∈ ["name", "image", "env"] := List.mem_map.mpr ⟨e, he, rfl⟩
        exact List.mem_append_left ["command", "args"] hfixed
      · obtain heq | heq := hcommand e he
        · rw [heq]
          decide
        · rw [heq]
          decide
    have hcontext : "securityContext" ∉ ["name", "image", "env", "command", "args"] := by decide
    have hmounts : "volumeMounts" ∉ ["name", "image", "env", "command", "args"] := by decide
    refine List.forall_mem_singleton.mpr (containerSafe_object hkeys
      (Fields.get_eq_none fun e he heq => hcontext (heq ▸ hamong e he)) fun value hvalue => ?_)
    have hnone : Fields.get "volumeMounts"
        ([("name", Json.str "step"), ("image", .str image), ("env", .arr env)] ++
          containerCommand scripts config) = none :=
      Fields.get_eq_none fun e he heq => hmounts (heq ▸ hamong e he)
    rw [hnone] at hvalue
    cases hvalue
  · simp [Fields.get] at hvalue

theorem injectInputsInit_safe {manifest : Json} (h : PodSafe manifest) :
    PodSafe (injectInputsInit runner config manifest) := by
  unfold injectInputsInit
  split
  · exact h
  · next inputs _ => exact h.modifySpec fun _ hspec => hspec.injectInputs inputs

theorem injectStartupConfigmap_safe {manifest : Json} (h : PodSafe manifest) (cmName : String) :
    PodSafe (injectStartupConfigmap cmName manifest) :=
  h.modifySpec fun _ hspec => hspec.injectStartup cmName

theorem buildPodJson_safe (podName workspaceName : String) (labels : List (String × String)) :
    PodSafe (buildPodJson scripts runner config podName workspaceName labels) := by
  have hworkspace : PodSafe (injectInputsInit runner config
      (buildPodJsonWithWorkspace scripts runner config podName workspaceName labels
        (config.image.getD defaultRunnerImage) (buildEnvArray config))) :=
    injectInputsInit_safe (buildPodJsonWithWorkspace_safe _ _ _ _ _)
  have hplain : PodSafe (injectInputsInit runner config
      (buildPodJsonNoWorkspace scripts config podName labels
        (config.image.getD defaultRunnerImage) (buildEnvArray config))) :=
    injectInputsInit_safe (buildPodJsonNoWorkspace_safe _ _ _ _)
  unfold buildPodJson
  cases config.runnerMode with
  | withWorkspace =>
    dsimp only
    split
    · exact injectStartupConfigmap_safe hworkspace _
    · exact hworkspace
  | noWorkspace => exact hplain

/-! ## The merged manifest -/

/--
`release_claim` is fenced: in every interleaving with completions, failures, claims and the
cancellation of the job, it writes its step only under the claim passed and touches neither
attempts nor history.
-/
theorem mergeJson_podSafe (scripts : Scripts) (runner : KubeRunner) (config : RunConfig)
    (podName workspaceName : String) (labels : List (String × String)) (overrides : Json)
    (hordered : Ordered overrides) (hvalid : validatePodOverrides overrides = .ok ()) :
    PodSafe (mergeJson (buildPodJson scripts runner config podName workspaceName labels)
      overrides) :=
  mergeClosed_podSafe _ _ hordered (buildPodJson_safe podName workspaceName labels)
    (podSafe_of_validate hvalid)

theorem mergeJson_podSafe_steps :
    validatePodOverrides (.obj [("spec", .obj [("containers", .arr
        [.obj [("name", .str "step")], .obj [("name", .str "step")]]), ("volumes", .arr [])])]) =
      .ok () ∧
      PodSafe (mergeJson (buildPodJson ⟨fun s _ _ _ _ => [s], fun s _ _ _ _ => [s], id⟩
          ⟨"http://stroem", "token", "curlimages/curl:latest", none⟩
          { runnerMode := .withWorkspace } "pod" "default" [])
        (.obj [("spec", .obj [("containers", .arr
          [.obj [("name", .str "step")], .obj [("name", .str "step")]]), ("volumes", .arr [])])]))
        := by
  have hstep : Ordered (.obj [("name", .str "step")]) :=
    .obj (by unfold Fields.Sorted; decide) (List.forall_mem_singleton.mpr (.str _))
  refine ⟨rfl, mergeJson_podSafe _ _ _ _ _ _ _ ?_ rfl⟩
  refine .obj (by unfold Fields.Sorted; decide) (List.forall_mem_singleton.mpr
    (.obj (by unfold Fields.Sorted; decide) ?_))
  refine List.forall_mem_cons.mpr ⟨.arr ?_, List.forall_mem_singleton.mpr (.arr ?_)⟩
  · exact List.forall_mem_cons.mpr ⟨hstep, List.forall_mem_singleton.mpr hstep⟩
  · exact fun _ h => absurd h List.not_mem_nil

end Stroem.Kubernetes
