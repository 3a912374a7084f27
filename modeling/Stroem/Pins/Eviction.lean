import Stroem.Pins

/-!
# Eviction is safe

A caller's cell is the one in the map, because a slot leaves the map only while nobody else holds
its cell or its value.  So a key that is evicted has no caller, and the dir of a key that has one
stays published.
-/

namespace Stroem.Pins

open Foundation

variable {s t : Store} {key : Key} {c j : Nat} {x : Caller} {event : Event}
  {emptyTree : Key → Bool}

/-! ## The invariant -/

def Slotted (s : Store) (key : Key) (cell : Nat) : Prop :=
  ∃ slot, (key, slot) ∈ s.trees ∧ slot.cell = cell

def Held (s : Store) (key : Key) (cell : Nat) : Prop :=
  Slotted s key cell ∧ s.treeValue cell = some key

def ConfigOk (s : Store) (cell : Nat) : Prop :=
  cell < s.nextCell ∧ ∀ key tree, s.configValue cell = some (key, tree) → Held s key tree

structure CallerOk (s : Store) (x : Caller) : Prop where
  cell : ∀ c, x.treeCell = some c → Slotted s x.key c
  tree : ∀ c, x.tree = some c → Held s x.key c
  job : ∀ c j, x.stage = .onTree c (.awaiting j) → ∃ job : Job, s.jobs[j]? = some job ∧
    job.key = x.key ∧ (job.state = .done true → (s.published x.key).isSome)
  config : ∀ c, x.config = some c → ConfigOk s c
  pinned : ∀ c, x.pinned = some c → ConfigOk s c ∧ (s.configValue c).isSome

structure Sound (s : Store) : Prop where
  treeKeys : (s.trees.map Prod.fst).Nodup
  configKeys : (s.configs.map Prod.fst).Nodup
  treeFresh : ∀ c, s.nextCell ≤ c → s.treeValue c = none
  configFresh : ∀ c, s.nextCell ≤ c → s.configValue c = none
  treeCells : ∀ e ∈ s.trees, e.2.cell < s.nextCell
  treeInj : ∀ key key' c, Slotted s key c → Slotted s key' c → key = key'
  ready : ∀ key slot k, (key, slot) ∈ s.trees → s.treeValue slot.cell = some k →
    k = key ∧ (s.published key).isSome
  callers : ∀ x ∈ s.callers, CallerOk s x
  loads : ∀ l ∈ s.loads, l.running = true → Held s l.key l.cell
  configs : ∀ e ∈ s.configs, ConfigOk s e.2.cell
  evictors : ∀ e ∈ s.evictors, ∀ c ∈ e.slots, ConfigOk s c
  dirs : ∀ key d, s.published key = some d → d < s.nextDir ∧
    (∀ e ∈ s.evictors, d ∉ e.trash) ∧ ∀ key', s.published key' = some d → key' = key
  trash : ∀ e ∈ s.evictors, ∀ d ∈ e.trash, d < s.nextDir

/-- What every event but the eviction of checkouts does: slots, values and published dirs stay,
and a new config value leases a checkout that is in the map. -/
structure Extends (s t : Store) : Prop where
  nextCell : s.nextCell ≤ t.nextCell
  slotted : ∀ key c, Slotted s key c → Slotted t key c
  value : ∀ c key, s.treeValue c = some key → t.treeValue c = some key
  config : ∀ c key tree, t.configValue c = some (key, tree) →
    s.configValue c = some (key, tree) ∨ Held t key tree
  loaded : ∀ c, (s.configValue c).isSome → (t.configValue c).isSome
  job : ∀ (j : Nat) (job : Job), s.jobs[j]? = some job → ∃ job' : Job,
    t.jobs[j]? = some job' ∧ job'.key = job.key ∧
      (job'.state = .done true → job.state = .done true ∨ (t.published job.key).isSome)
  published : ∀ key, (s.published key).isSome → (t.published key).isSome

theorem Extends.held (h : Extends s t) (hheld : Held s key c) :
    Held t key c :=
  ⟨h.slotted key c hheld.1, h.value c key hheld.2⟩

theorem Extends.configOk (h : Extends s t) (hok : ConfigOk s c) :
    ConfigOk t c := by
  refine ⟨lt_of_lt_of_le hok.1 h.nextCell, fun key tree hvalue => ?_⟩
  obtain hold | hnew := h.config c key tree hvalue
  · exact h.held (hok.2 key tree hold)
  · exact hnew

theorem Extends.callerOk (h : Extends s t) (hok : CallerOk s x) :
    CallerOk t x where
  cell c hc := h.slotted x.key c (hok.cell c hc)
  tree c hc := h.held (hok.tree c hc)
  job c j hstage := by
    obtain ⟨job, hjob, hkey, hdone⟩ := hok.job c j hstage
    obtain ⟨job', hjob', hkey', hdone'⟩ := h.job j job hjob
    refine ⟨job', hjob', hkey'.trans hkey, fun hstate => ?_⟩
    obtain hold | hnew := hdone' hstate
    · exact h.published x.key (hdone hold)
    · exact hkey ▸ hnew
  config c hc := h.configOk (hok.config c hc)
  pinned c hc := ⟨h.configOk (hok.pinned c hc).1, h.loaded c (hok.pinned c hc).2⟩

theorem Extends.of_same (hcell : s.nextCell ≤ t.nextCell)
    (hslotted : ∀ key c, Slotted s key c → Slotted t key c) (hvalue : t.treeValue = s.treeValue)
    (hconfig : t.configValue = s.configValue) (hjobs : t.jobs = s.jobs)
    (hpublished : t.published = s.published) : Extends s t where
  nextCell := hcell
  slotted := hslotted
  value _ _ h := hvalue ▸ h
  config _ _ _ h := .inl (hconfig ▸ h)
  loaded _ h := hconfig ▸ h
  job _ job h := ⟨job, hjobs ▸ h, rfl, .inl⟩
  published _ h := hpublished ▸ h

/-! ## Steps of the callers -/

theorem Sound.calls (h : Sound s) (he : Extends s t) (htrees : t.trees = s.trees)
    (hconfigs : t.configs = s.configs) (hcell : t.nextCell = s.nextCell)
    (hdir : t.nextDir = s.nextDir) (hpublished : t.published = s.published)
    (hevictors : t.evictors = s.evictors)
    (hvalue : ∀ c key, t.treeValue c = some key → s.treeValue c = some key ∨
      (Slotted s key c ∧ (s.published key).isSome))
    (hconfig : ∀ c, s.nextCell ≤ c → t.configValue c = none)
    (hcallers : ∀ x ∈ t.callers, x ∈ s.callers ∨ CallerOk t x)
    (hloads : ∀ l ∈ t.loads, l.running = true → l ∈ s.loads ∨ Held t l.key l.cell) :
    Sound t where
  treeKeys := htrees ▸ h.treeKeys
  configKeys := hconfigs ▸ h.configKeys
  treeFresh c hle := by
    rw [hcell] at hle
    cases hc : t.treeValue c with
    | none => rfl
    | some key =>
      obtain hold | ⟨⟨slot, hmem, rfl⟩, -⟩ := hvalue c key hc
      · rw [h.treeFresh c hle] at hold
        cases hold
      · exact absurd (h.treeCells _ hmem) (Nat.not_lt.mpr hle)
  configFresh c hle := hconfig c (hcell ▸ hle)
  treeCells e he' := by
    rw [hcell]
    exact h.treeCells e (htrees ▸ he')
  treeInj key key' c hk hk' := by
    simp only [Slotted, htrees] at hk hk'
    exact h.treeInj key key' c hk hk'
  ready key slot k hmem hk := by
    rw [htrees] at hmem
    rw [hpublished]
    obtain hold | ⟨hslotted, hpub⟩ := hvalue slot.cell k hk
    · exact h.ready key slot k hmem hold
    · obtain rfl : k = key := h.treeInj k key slot.cell hslotted ⟨slot, hmem, rfl⟩
      exact ⟨rfl, hpub⟩
  callers x hx := by
    obtain hold | hnew := hcallers x hx
    · exact he.callerOk (h.callers x hold)
    · exact hnew
  loads l hl hrun := by
    obtain hold | hnew := hloads l hl hrun
    · exact he.held (h.loads l hold hrun)
    · exact hnew
  configs e hmem := he.configOk (h.configs e (hconfigs ▸ hmem))
  evictors e hmem c hc := he.configOk (h.evictors e (hevictors ▸ hmem) c hc)
  dirs := by
    rw [hpublished, hdir, hevictors]
    exact h.dirs
  trash := by
    rw [hdir, hevictors]
    exact h.trash

theorem Sound.recalled (h : Sound s) {callers : List Caller}
    (hcallers : ∀ x ∈ callers, CallerOk s x) : Sound { s with callers } := by
  have he : Extends s { s with callers } :=
    .of_same (le_refl _) (fun _ _ => id) rfl rfl rfl rfl
  exact h.calls he rfl rfl rfl rfl rfl rfl (fun _ _ => .inl) h.configFresh
    (fun x hx => .inr (he.callerOk (hcallers x hx))) (fun _ hl _ => .inl hl)

theorem Sound.restaged (h : Sound s) (i : Nat)
    (hx : Sound s → CallerOk s x) : Sound (s.setCaller i x) := by
  refine h.recalled fun y hy => ?_
  obtain hmem | rfl := List.mem_or_eq_of_mem_set hy
  · exact h.callers y hmem
  · exact hx h

theorem Sound.held_of_loaded (h : Sound s)
    (hslot : Slotted s key c) (hloaded : s.treeLoaded c = true) : Held s key c := by
  obtain ⟨k, hk⟩ := Option.isSome_iff_exists.mp hloaded
  obtain ⟨slot, hmem, rfl⟩ := hslot
  obtain ⟨rfl, -⟩ := h.ready key slot k hmem hk
  exact ⟨⟨slot, hmem, rfl⟩, hk⟩

def withTreeSlot (s : Store) (key : Key) (callers : List Caller) : Store :=
  { s with
    nextCell := s.nextCell + 1
    trees := slotCell s.trees key s.nextCell s.now
    callers }

theorem extends_withTreeSlot (s : Store) (key : Key) (callers : List Caller) :
    Extends s (withTreeSlot s key callers) := by
  refine .of_same (Nat.le_succ _) ?_ rfl rfl rfl rfl
  rintro k c ⟨slot, hmem, rfl⟩
  exact slotCell_keeps s.nextCell s.now hmem

theorem slotted_cellOf (s : Store) (key : Key) (callers : List Caller) :
    Slotted (withTreeSlot s key callers) key (cellOf s.trees key s.nextCell) :=
  cellOf_mem s.trees key s.nextCell s.now

theorem Sound.treeSlot (h : Sound s) (key : Key) {callers : List Caller}
    (hcallers : ∀ x ∈ callers, x ∈ s.callers ∨ CallerOk (withTreeSlot s key callers) x) :
    Sound (withTreeSlot s key callers) := by
  have he := extends_withTreeSlot s key callers
  exact {
    treeKeys := slotCell_keys s.trees key s.nextCell s.now h.treeKeys
    configKeys := h.configKeys
    treeFresh := fun c hle => h.treeFresh c (le_trans (Nat.le_succ _) hle)
    configFresh := fun c hle => h.configFresh c (le_trans (Nat.le_succ _) hle)
    treeCells := by
      rintro ⟨k, slot⟩ hmem
      obtain ⟨slot', hmem', hcell⟩ | ⟨-, hcell, -⟩ := mem_slotCell hmem
      · have hlt := h.treeCells _ hmem'
        simp only [withTreeSlot, ← hcell]
        exact Nat.lt_succ_of_lt hlt
      · simp [withTreeSlot, hcell]
    treeInj := by
      rintro k k' c ⟨slot, hmem, rfl⟩ ⟨slot', hmem', heq⟩
      obtain ⟨old, hold, hcell⟩ | ⟨hk, hcell, -⟩ := mem_slotCell hmem
      · obtain ⟨old', hold', hcell'⟩ | ⟨-, hcell', -⟩ := mem_slotCell hmem'
        · exact h.treeInj k k' old.cell ⟨old, hold, rfl⟩
            ⟨old', hold', by rw [hcell', heq, hcell]⟩
        · have hlt : old.cell < s.nextCell := h.treeCells _ hold
          omega
      · obtain ⟨old', hold', hcell'⟩ | ⟨hk', -, -⟩ := mem_slotCell hmem'
        · have hlt : old'.cell < s.nextCell := h.treeCells _ hold'
          omega
        · rw [hk, hk']
    ready := by
      intro k slot k' hmem hvalue
      obtain ⟨old, hold, hcell⟩ | ⟨-, hcell, -⟩ := mem_slotCell hmem
      · exact h.ready k old k' hold (hcell ▸ hvalue)
      · rw [show (withTreeSlot s key callers).treeValue = s.treeValue from rfl, hcell,
          h.treeFresh s.nextCell (le_refl _)] at hvalue
        cases hvalue
    callers := by
      intro x hx
      obtain hold | hnew := hcallers x hx
      · exact he.callerOk (h.callers x hold)
      · exact hnew
    loads := fun l hl hrun => he.held (h.loads l hl hrun)
    configs := fun e hmem => he.configOk (h.configs e hmem)
    evictors := fun e hmem c hc => he.configOk (h.evictors e hmem c hc)
    dirs := h.dirs
    trash := h.trash }

theorem Sound.configSlot (h : Sound s) (key : Key) :
    Sound { s with
      nextCell := s.nextCell + 1
      configs := slotCell s.configs key s.nextCell s.now
      callers := s.callers ++
        [{ key, config := some (cellOf s.configs key s.nextCell), stage := .waiting }] } := by
  set t : Store := { s with
    nextCell := s.nextCell + 1
    configs := slotCell s.configs key s.nextCell s.now
    callers := s.callers ++
      [{ key, config := some (cellOf s.configs key s.nextCell), stage := .waiting }] } with ht
  have he : Extends s t :=
    .of_same (Nat.le_succ _) (fun _ _ => id) rfl rfl rfl rfl
  have hconfigs : ∀ e ∈ t.configs, ConfigOk t e.2.cell := by
    rintro ⟨k, slot⟩ hmem
    obtain ⟨old, hold, hcell⟩ | ⟨-, hcell, -⟩ := mem_slotCell hmem
    · have hok := he.configOk (h.configs _ hold)
      rw [hcell] at hok
      exact hok
    · refine ⟨by simp [ht, hcell], fun key' tree hvalue => ?_⟩
      have hfresh := h.configFresh s.nextCell (le_refl _)
      simp only [hcell] at hvalue
      rw [show t.configValue s.nextCell = s.configValue s.nextCell from rfl, hfresh] at hvalue
      cases hvalue
  exact {
    treeKeys := h.treeKeys
    configKeys := slotCell_keys s.configs key s.nextCell s.now h.configKeys
    treeFresh := fun c hle => h.treeFresh c (le_trans (Nat.le_succ _) hle)
    configFresh := fun c hle => h.configFresh c (le_trans (Nat.le_succ _) hle)
    treeCells := fun e hmem => Nat.lt_succ_of_lt (h.treeCells e hmem)
    treeInj := h.treeInj
    ready := h.ready
    callers := by
      intro x hx
      obtain hold | hnew := List.mem_append.mp hx
      · exact he.callerOk (h.callers x hold)
      · obtain rfl := List.mem_singleton.mp hnew
        obtain ⟨slot, hmem, hcell⟩ := cellOf_mem s.configs key s.nextCell s.now
        refine ⟨by simp [Caller.treeCell], by simp [Caller.tree], by simp, ?_,
          by simp [Caller.pinned]⟩
        intro c hc
        obtain rfl : cellOf s.configs key s.nextCell = c := by simpa using hc
        have hok := hconfigs _ hmem
        rw [hcell] at hok
        exact hok
    loads := fun l hl hrun => he.held (h.loads l hl hrun)
    configs := hconfigs
    evictors := fun e hmem c hc => he.configOk (h.evictors e hmem c hc)
    dirs := h.dirs
    trash := h.trash }

theorem getElem?_append_of_some {α : Type*} {l : List α} {a : α} (h : l[j]? = some a)
    (l' : List α) : (l ++ l')[j]? = some a := by
  rw [List.getElem?_append_left (List.getElem?_eq_some_iff.mp h).1]
  exact h

theorem Sound.spawnJob (h : Sound s) (i : Nat)
    (hok : CallerOk s x) (hstage : x.stage = .onTree c .initialising) :
    Sound (Store.setCaller { s with jobs := s.jobs ++ [({ key := x.key } : Job)] } i
      { x with stage := .onTree c (.awaiting s.jobs.length) }) := by
  have hslot := hok.cell c (by simp [Caller.treeCell, hstage])
  set t : Store := { s with jobs := s.jobs ++ [({ key := x.key } : Job)] } with ht
  have he : Extends s (t.setCaller i
      { x with stage := .onTree c (.awaiting s.jobs.length) }) :=
    { nextCell := le_refl _, slotted := fun _ _ h => h, value := fun _ _ h => h,
      config := fun _ _ _ h => .inl h
      loaded := fun _ h => h
      job := fun j job hjob => ⟨job, getElem?_append_of_some hjob _, rfl, .inl⟩
      published := fun _ h => h }
  refine h.calls he rfl rfl rfl rfl rfl rfl (fun _ _ => .inl) h.configFresh ?_
    (fun _ hl _ => .inl hl)
  intro y hy
  obtain hold | rfl := List.mem_or_eq_of_mem_set hy
  · exact .inl hold
  right
  refine ⟨?_, by simp [Caller.tree], ?_, fun c' hc' => he.configOk (hok.config c' hc'),
    by simp [Caller.pinned]⟩
  · intro c' hc'
    obtain rfl : c = c' := by simpa [Caller.treeCell] using hc'
    exact hslot
  · intro c' j hstage'
    obtain ⟨-, rfl⟩ : c = c' ∧ s.jobs.length = j := by simpa using hstage'
    exact ⟨{ key := x.key }, by simp [ht, Store.setCaller], rfl, by simp⟩

theorem Sound.completesTree (h : Sound s) (i : Nat)
    (hok : CallerOk s x) (hstage : x.stage = .onTree c (.awaiting j))
    (hjob : s.jobs[j]? = some { key, state := .done true }) :
    Sound (Store.setCaller { s with treeValue := Function.update s.treeValue c (some x.key) } i
      { x with stage := .hasTree c }) := by
  have hslot := hok.cell c (by simp [Caller.treeCell, hstage])
  obtain ⟨job, hjob', hkey, hdone⟩ := hok.job c j hstage
  have hpub : (s.published x.key).isSome := by
    rw [hjob] at hjob'
    cases hjob'
    exact hdone rfl
  have hvalue : ∀ c' key', Function.update s.treeValue c (some x.key) c' = some key' →
      s.treeValue c' = some key' ∨ (Slotted s key' c' ∧ (s.published key').isSome) := by
    intro c' key' hc'
    by_cases heq : c' = c
    · subst heq
      obtain rfl : x.key = key' := by simpa using hc'
      exact .inr ⟨hslot, hpub⟩
    · exact .inl (by simpa [heq] using hc')
  have he : Extends s (Store.setCaller
      { s with treeValue := Function.update s.treeValue c (some x.key) } i
      { x with stage := .hasTree c }) :=
    { nextCell := le_refl _, slotted := fun _ _ h => h
      value := fun c' key' hc' => by
        by_cases heq : c' = c
        · subst heq
          obtain ⟨slot, hmem, rfl⟩ := hslot
          obtain ⟨rfl, -⟩ := h.ready _ _ _ hmem hc'
          simp [Store.setCaller]
        · simpa [Store.setCaller, heq] using hc'
      config := fun _ _ _ h => .inl h
      loaded := fun _ h => h
      job := fun _ job hjob => ⟨job, hjob, rfl, .inl⟩
      published := fun _ h => h }
  refine h.calls he rfl rfl rfl rfl rfl rfl hvalue h.configFresh ?_
    (fun _ hl _ => .inl hl)
  intro y hy
  obtain hold | rfl := List.mem_or_eq_of_mem_set hy
  · exact .inl hold
  right
  refine ⟨by simp [Caller.treeCell], ?_, by simp,
    fun c' hc' => he.configOk (hok.config c' hc'), by simp [Caller.pinned]⟩
  intro c' hc'
  obtain rfl : c = c' := by simpa [Caller.tree] using hc'
  exact ⟨hslot, by simp [Store.setCaller]⟩

theorem Sound.spawnLoad (h : Sound s) (i : Nat)
    (hok : CallerOk s x) (hstage : x.stage = .hasTree c) :
    Sound (Store.setCaller { s with loads := s.loads ++ [({ key := x.key, cell := c } : Load)] } i
      { x with stage := .loading c s.loads.length }) := by
  have hheld := hok.tree c (by simp [Caller.tree, hstage])
  set t : Store := { s with loads := s.loads ++ [({ key := x.key, cell := c } : Load)] }
  have he : Extends s (t.setCaller i { x with stage := .loading c s.loads.length }) :=
    .of_same (le_refl _) (fun _ _ => id) rfl rfl rfl rfl
  refine h.calls he rfl rfl rfl rfl rfl rfl (fun _ _ => .inl) h.configFresh ?_ ?_
  · intro y hy
    obtain hold | rfl := List.mem_or_eq_of_mem_set hy
    · exact .inl hold
    right
    refine ⟨by simp [Caller.treeCell], ?_, by simp,
      fun c' hc' => he.configOk (hok.config c' hc'), by simp [Caller.pinned]⟩
    intro c' hc'
    obtain rfl : c = c' := by simpa [Caller.tree] using hc'
    exact he.held hheld
  · intro l hl hrun
    obtain hold | hnew := List.mem_append.mp hl
    · exact .inl hold
    · obtain rfl := List.mem_singleton.mp hnew
      exact .inr (he.held hheld)

theorem Sound.completesConfig (h : Sound s) (i : Nat) {config l : Nat}
    (hok : CallerOk s x) (hconfig : x.config = some config) (hstage : x.stage = .loading c l) :
    Sound (Store.setCaller
      { s with configValue := Function.update s.configValue config (some (x.key, c)) } i
      { x with config := none, stage := .hasConfig config }) := by
  have hheld := hok.tree c (by simp [Caller.tree, hstage])
  have hlt := (hok.config config hconfig).1
  set t : Store :=
    { s with configValue := Function.update s.configValue config (some (x.key, c)) } with ht
  have he : Extends s (t.setCaller i
      { x with config := none, stage := .hasConfig config }) :=
    { nextCell := le_refl _, slotted := fun _ _ h => h, value := fun _ _ h => h
      config := fun c' key tree hc' => by
        by_cases heq : c' = config
        · subst heq
          obtain ⟨rfl, rfl⟩ : x.key = key ∧ c = tree := by
            simpa [ht, Store.setCaller] using hc'
          exact .inr hheld
        · exact .inl (by simpa [ht, Store.setCaller, heq] using hc')
      loaded := fun c' hc' => by
        by_cases heq : c' = config
        · subst heq
          simp [ht, Store.setCaller]
        · simpa [ht, Store.setCaller, heq] using hc'
      job := fun _ job h => ⟨job, h, rfl, .inl⟩
      published := fun _ h => h }
  refine h.calls he rfl rfl rfl rfl rfl rfl (fun _ _ => .inl) ?_ ?_
    (fun _ hl _ => .inl hl)
  · intro c' hle
    have hne : c' ≠ config := by omega
    simpa [ht, Store.setCaller, hne] using h.configFresh c' hle
  · intro y hy
    obtain hold | rfl := List.mem_or_eq_of_mem_set hy
    · exact .inl hold
    right
    refine ⟨by simp [Caller.treeCell], by simp [Caller.tree], by simp, by simp, ?_⟩
    intro c' hc'
    obtain rfl : config = c' := by simpa [Caller.pinned] using hc'
    exact ⟨he.configOk (hok.config config hconfig), by simp [ht, Store.setCaller]⟩

theorem Sound.stepCaller {i : Nat} (h : Sound s)
    (hx : s.callers[i]? = some x) (hstep : s.stepCaller i x event = some t) : Sound t := by
  have hmem : x ∈ s.callers := List.mem_of_getElem? hx
  have hok := h.callers x hmem
  unfold Store.stepCaller at hstep
  split at hstep
  case h_1 =>
    simp only [Option.bind_eq_bind, Option.bind_eq_some_iff, Option.guard_eq_some'] at hstep
    obtain ⟨c, hc, _, ⟨hstage, -, -⟩, hstep⟩ := hstep
    cases hstep
    refine h.treeSlot x.key fun y hy => ?_
    obtain hold | rfl := List.mem_or_eq_of_mem_set hy
    · exact .inl hold
    right
    have he := extends_withTreeSlot s x.key
    refine ⟨?_, by simp [Caller.tree, Store.onTree], ?_, ?_, by simp [Caller.pinned, Store.onTree]⟩
    · intro c' hc'
      obtain rfl : cellOf s.trees x.key s.nextCell = c' := by
        simpa [Caller.treeCell, Store.onTree] using hc'
      exact slotted_cellOf s x.key _
    · simp [Store.onTree]
    · intro c' hc'
      exact (he _).configOk (hok.config c' hc')
  case h_2 =>
    simp only [Option.bind_eq_bind, Option.bind_eq_some_iff, Option.guard_eq_some'] at hstep
    obtain ⟨c, hc, _, ⟨-, hloaded⟩, hstep⟩ := hstep
    cases hstep
    refine h.restaged i fun _ => ⟨by simp [Caller.treeCell], by simp [Caller.tree], by simp,
      by simp, ?_⟩
    intro c' hc'
    obtain rfl : c = c' := by simpa [Caller.pinned] using hc'
    exact ⟨hok.config c hc, hloaded⟩
  case h_3 =>
    split at hstep
    case h_1 c hstage =>
      split at hstep
      case isTrue hloaded =>
        cases hstep
        have hslot := hok.cell c (by simp [Caller.treeCell, hstage])
        refine h.restaged i fun _ => ⟨by simp [Caller.treeCell], ?_, by simp, hok.config,
          by simp [Caller.pinned]⟩
        intro c' hc'
        obtain rfl : c = c' := by simpa [Caller.tree] using hc'
        exact h.held_of_loaded hslot hloaded
      case isFalse => cases hstep
    case h_2 => cases hstep
  case h_4 =>
    split at hstep
    case h_1 c hstage =>
      split at hstep
      case isTrue =>
        cases hstep
        have hslot := hok.cell c (by simp [Caller.treeCell, hstage])
        refine h.restaged i fun _ => ⟨?_, by simp [Caller.tree], by simp, hok.config,
          by simp [Caller.pinned]⟩
        intro c' hc'
        obtain rfl : c = c' := by simpa [Caller.treeCell] using hc'
        exact hslot
      case isFalse => cases hstep
    case h_2 => cases hstep
  case h_5 =>
    split at hstep
    case h_1 c hstage =>
      cases hstep
      exact h.spawnJob i hok hstage
    case h_2 => cases hstep
  case h_6 =>
    split at hstep
    case h_1 c j hstage =>
      split at hstep
      case h_1 key hjob =>
        cases hstep
        exact h.completesTree i hok hstage hjob
      case h_2 => cases hstep
    case h_2 => cases hstep
  case h_7 =>
    split at hstep
    case h_1 config c hconfig hstage =>
      cases hstep
      exact h.spawnLoad i hok hstage
    case h_2 => cases hstep
  case h_8 =>
    split at hstep
    case h_1 config c l hconfig hstage =>
      split at hstep
      case h_1 =>
        cases hstep
        exact h.completesConfig i hok hconfig hstage
      case h_2 => cases hstep
    case h_2 => cases hstep
  case h_9 =>
    cases hstep
    refine h.recalled fun y hy => h.callers y (List.mem_of_mem_eraseIdx hy)
  case h_10 =>
    have hcopy : Sound { s with callers := s.callers ++ [x] } := by
      refine h.recalled fun y hy => ?_
      obtain hold | hnew := List.mem_append.mp hy
      · exact h.callers y hold
      · obtain rfl := List.mem_singleton.mp hnew
        exact hok
    split at hstep
    case h_1 | h_2 =>
      cases hstep
      exact hcopy
    case h_3 => cases hstep
  case h_11 => cases hstep

/-! ## Steps of the blocking work -/

theorem extends_setJob {job : Job} (hjob : s.jobs[j]? = some job)
    (state : JobState) {published : Key → Option Nat} (nextDir : Nat)
    (hpublished : ∀ key, (s.published key).isSome → (published key).isSome)
    (hdone : state = .done true → (published job.key).isSome) :
    Extends s { s with jobs := s.jobs.set j { job with state }, published, nextDir } where
  nextCell := le_refl _
  slotted _ _ h := h
  value _ _ h := h
  config _ _ _ h := .inl h
  loaded _ h := h
  job j' job' hjob' := by
    by_cases heq : j' = j
    · subst heq
      obtain rfl : job = job' := Option.some.inj (hjob.symm.trans hjob')
      have hlt := (List.getElem?_eq_some_iff.mp hjob).1
      exact ⟨{ job with state }, by simp [hlt], rfl, fun h => .inr (hdone h)⟩
    · exact ⟨job', by simpa [Ne.symm heq] using hjob', rfl, .inl⟩
  published := hpublished

theorem Sound.setJob (h : Sound s) {job : Job}
    (hjob : s.jobs[j]? = some job) (state : JobState)
    (hdone : state = .done true → (s.published job.key).isSome) :
    Sound { s with jobs := s.jobs.set j { job with state } } := by
  have he := extends_setJob hjob state s.nextDir (fun _ h => h) hdone
  exact h.calls he rfl rfl rfl rfl rfl rfl (fun _ _ => .inl) h.configFresh
    (fun _ hx => .inl hx) (fun _ hl _ => .inl hl)

theorem Sound.publish (h : Sound s) {job : Job}
    (hjob : s.jobs[j]? = some job) :
    Sound { s with
      jobs := s.jobs.set j { job with state := .done true }
      nextDir := s.nextDir + 1
      published := Function.update s.published job.key (some s.nextDir) } := by
  have hkeeps : ∀ key, (s.published key).isSome →
      (Function.update s.published job.key (some s.nextDir) key).isSome := by
    intro key hkey
    by_cases heq : key = job.key
    · subst heq
      simp
    · simpa [heq] using hkey
  have he := extends_setJob hjob (.done true) (s.nextDir + 1) hkeeps (by simp)
  exact {
    treeKeys := h.treeKeys
    configKeys := h.configKeys
    treeFresh := h.treeFresh
    configFresh := h.configFresh
    treeCells := h.treeCells
    treeInj := h.treeInj
    ready := fun key slot k hmem hk => by
      obtain ⟨hkey, hpub⟩ := h.ready key slot k hmem hk
      exact ⟨hkey, hkeeps key hpub⟩
    callers := fun x hx => he.callerOk (h.callers x hx)
    loads := fun l hl hrun => he.held (h.loads l hl hrun)
    configs := fun e hmem => he.configOk (h.configs e hmem)
    evictors := fun e hmem c hc => he.configOk (h.evictors e hmem c hc)
    dirs := by
      intro key d hd
      by_cases heq : key = job.key
      · subst heq
        obtain rfl : s.nextDir = d := by simpa using hd
        refine ⟨Nat.lt_succ_self _, fun e hmem hin => ?_, fun key' hd' => ?_⟩
        · exact absurd (h.trash e hmem _ hin) (Nat.lt_irrefl _)
        · by_contra hne
          have hold : s.published key' = some s.nextDir := by simpa [hne] using hd'
          exact absurd (h.dirs key' _ hold).1 (Nat.lt_irrefl _)
      · obtain ⟨hlt, htrash, huniq⟩ := h.dirs key d (by simpa [heq] using hd)
        refine ⟨Nat.lt_succ_of_lt hlt, htrash, fun key' hd' => ?_⟩
        by_cases heq' : key' = job.key
        · subst heq'
          obtain rfl : s.nextDir = d := by simpa using hd'
          exact absurd hlt (Nat.lt_irrefl _)
        · exact huniq key' (by simpa [heq'] using hd')
    trash := fun e hmem d hd => Nat.lt_succ_of_lt (h.trash e hmem d hd) }

theorem Sound.stepJob {job : Job}
    (h : Sound s) (hjob : s.jobs[j]? = some job)
    (hstep : s.stepJob emptyTree j job event = some t) : Sound t := by
  unfold Store.stepJob at hstep
  split at hstep
  case h_1 =>
    split at hstep
    case isTrue hcond =>
      cases hstep
      exact h.setJob hjob (.done true) fun _ => hcond.2.2
    case isFalse => cases hstep
  case h_2 =>
    split at hstep
    case isTrue =>
      cases hstep
      exact h.setJob hjob .building (by simp)
    case isFalse => cases hstep
  case h_3 =>
    split at hstep
    case isTrue =>
      split at hstep
      case isTrue =>
        cases hstep
        exact h.publish hjob
      case isFalse hfull =>
        cases hstep
        refine h.setJob hjob (.done true) fun _ => ?_
        exact Option.isSome_iff_ne_none.mpr fun hnone => hfull (.inl hnone)
    case isFalse => cases hstep
  case h_4 =>
    split at hstep
    case h_1 =>
      cases hstep
      exact h.setJob hjob (.done false) (by simp)
    case h_2 =>
      cases hstep
      refine h.setJob hjob (.done (s.published job.key).isSome) fun hdone => ?_
      simpa using hdone
    case h_3 => cases hstep
  case h_5 => cases hstep

theorem Sound.endLoad (h : Sound s) (l : Nat) {load : Load} :
    Sound { s with loads := s.loads.set l { load with running := false } } := by
  have he : Extends s { s with loads := s.loads.set l { load with running := false } } :=
    .of_same (le_refl _) (fun _ _ => id) rfl rfl rfl rfl
  refine h.calls he rfl rfl rfl rfl rfl rfl (fun _ _ => .inl) h.configFresh
    (fun _ hx => .inl hx) fun l' hl' hrun => ?_
  obtain hold | rfl := List.mem_or_eq_of_mem_set hl'
  · exact .inl hold
  · cases hrun

/-! ## Steps of the evictions -/

theorem Sound.evicts (h : Sound s) {configs : SlotMap} {evictors : List Evictor}
    (hsub : configs.Sublist s.configs)
    (hslots : ∀ e ∈ evictors, ∀ c ∈ e.slots, (∃ e' ∈ s.evictors, c ∈ e'.slots) ∨
      ∃ entry ∈ s.configs, entry.2.cell = c)
    (htrash : ∀ e ∈ evictors, ∀ d ∈ e.trash, ∃ e' ∈ s.evictors, d ∈ e'.trash) :
    Sound { s with configs, evictors } := by
  have he : Extends s { s with configs, evictors } :=
    .of_same (le_refl _) (fun _ _ => id) rfl rfl rfl rfl
  exact {
    treeKeys := h.treeKeys
    configKeys := h.configKeys.sublist (hsub.map Prod.fst)
    treeFresh := h.treeFresh
    configFresh := h.configFresh
    treeCells := h.treeCells
    treeInj := h.treeInj
    ready := h.ready
    callers := fun x hx => he.callerOk (h.callers x hx)
    loads := fun l hl hrun => he.held (h.loads l hl hrun)
    configs := fun e hmem => he.configOk (h.configs e (hsub.subset hmem))
    evictors := by
      intro e hmem c hc
      obtain ⟨e', hmem', hc'⟩ | ⟨entry, hmem', rfl⟩ := hslots e hmem c hc
      · exact he.configOk (h.evictors e' hmem' c hc')
      · exact he.configOk (h.configs entry hmem')
    dirs := by
      intro key d hd
      obtain ⟨hlt, hnot, huniq⟩ := h.dirs key d hd
      refine ⟨hlt, fun e hmem hin => ?_, huniq⟩
      obtain ⟨e', hmem', hin'⟩ := htrash e hmem d hin
      exact hnot e' hmem' hin'
    trash := by
      intro e hmem d hd
      obtain ⟨e', hmem', hd'⟩ := htrash e hmem d hd
      exact h.trash e' hmem' d hd' }

/-- The checkout has an owner: a caller that holds its cell or its value, a load that leases it,
or a config that does. -/
def Owned (s : Store) (key : Key) (cell : Nat) : Prop :=
  (∃ x ∈ s.callers, x.key = key ∧ (x.treeCell = some cell ∨ x.tree = some cell)) ∨
    (∃ l ∈ s.loads, l.running = true ∧ l.key = key ∧ l.cell = cell) ∨
    ∃ c ∈ s.ownedConfigs, s.configValue c = some (key, cell)

theorem Sound.configOk_of_owned (h : Sound s) (hc : c ∈ s.ownedConfigs) :
    ConfigOk s c := by
  simp only [Store.ownedConfigs, List.mem_dedup, List.mem_append, List.mem_map,
    List.mem_filterMap, List.mem_flatMap] at hc
  obtain ((⟨e, hmem, rfl⟩ | ⟨x, hmem, hx⟩) | ⟨x, hmem, hx⟩) | ⟨e, hmem, hx⟩ := hc
  · exact h.configs e hmem
  · exact (h.callers x hmem).config c hx
  · exact ((h.callers x hmem).pinned c hx).1
  · exact h.evictors e hmem c hx

theorem Sound.slotted_of_owned (h : Sound s)
    (howned : Owned s key c) : Slotted s key c := by
  obtain ⟨x, hmem, rfl, hx | hx⟩ | ⟨l, hmem, hrun, rfl, rfl⟩ | ⟨config, hmem, hvalue⟩ := howned
  · exact (h.callers x hmem).cell c hx
  · exact ((h.callers x hmem).tree c hx).1
  · exact (h.loads l hmem hrun).1
  · exact ((h.configOk_of_owned hmem).2 key c hvalue).1

theorem Sound.inUse_of_owned (h : Sound s)
    (howned : Owned s key c) : s.treeInUse c = true := by
  obtain ⟨slot, hslot, rfl⟩ := h.slotted_of_owned howned
  have hself : 0 < s.trees.countP (·.2.cell == slot.cell) :=
    List.countP_pos_iff.mpr ⟨(key, slot), hslot, by simp⟩
  simp only [Store.treeInUse, Bool.or_eq_true, Bool.and_eq_true, decide_eq_true_eq]
  obtain ⟨x, hmem, rfl, hx | hx⟩ | ⟨l, hmem, hrun, rfl, hl⟩ | ⟨config, hmem, hvalue⟩ := howned
  · have : 0 < s.callers.countP (·.treeCell == some slot.cell) :=
      List.countP_pos_iff.mpr ⟨x, hmem, by simp [hx]⟩
    left
    unfold Store.treeCellCount
    omega
  · have : 0 < s.callers.countP (·.tree == some slot.cell) :=
      List.countP_pos_iff.mpr ⟨x, hmem, by simp [hx]⟩
    right
    refine ⟨by simp [Store.treeLoaded, ((h.callers x hmem).tree _ hx).2], ?_⟩
    unfold Store.treeCount
    omega
  · have : 0 < s.loads.countP (fun l => l.running && l.cell == slot.cell) :=
      List.countP_pos_iff.mpr ⟨l, hmem, by simp [hrun, hl]⟩
    right
    refine ⟨by simp [Store.treeLoaded, ← hl, (h.loads l hmem hrun).2], ?_⟩
    unfold Store.treeCount
    omega
  · have : 0 < s.ownedConfigs.countP
        fun c => (s.configValue c).any fun p => p.2 == slot.cell :=
      List.countP_pos_iff.mpr ⟨config, hmem, by simp [hvalue]⟩
    right
    refine ⟨by simp [Store.treeLoaded, ((h.configOk_of_owned hmem).2 _ _ hvalue).2], ?_⟩
    unfold Store.treeCount
    omega

theorem Sound.not_owned_of_evictable (h : Sound s) {order : SlotMap}
    (hperm : order.Perm s.trees) {keep : List Key} {n : Nat}
    (hkey : key ∈ evictable s.treeLoaded s.treeInUse order keep n) (c : Nat) :
    ¬ Owned s key c := by
  intro howned
  obtain ⟨slot, hmem, hcell⟩ := h.slotted_of_owned howned
  obtain ⟨-, -, slot', hmem', hfree⟩ := mem_evictable hkey
  obtain rfl := slot_unique h.treeKeys hmem (hperm.mem_iff.mp hmem')
  rw [hcell, h.inUse_of_owned howned] at hfree
  cases hfree

theorem Sound.evictTrees (h : Sound s) {order : SlotMap} {keep : List Key} {n : Nat}
    (hperm : order.Perm s.trees) {keys moved : List Key}
    (hkeys : keys = evictable s.treeLoaded s.treeInUse order keep n)
    (hmoved : ∀ key ∈ moved, key ∈ keys) (e : Nat) :
    Sound { s with
      trees := s.trees.filter fun entry => !keys.contains entry.1
      published := fun key => if moved.contains key then none else s.published key
      evictors := s.evictors.set e (.deleting (moved.filterMap s.published)) } := by
  set t : Store := { s with
    trees := s.trees.filter fun entry => !keys.contains entry.1
    published := fun key => if moved.contains key then none else s.published key
    evictors := s.evictors.set e (.deleting (moved.filterMap s.published)) } with ht
  have hslotted : ∀ key c, Slotted s key c → key ∉ keys → Slotted t key c := by
    rintro key c ⟨slot, hmem, rfl⟩ hnot
    exact ⟨slot, List.mem_filter.mpr ⟨hmem, by simpa using hnot⟩, rfl⟩
  have hback : ∀ key c, Slotted t key c → Slotted s key c ∧ key ∉ keys := by
    rintro key c ⟨slot, hmem, rfl⟩
    obtain ⟨hmem, hnot⟩ := List.mem_filter.mp hmem
    exact ⟨⟨slot, hmem, rfl⟩, by simpa using hnot⟩
  have hpublished : ∀ key, key ∉ keys → t.published key = s.published key := by
    intro key hnot
    have hnot' : key ∉ moved := fun hin => hnot (hmoved key hin)
    simp [ht, hnot']
  have howned : ∀ key c, Owned s key c → key ∉ keys := by
    intro key c hown hin
    rw [hkeys] at hin
    exact h.not_owned_of_evictable hperm hin c hown
  have hheld : ∀ key c, Held s key c → key ∉ keys → Held t key c :=
    fun key c hh hnot => ⟨hslotted key c hh.1 hnot, hh.2⟩
  have hconfig : ∀ c ∈ s.ownedConfigs, ConfigOk t c := by
    intro c hc
    have hok := h.configOk_of_owned hc
    refine ⟨hok.1, fun key tree hvalue => ?_⟩
    exact hheld key tree (hok.2 key tree hvalue)
      (howned key tree (.inr (.inr ⟨c, hc, hvalue⟩)))
  have hmem_owned : ∀ c, ((c ∈ s.configs.map (·.2.cell) ∨
      ∃ x ∈ s.callers, x.config = some c) ∨ ∃ x ∈ s.callers, x.pinned = some c) ∨
      (∃ e ∈ s.evictors, c ∈ e.slots) → c ∈ s.ownedConfigs := by
    intro c hc
    simpa only [Store.ownedConfigs, List.mem_dedup, List.mem_append, List.mem_filterMap,
      List.mem_flatMap] using hc
  exact {
    treeKeys := h.treeKeys.sublist (List.filter_sublist.map Prod.fst)
    configKeys := h.configKeys
    treeFresh := h.treeFresh
    configFresh := h.configFresh
    treeCells := fun e hmem => h.treeCells e (List.mem_of_mem_filter hmem)
    treeInj := fun key key' c hk hk' => h.treeInj key key' c (hback key c hk).1 (hback key' c hk').1
    ready := by
      intro key slot k hmem hvalue
      obtain ⟨hmem, hnot⟩ := List.mem_filter.mp hmem
      rw [hpublished key (by simpa using hnot)]
      exact h.ready key slot k hmem hvalue
    callers := by
      intro x hx
      have hok := h.callers x hx
      refine ⟨fun c hc => ?_, fun c hc => ?_, fun c j hstage => ?_, fun c hc => ?_, fun c hc => ?_⟩
      · exact hslotted x.key c (hok.cell c hc) (howned x.key c (.inl ⟨x, hx, rfl, .inl hc⟩))
      · exact hheld x.key c (hok.tree c hc) (howned x.key c (.inl ⟨x, hx, rfl, .inr hc⟩))
      · have hcell : x.treeCell = some c := by simp [Caller.treeCell, hstage]
        rw [hpublished x.key (howned x.key c (.inl ⟨x, hx, rfl, .inl hcell⟩))]
        exact hok.job c j hstage
      · exact hconfig c (hmem_owned c (.inl (.inl (.inr ⟨x, hx, hc⟩))))
      · exact ⟨hconfig c (hmem_owned c (.inl (.inr ⟨x, hx, hc⟩))), (hok.pinned c hc).2⟩
    loads := fun l hl hrun => hheld l.key l.cell (h.loads l hl hrun)
      (howned l.key l.cell (.inr (.inl ⟨l, hl, hrun, rfl, rfl⟩)))
    configs := fun entry hmem =>
      hconfig _ (hmem_owned _ (.inl (.inl (.inl (List.mem_map_of_mem hmem)))))
    evictors := by
      intro e' hmem c hc
      obtain hold | rfl := List.mem_or_eq_of_mem_set hmem
      · exact hconfig c (hmem_owned c (.inr ⟨e', hold, hc⟩))
      · cases hc
    dirs := by
      intro key d hd
      have hnot : key ∉ moved := by
        intro hin
        simp [ht, hin] at hd
      have hold : s.published key = some d := by simpa [ht, hnot] using hd
      obtain ⟨hlt, htrash, huniq⟩ := h.dirs key d hold
      refine ⟨hlt, fun e' hmem hin => ?_, fun key' hd' => ?_⟩
      · obtain hmem | rfl := List.mem_or_eq_of_mem_set hmem
        · exact htrash e' hmem hin
        · obtain ⟨key', hin', hd'⟩ := List.mem_filterMap.mp hin
          exact hnot (huniq key' hd' ▸ hin')
      · refine huniq key' ?_
        simp only [ht] at hd'
        split at hd'
        · cases hd'
        · exact hd'
    trash := by
      intro e' hmem d hd
      obtain hmem | rfl := List.mem_or_eq_of_mem_set hmem
      · exact h.trash e' hmem d hd
      · obtain ⟨key, -, hd⟩ := List.mem_filterMap.mp hd
        exact (h.dirs key d hd).1 }

theorem Sound.evictsAt (h : Sound s) {configs : SlotMap} (e : Nat) {evictor : Evictor}
    (hsub : configs.Sublist s.configs)
    (hslots : ∀ c ∈ evictor.slots, (∃ e' ∈ s.evictors, c ∈ e'.slots) ∨
      ∃ entry ∈ s.configs, entry.2.cell = c)
    (htrash : ∀ d ∈ evictor.trash, ∃ e' ∈ s.evictors, d ∈ e'.trash) :
    Sound { s with configs, evictors := s.evictors.set e evictor } := by
  refine h.evicts hsub (fun x hx c hc => ?_) fun x hx d hd => ?_
  · obtain hold | rfl := List.mem_or_eq_of_mem_set hx
    · exact .inl ⟨x, hold, hc⟩
    · exact hslots c hc
  · obtain hold | rfl := List.mem_or_eq_of_mem_set hx
    · exact ⟨x, hold, hd⟩
    · exact htrash d hd

theorem Sound.stepEvictor {keepRecent : Nat} {e : Nat} {evictor : Evictor}
    (h : Sound s) (hmem : s.evictors[e]? = some evictor)
    (hstep : s.stepEvictor keepRecent e evictor event = some t) : Sound t := by
  have hin : evictor ∈ s.evictors := List.mem_of_getElem? hmem
  unfold Store.stepEvictor at hstep
  split at hstep
  case h_1 keep e' order =>
    split at hstep
    case isTrue =>
      cases hstep
      refine h.evictsAt e List.filter_sublist (fun c hc => ?_) (by simp [Evictor.trash])
      obtain ⟨entry, hentry, rfl⟩ := List.mem_map.mp hc
      exact .inr ⟨entry, List.mem_of_mem_filter hentry, rfl⟩
    case isFalse => cases hstep
  case h_2 keep cells e' =>
    cases hstep
    exact h.evictsAt e (List.Sublist.refl _) (by simp [Evictor.slots]) (by simp [Evictor.trash])
  case h_3 keep e' order stuck =>
    split at hstep
    case isTrue hperm =>
      cases hstep
      exact h.evictTrees hperm rfl (fun key hkey => List.mem_of_mem_filter hkey) e
    case isFalse => cases hstep
  case h_4 d trash e' =>
    cases hstep
    exact h.evictsAt e (List.Sublist.refl _) (by simp [Evictor.slots])
      fun d' hd => ⟨_, hin, List.mem_cons_of_mem d hd⟩
  case h_5 => cases hstep

theorem Sound.unrelated (h : Sound s) (now : Nat) (objects : List Key) :
    Sound { s with now, objects } := by
  have he : Extends s { s with now, objects } :=
    .of_same (le_refl _) (fun _ _ => id) rfl rfl rfl rfl
  exact h.calls he rfl rfl rfl rfl rfl rfl (fun _ _ => .inl) h.configFresh
    (fun _ hx => .inl hx) (fun _ hl _ => .inl hl)

theorem Sound.step {keepRecent : Nat}
    (h : Sound s) (hstep : s.step keepRecent emptyTree event = some t) : Sound t := by
  cases event with
  | passes d =>
    cases hstep
    exact h.unrelated (s.now + d) s.objects
  | fetches key =>
    cases hstep
    exact h.unrelated s.now (key :: s.objects)
  | ensureTree key =>
    cases hstep
    refine h.treeSlot key fun x hx => ?_
    obtain hold | hnew := List.mem_append.mp hx
    · exact .inl hold
    right
    obtain rfl := List.mem_singleton.mp hnew
    refine ⟨?_, by simp [Caller.tree], by simp, by simp, by simp [Caller.pinned]⟩
    intro c hc
    obtain rfl : cellOf s.trees key s.nextCell = c := by
      simpa [Caller.treeCell, Store.onTree] using hc
    exact slotted_cellOf s key _
  | ensure key =>
    cases hstep
    exact h.configSlot key
  | startConfig i | takeConfig i | takeTree i | startTree i | spawnJob i | completesTree i
  | spawnLoad i | completesConfig i | leaves i | clones i =>
    obtain ⟨x, hx, hstep⟩ := Option.bind_eq_some_iff.mp hstep
    exact h.stepCaller hx hstep
  | jobFinds j | jobBuilds j | jobPublishes j | jobFails j =>
    obtain ⟨job, hjob, hstep⟩ := Option.bind_eq_some_iff.mp hstep
    exact h.stepJob hjob hstep
  | loadEnds l =>
    obtain ⟨load, hload, hstep⟩ := Option.bind_eq_some_iff.mp hstep
    split at hstep
    · cases hstep
      exact h.endLoad l
    · cases hstep
  | evict keep =>
    cases hstep
    refine h.evicts (List.Sublist.refl _) ?_ ?_
    · intro x hx c hc
      obtain hold | hnew := List.mem_append.mp hx
      · exact .inl ⟨x, hold, hc⟩
      · obtain rfl := List.mem_singleton.mp hnew
        cases hc
    · intro x hx d hd
      obtain hold | hnew := List.mem_append.mp hx
      · exact ⟨x, hold, hd⟩
      · obtain rfl := List.mem_singleton.mp hnew
        cases hd
  | evictConfigs e order | dropConfigs e | evictTrees e order stuck | deletes e =>
    obtain ⟨evictor, he, hstep⟩ := Option.bind_eq_some_iff.mp hstep
    exact h.stepEvictor he hstep

theorem Sound.initial : Sound {} := by
  refine ⟨?_, ?_, ?_, ?_, ?_, ?_, ?_, ?_, ?_, ?_, ?_, ?_, ?_⟩
  all_goals simp [Slotted]

theorem sound_of_exec {keepRecent : Nat} {events : List Event}
    (hrun : exec (Store.step keepRecent emptyTree) {} events = some s) : Sound s :=
  exec_invariant Sound (fun _ _ _ h (_ : True) hstep => h.step hstep) Sound.initial
    (.of_forall (fun _ _ => trivial) _ _) hrun

/-! ## What eviction takes away -/

/-- A caller has a handle on the checkout: the tree itself, the config over it, or a blocking
load that leases it. -/
def Handle (s : Store) (key : Key) : Prop :=
  (∃ x ∈ s.callers, x.key = key ∧ x.tree.isSome) ∨
    (∃ l ∈ s.loads, l.running = true ∧ l.key = key) ∨
    ∃ c ∈ s.ownedConfigs, ∃ tree, s.configValue c = some (key, tree)

def Initialising (s : Store) (key : Key) : Prop :=
  ∃ x ∈ s.callers, x.key = key ∧ x.treeCell.isSome

def ConfigHeld (s : Store) (key : Key) : Prop :=
  ∃ slot, (key, slot) ∈ s.configs ∧
    ∃ x ∈ s.callers, x.config = some slot.cell ∨ x.pinned = some slot.cell

theorem Sound.published_of_handle (h : Sound s) (hh : Handle s key) :
    ∃ d, s.published key = some d := by
  have hheld : ∃ c, Held s key c := by
    obtain ⟨x, hmem, rfl, hx⟩ | ⟨l, hmem, hrun, rfl⟩ | ⟨c, hmem, tree, hvalue⟩ := hh
    · obtain ⟨c, hc⟩ := Option.isSome_iff_exists.mp hx
      exact ⟨c, (h.callers x hmem).tree c hc⟩
    · exact ⟨l.cell, h.loads l hmem hrun⟩
    · exact ⟨tree, (h.configOk_of_owned hmem).2 key tree hvalue⟩
  obtain ⟨c, ⟨slot, hmem, rfl⟩, hvalue⟩ := hheld
  exact Option.isSome_iff_exists.mp (h.ready key slot key hmem hvalue).2

theorem owned_of_handle (hh : Handle s key) : ∃ c, Owned s key c := by
  obtain ⟨x, hmem, hkey, hx⟩ | ⟨l, hmem, hrun, hkey⟩ | ⟨c, hmem, tree, hvalue⟩ := hh
  · obtain ⟨c, hc⟩ := Option.isSome_iff_exists.mp hx
    exact ⟨c, .inl ⟨x, hmem, hkey, .inr hc⟩⟩
  · exact ⟨l.cell, .inr (.inl ⟨l, hmem, hrun, hkey, rfl⟩)⟩
  · exact ⟨tree, .inr (.inr ⟨c, hmem, hvalue⟩)⟩

theorem Sound.configInUse_of_held (h : Sound s) {slot : Slot}
    (hmem : (key, slot) ∈ s.configs) (hx : x ∈ s.callers)
    (hheld : x.config = some slot.cell ∨ x.pinned = some slot.cell) :
    s.configInUse slot.cell = true := by
  simp only [Store.configInUse, Bool.or_eq_true, Bool.and_eq_true, decide_eq_true_eq]
  obtain hc | hc := hheld
  · have hself : 0 < s.configs.countP (·.2.cell == slot.cell) :=
      List.countP_pos_iff.mpr ⟨(key, slot), hmem, by simp⟩
    have : 0 < s.callers.countP (·.config == some slot.cell) :=
      List.countP_pos_iff.mpr ⟨x, hx, by simp [hc]⟩
    left
    unfold Store.configCellCount
    omega
  · have : 0 < s.callers.countP (·.pinned == some slot.cell) :=
      List.countP_pos_iff.mpr ⟨x, hx, by simp [hc]⟩
    right
    refine ⟨((h.callers x hx).pinned _ hc).2, ?_⟩
    unfold Store.pinnedCount
    omega

theorem owned_of_initialising (hh : Initialising s key) :
    ∃ c, Owned s key c := by
  obtain ⟨x, hmem, hkey, hx⟩ := hh
  obtain ⟨c, hc⟩ := Option.isSome_iff_exists.mp hx
  exact ⟨c, .inl ⟨x, hmem, hkey, .inl hc⟩⟩

theorem stepCaller_published {i : Nat}
    (hstep : s.stepCaller i x event = some t) : t.published = s.published := by
  unfold Store.stepCaller at hstep
  split at hstep
  case h_1 | h_2 =>
    simp only [Option.bind_eq_bind, Option.bind_eq_some_iff, Option.guard_eq_some'] at hstep
    obtain ⟨c, hc, _, -, hstep⟩ := hstep
    cases hstep
    rfl
  case h_9 =>
    cases hstep
    rfl
  case h_11 => cases hstep
  all_goals
    repeat' split at hstep
    all_goals first
      | cases hstep; done
      | obtain rfl := Option.some.inj hstep; rfl

theorem stepJob_published {job : Job}
    (hstep : s.stepJob emptyTree j job event = some t)
    (hkey : (s.published key).isSome) : (t.published key).isSome := by
  unfold Store.stepJob at hstep
  split at hstep
  case h_3 =>
    split at hstep
    case isTrue =>
      split at hstep
      case isTrue =>
        cases hstep
        by_cases heq : key = job.key
        · subst heq
          simp
        · simpa [heq] using hkey
      case isFalse =>
        cases hstep
        exact hkey
    case isFalse => cases hstep
  all_goals
    repeat' split at hstep
    all_goals first
      | cases hstep; done
      | obtain rfl := Option.some.inj hstep; exact hkey

theorem unpublished_by {keepRecent : Nat}
    (hstep : s.step keepRecent emptyTree event = some t)
    (hkey : (s.published key).isSome) (hgone : t.published key = none) :
    ∃ e order stuck keep, event = .evictTrees e order stuck ∧
      s.evictors[e]? = some (.dropped keep) ∧ order.Perm s.trees ∧
      key ∈ evictable s.treeLoaded s.treeInUse order keep keepRecent := by
  have hkept : ∀ u : Store, t = u → (u.published key).isSome → False := by
    rintro u rfl hsome
    rw [hgone] at hsome
    cases hsome
  cases event with
  | passes d | fetches key' | ensureTree key' | ensure key' | evict keep =>
    cases hstep
    exact (hkept _ rfl hkey).elim
  | startConfig i | takeConfig i | takeTree i | startTree i | spawnJob i | completesTree i
  | spawnLoad i | completesConfig i | leaves i | clones i =>
    obtain ⟨x, hx, hstep⟩ := Option.bind_eq_some_iff.mp hstep
    rw [← stepCaller_published hstep, hgone] at hkey
    cases hkey
  | jobFinds j | jobBuilds j | jobPublishes j | jobFails j =>
    obtain ⟨job, hjob, hstep⟩ := Option.bind_eq_some_iff.mp hstep
    exact (hkept t rfl (stepJob_published hstep hkey)).elim
  | loadEnds l =>
    obtain ⟨load, hload, hstep⟩ := Option.bind_eq_some_iff.mp hstep
    split at hstep
    · cases hstep
      exact (hkept _ rfl hkey).elim
    · cases hstep
  | evictConfigs e order =>
    obtain ⟨evictor, he, hstep⟩ := Option.bind_eq_some_iff.mp hstep
    cases evictor with
    | starting keep =>
      simp only [Store.stepEvictor] at hstep
      split at hstep
      · cases hstep
        exact (hkept _ rfl hkey).elim
      · cases hstep
    | dropping | dropped => cases hstep
    | deleting trash => cases trash <;> cases hstep
  | dropConfigs e =>
    obtain ⟨evictor, he, hstep⟩ := Option.bind_eq_some_iff.mp hstep
    cases evictor with
    | dropping keep cells =>
      cases hstep
      exact (hkept _ rfl hkey).elim
    | starting | dropped => cases hstep
    | deleting trash => cases trash <;> cases hstep
  | deletes e =>
    obtain ⟨evictor, he, hstep⟩ := Option.bind_eq_some_iff.mp hstep
    cases evictor with
    | starting | dropping | dropped => cases hstep
    | deleting trash =>
      cases trash with
      | nil => cases hstep
      | cons d trash =>
        cases hstep
        exact (hkept _ rfl hkey).elim
  | evictTrees e order stuck =>
    obtain ⟨evictor, he, hstep⟩ := Option.bind_eq_some_iff.mp hstep
    cases evictor with
    | starting | dropping =>
      cases hstep
    | deleting trash =>
      cases trash <;> cases hstep
    | dropped keep =>
      simp only [Store.stepEvictor] at hstep
      split at hstep
      case isTrue hperm =>
        cases hstep
        refine ⟨e, order, stuck, keep, rfl, he, hperm, ?_⟩
        by_contra hnot
        simp only [List.contains_eq_mem, List.mem_filter, hnot, false_and, decide_false]
          at hgone
        exact hkept s (by simp_all) hkey
      case isFalse => cases hstep

/--
In every state of every run, what somebody has a handle on is published and is not deleted, and an
eviction takes away only what is not kept, leased, being initialised or recent; and likewise for
the configs.
-/
theorem eviction_safe (keepRecent : Nat) (emptyTree : Key → Bool) (events : List Event) (s : Store)
    (hrun : exec (Store.step keepRecent emptyTree) {} events = some s) :
    (∀ key, Handle s key →
      ∃ d, s.published key = some d ∧ ∀ e ∈ s.evictors, d ∉ e.trash) ∧
    (∀ e ∈ s.evictors, ∀ d ∈ e.trash, ∀ key, s.published key ≠ some d) ∧
    (∀ event t, s.step keepRecent emptyTree event = some t →
      ∀ key, (s.published key).isSome → t.published key = none →
        ∃ e order stuck keep, event = .evictTrees e order stuck ∧
          s.evictors[e]? = some (.dropped keep) ∧ key ∉ keep ∧ ¬ Handle s key ∧
          ¬ Initialising s key ∧ ¬ Recent s.treeLoaded s.trees keepRecent key) ∧
    (∀ e order t, s.step keepRecent emptyTree (.evictConfigs e order) = some t →
      ∀ key slot, (key, slot) ∈ s.configs → (key, slot) ∉ t.configs →
        ∃ keep, s.evictors[e]? = some (.starting keep) ∧ key ∉ keep ∧ ¬ ConfigHeld s key ∧
          ¬ Recent s.configLoaded s.configs keepRecent key) := by
  have h := sound_of_exec hrun
  refine ⟨?_, ?_, ?_, ?_⟩
  · intro key hh
    obtain ⟨d, hd⟩ := h.published_of_handle hh
    exact ⟨d, hd, (h.dirs key d hd).2.1⟩
  · intro e he d hd key hkey
    exact (h.dirs key d hkey).2.1 e he hd
  · intro event t hstep key hkey hgone
    obtain ⟨e, order, stuck, keep, rfl, he, hperm, hin⟩ := unpublished_by hstep hkey hgone
    obtain ⟨hkeep, hrecent, -⟩ := mem_evictable hin
    refine ⟨e, order, stuck, keep, rfl, he, hkeep, fun hh => ?_, fun hh => ?_, fun hh => ?_⟩
    · obtain ⟨c, hc⟩ := owned_of_handle hh
      exact h.not_owned_of_evictable hperm hin c hc
    · obtain ⟨c, hc⟩ := owned_of_initialising hh
      exact h.not_owned_of_evictable hperm hin c hc
    · exact hrecent (recent_mem_mostRecent h.treeKeys hperm hh)
  · intro e order t hstep key slot hmem hgone
    obtain ⟨evictor, he, hstep⟩ := Option.bind_eq_some_iff.mp hstep
    cases evictor with
    | dropping | dropped => cases hstep
    | deleting trash => cases trash <;> cases hstep
    | starting keep =>
      simp only [Store.stepEvictor] at hstep
      split at hstep
      case isTrue hperm =>
        cases hstep
        have hin : key ∈ evictable s.configLoaded s.configInUse order keep keepRecent := by
          by_contra hnot
          exact hgone (List.mem_filter.mpr ⟨hmem, by simpa using hnot⟩)
        obtain ⟨hkeep, hrecent, slot', hmem', hfree⟩ := mem_evictable hin
        refine ⟨keep, he, hkeep, ?_, fun hh => ?_⟩
        · rintro ⟨slot'', hslot, x, hx, hheld⟩
          obtain rfl := slot_unique h.configKeys hslot (hperm.mem_iff.mp hmem')
          rw [h.configInUse_of_held hslot hx hheld] at hfree
          cases hfree
        · exact hrecent (recent_mem_mostRecent h.configKeys hperm hh)
      case isFalse => cases hstep

def evictBesideHandle : List Event :=
  [.fetches ("w", "a"), .fetches ("w", "b"),
   .ensureTree ("w", "a"), .startTree 0, .spawnJob 0, .jobBuilds 0, .jobPublishes 0,
   .completesTree 0,
   .ensureTree ("w", "b"), .startTree 1, .spawnJob 1, .jobBuilds 1, .jobPublishes 1,
   .completesTree 1, .leaves 1,
   .evict [], .evictConfigs 0 [], .dropConfigs 0,
   .evictTrees 0 [(("w", "a"), ⟨0, 0⟩), (("w", "b"), ⟨1, 0⟩)] []]

theorem eviction_safe_besideHandle :
    ∃ s, exec (Store.step 0 fun _ => false) {} evictBesideHandle = some s ∧
      s.evictors = [.deleting [1]] ∧ s.published ("w", "b") = none ∧
      ∃ d, s.published ("w", "a") = some d ∧ ∀ e ∈ s.evictors, d ∉ e.trash := by
  have hrun : (exec (Store.step 0 fun _ => false) {} evictBesideHandle).isSome := by
    decide +kernel
  obtain ⟨s, hs⟩ := Option.isSome_iff_exists.mp hrun
  have hmap : (exec (Store.step 0 fun _ => false) {} evictBesideHandle).map
      (fun s => (s.evictors, s.published ("w", "b"), s.callers)) =
      some ([.deleting [1]], none, [{ key := ("w", "a"), stage := .hasTree 0 }]) := by
    decide +kernel
  rw [hs, Option.map_some, Option.some.injEq, Prod.mk.injEq, Prod.mk.injEq] at hmap
  obtain ⟨hevictors, hgone, hcallers⟩ := hmap
  refine ⟨s, hs, hevictors, hgone, ?_⟩
  refine (eviction_safe 0 (fun _ => false) evictBesideHandle s hs).1 ("w", "a") (.inl ?_)
  exact ⟨{ key := ("w", "a"), stage := .hasTree 0 }, by simp [hcallers], rfl, rfl⟩

end Stroem.Pins
