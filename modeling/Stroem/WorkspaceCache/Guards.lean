import Stroem.WorkspaceCache
import Stroem.Foundation.Runs
import Mathlib.Data.List.Count

/-!
# Guards and cleanups

Three things should hold in every state: a guarded directory is whole, an extraction has its
temporary directory, and the count in the map is the number of guards.  A few operations can end
them; `Undisturbed` says in which states they do not.
-/

namespace Stroem.WorkspaceCache

open Foundation

variable {call : Nat} {t : State}

def Unpacking (s : State) (dir : Dir) : Prop :=
  ∃ call workspace revision pinned, s.calls call = .unpacks workspace revision pinned ∧
    tmpDir workspace revision = dir

def Unguarded (s : State) (dir : Dir) : Prop := ∀ counter ∈ s.guards, counter.1 ≠ dir

structure Safe (s : State) : Prop where
  kept : ∀ counter ∈ s.guards, s.dirs counter.1 = .whole
  unpacking : ∀ dir, Unpacking s dir → s.dirs dir = .whole
  counted : ∀ dir, s.count dir = s.guards.countP fun counter => counter.1 = dir

/-- The operation meets nobody: a guard is taken on a directory that is still whole, through the
counter that is still in the map; what is removed, or moved away, or forgotten by the map has no
guard, and nothing is being unpacked into what a cleanup removes. -/
def Undisturbed (s : State) : Event → Prop
  | .increments call _ => ∀ workspace revision serial pinned locked,
      s.calls call = .counts workspace revision serial pinned locked →
        s.dirs (revDir workspace revision) = .whole ∧
          s.refs (revDir workspace revision) = some serial
  | .locks call => ∀ workspace revision pinned,
      s.calls call = .extracts workspace revision pinned →
        sanitizeRevisionForDir revision ≠ "" → s.isDir (revDir workspace revision) = false →
          Unguarded s (tmpDir workspace revision)
  | .renames call => ∀ workspace revision pinned,
      s.calls call = .unpacks workspace revision pinned →
        Unguarded s (tmpDir workspace revision)
  | .begins cleanup => ∀ dir, (s.cleanups cleanup).target = some dir →
      Unguarded s dir ∧ ¬ Unpacking s dir
  | .finishes cleanup removed => removed = true → ∀ dir,
      (s.cleanups cleanup).target = some dir → Unguarded s dir ∧ ¬ Unpacking s dir
  | .forgets cleanup => ∀ workspace name items,
      s.cleanups cleanup = .forgets workspace name items → Unguarded s (workspace, name)
  | _ => True

structure Sound (s : State) : Prop where
  values : ∀ counter, s.values counter = s.guards.count counter
  refs : ∀ dir serial, s.refs dir = some serial → serial < s.made dir
  guards : ∀ counter ∈ s.guards, counter.2 < s.made counter.1
  calls : ∀ call workspace revision serial pinned locked,
    s.calls call = .counts workspace revision serial pinned locked →
      serial < s.made (revDir workspace revision)
  held : ∀ call workspace, (s.calls call).holds = some workspace →
    s.locks workspace = some call

/-! ## What safety depends on -/

section Frames

variable {s : State}

@[simp] theorem setDir_dirs_self (dir : Dir) (state : DirState) :
    (s.setDir dir state).dirs dir = state := by simp [State.setDir]

theorem setDir_dirs_of_ne {dir other : Dir} (h : other ≠ dir) (state : DirState) :
    (s.setDir dir state).dirs other = s.dirs other := by simp [State.setDir, h]

@[simp] theorem setCall_calls_self (call : Nat) (phase : Call) :
    (s.setCall call phase).calls call = phase := by simp [State.setCall]

theorem setCall_calls_of_ne {other : Nat} (h : other ≠ call) (phase : Call) :
    (s.setCall call phase).calls other = s.calls other := by simp [State.setCall, h]

theorem Safe.congr (h : Safe s) (hdirs : t.dirs = s.dirs)
    (hguards : t.guards = s.guards) (hcount : ∀ dir, t.count dir = s.count dir)
    (hunpacking : ∀ dir, Unpacking t dir → Unpacking s dir) : Safe t := by
  refine ⟨?_, fun dir hdir => ?_, fun dir => ?_⟩
  · rw [hdirs, hguards]
    exact h.kept
  · rw [hdirs]
    exact h.unpacking dir (hunpacking dir hdir)
  · rw [hcount, hguards]
    exact h.counted dir

theorem safe_setLock_iff (workspace : String) (holder : Option Nat) :
    Safe (s.setLock workspace holder) ↔ Safe s :=
  ⟨fun h => h.congr rfl rfl (fun _ => rfl) fun _ hdir => hdir,
    fun h => h.congr rfl rfl (fun _ => rfl) fun _ hdir => hdir⟩

theorem safe_setCleanup_iff (cleanup : Nat) (phase : Cleanup) :
    Safe (s.setCleanup cleanup phase) ↔ Safe s :=
  ⟨fun h => h.congr rfl rfl (fun _ => rfl) fun _ hdir => hdir,
    fun h => h.congr rfl rfl (fun _ => rfl) fun _ hdir => hdir⟩

theorem setCurrent_eq (workspace revision : String) (pinned : Bool) :
    ∃ current, s.setCurrent workspace revision pinned = { s with current := current } := by
  unfold State.setCurrent
  split
  · exact ⟨s.current, rfl⟩
  · exact ⟨_, rfl⟩

theorem safe_setCurrent_iff (workspace revision : String) (pinned : Bool) :
    Safe (s.setCurrent workspace revision pinned) ↔ Safe s := by
  obtain ⟨current, heq⟩ := setCurrent_eq (s := s) workspace revision pinned
  rw [heq]
  exact ⟨fun h => h.congr rfl rfl (fun _ => rfl) fun _ hdir => hdir,
    fun h => h.congr rfl rfl (fun _ => rfl) fun _ hdir => hdir⟩

theorem Unpacking.of_setCall {phase : Call} {dir : Dir}
    (h : Unpacking (s.setCall call phase) dir) :
    (∃ workspace revision pinned, phase = .unpacks workspace revision pinned ∧
      tmpDir workspace revision = dir) ∨ Unpacking s dir := by
  obtain ⟨call', workspace, revision, pinned, hcall, hdir⟩ := h
  by_cases heq : call' = call
  · subst heq
    rw [setCall_calls_self] at hcall
    exact .inl ⟨workspace, revision, pinned, hcall, hdir⟩
  · rw [setCall_calls_of_ne heq] at hcall
    exact .inr ⟨call', workspace, revision, pinned, hcall, hdir⟩

theorem Safe.setCall (h : Safe s) (call : Nat) {phase : Call}
    (hphase : ∀ workspace revision pinned, phase ≠ .unpacks workspace revision pinned) :
    Safe (s.setCall call phase) := by
  refine h.congr rfl rfl (fun _ => rfl) fun dir hdir => ?_
  obtain ⟨workspace, revision, pinned, heq, -⟩ | hdir := hdir.of_setCall
  · exact absurd heq (hphase workspace revision pinned)
  · exact hdir

theorem safe_of_setCall {phase : Call} (h : Safe (s.setCall call phase))
    (hphase : ∀ workspace revision pinned, s.calls call ≠ .unpacks workspace revision pinned) :
    Safe s := by
  refine h.congr rfl rfl (fun _ => rfl) fun dir hdir => ?_
  obtain ⟨call', workspace, revision, pinned, hcall, hdir⟩ := hdir
  refine ⟨call', workspace, revision, pinned, ?_, hdir⟩
  have hne : call' ≠ call := by
    rintro rfl
    exact hphase workspace revision pinned hcall
  rw [setCall_calls_of_ne hne, hcall]

theorem Safe.setDir_whole (h : Safe s) (dir : Dir) : Safe (s.setDir dir .whole) := by
  have hwhole : ∀ other, s.dirs other = .whole → (s.setDir dir .whole).dirs other = .whole := by
    intro other hother
    by_cases heq : other = dir
    · rw [heq, setDir_dirs_self]
    · rw [setDir_dirs_of_ne heq, hother]
  exact ⟨fun counter hmem => hwhole _ (h.kept counter hmem),
    fun other hother => hwhole _ (h.unpacking other hother), h.counted⟩

theorem safe_setDir_iff (h : Safe s) {dir : Dir} {state : DirState} (hstate : state ≠ .whole) :
    Safe (s.setDir dir state) ↔ Unguarded s dir ∧ ¬ Unpacking s dir := by
  constructor
  · intro ht
    refine ⟨fun counter hmem heq => ?_, fun hunpacking => ?_⟩
    · have hwhole := ht.kept counter hmem
      rw [heq, setDir_dirs_self] at hwhole
      exact hstate hwhole
    · have hwhole := ht.unpacking dir hunpacking
      rw [setDir_dirs_self] at hwhole
      exact hstate hwhole
  · rintro ⟨hfree, hnot⟩
    refine ⟨fun counter hmem => ?_, fun other hunpacking => ?_, h.counted⟩
    · rw [setDir_dirs_of_ne (hfree counter hmem)]
      exact h.kept counter hmem
    · have hne : other ≠ dir := by
        rintro rfl
        exact hnot hunpacking
      rw [setDir_dirs_of_ne hne]
      exact h.unpacking other hunpacking

theorem Safe.free_of_absent (h : Safe s) {dir : Dir} (habsent : s.isDir dir = false) :
    Unguarded s dir ∧ ¬ Unpacking s dir := by
  have hne : s.dirs dir = .absent := by simpa [State.isDir] using habsent
  refine ⟨fun counter hmem heq => ?_, fun hunpacking => ?_⟩
  · have hwhole := h.kept counter hmem
    rw [heq, hne] at hwhole
    cases hwhole
  · have hwhole := h.unpacking dir hunpacking
    rw [hne] at hwhole
    cases hwhole

theorem safe_damage_iff (h : Safe s) (dir : Dir) :
    Safe (s.damage dir) ↔ Unguarded s dir ∧ ¬ Unpacking s dir := by
  unfold State.damage
  split
  · exact safe_setDir_iff h (by decide)
  · next habsent => exact iff_of_true h (h.free_of_absent (by simpa using habsent))

end Frames

/-! ## Calls and cleanups that move on -/

section Moves

variable {s : State}

/-- A call without a lock moves on, or a cleanup does, and nothing else changes. -/
inductive Moves (s : State) : State → Prop
  | call (call : Nat) {phase : Call} : phase.holds = none →
      (∀ workspace revision serial pinned locked,
        phase ≠ .counts workspace revision serial pinned locked) → Moves s (s.setCall call phase)
  | cleanup (cleanup : Nat) (phase : Cleanup) : Moves s (s.setCleanup cleanup phase)

def Event.isMove : Event → Bool
  | .ensureRevision _ _ _ | .ensureUpToDate _ _ | .answers _ _ => true
  | .lists _ _ | .checks _ | .ends _ => true
  | _ => false

theorem step_moves {maxRetained : Nat} {event : Event} (hmove : event.isMove = true)
    (hstep : s.step maxRetained event = some t) : Moves s t := by
  cases event with
  | answers call revision =>
    simp only [State.step, State.answer] at hstep
    repeat' split at hstep
    all_goals
      cases hstep
      try exact .call call rfl (by simp)
  | ensureRevision call _ _ | ensureUpToDate call _ =>
    simp only [State.step] at hstep
    split at hstep
    · cases hstep
      exact .call call rfl (by simp)
    · cases hstep
  | lists cleanup _ | checks cleanup | ends cleanup =>
    simp only [State.step, State.list, State.check] at hstep
    repeat' split at hstep
    all_goals
      cases hstep
      try exact .cleanup cleanup _
  | _ => cases hmove

end Moves

/-! ## What every operation keeps -/

section Sound

variable {s : State}

theorem Sound.setCall (h : Sound s) (call : Nat) {phase : Call}
    (hcounts : ∀ workspace revision serial pinned locked,
      phase = .counts workspace revision serial pinned locked →
        serial < s.made (revDir workspace revision))
    (hheld : ∀ workspace, phase.holds = some workspace → s.locks workspace = some call) :
    Sound (s.setCall call phase) := by
  refine ⟨h.values, h.refs, h.guards, ?_, ?_⟩
  · intro call' workspace revision serial pinned locked hcall
    by_cases heq : call' = call
    · subst heq
      rw [setCall_calls_self] at hcall
      exact hcounts _ _ _ _ _ hcall
    · rw [setCall_calls_of_ne heq] at hcall
      exact h.calls _ _ _ _ _ _ hcall
  · intro call' workspace hholds
    by_cases heq : call' = call
    · subst heq
      rw [setCall_calls_self] at hholds
      exact hheld _ hholds
    · rw [setCall_calls_of_ne heq] at hholds
      exact h.held _ _ hholds

theorem Sound.setLock (h : Sound s) {workspace : String}
    (hfree : ∀ call, (s.calls call).holds ≠ some workspace) (holder : Option Nat) :
    Sound (s.setLock workspace holder) := by
  refine ⟨h.values, h.refs, h.guards, h.calls, fun call workspace' hholds => ?_⟩
  have hne : workspace' ≠ workspace := by
    rintro rfl
    exact hfree call hholds
  have hlock : (s.setLock workspace holder).locks workspace' = s.locks workspace' := by
    simp [State.setLock, hne]
  rw [hlock]
  exact h.held call workspace' hholds

theorem Sound.setDir (h : Sound s) (dir : Dir) (state : DirState) : Sound (s.setDir dir state) :=
  ⟨h.values, h.refs, h.guards, h.calls, h.held⟩

theorem Sound.damage (h : Sound s) (dir : Dir) : Sound (s.damage dir) := by
  unfold State.damage
  split
  · exact h.setDir dir .removing
  · exact h

theorem Sound.setCleanup (h : Sound s) (cleanup : Nat) (phase : Cleanup) :
    Sound (s.setCleanup cleanup phase) :=
  ⟨h.values, h.refs, h.guards, h.calls, h.held⟩

theorem Sound.setCurrent (h : Sound s) (workspace revision : String) (pinned : Bool) :
    Sound (s.setCurrent workspace revision pinned) := by
  obtain ⟨current, heq⟩ := setCurrent_eq (s := s) workspace revision pinned
  rw [heq]
  exact ⟨h.values, h.refs, h.guards, h.calls, h.held⟩

theorem Sound.free_of_unlocked (h : Sound s) {workspace : String} (hlock : s.locks workspace = none)
    (call : Nat) : (s.calls call).holds ≠ some workspace := by
  intro hholds
  rw [h.held call workspace hholds] at hlock
  cases hlock

theorem Sound.release (h : Sound s) {workspace : String}
    (hholds : (s.calls call).holds = some workspace) {phase : Call} (hphase : phase.holds = none)
    (hcounts : ∀ workspace revision serial pinned locked,
      phase ≠ .counts workspace revision serial pinned locked) :
    Sound ((s.setLock workspace none).setCall call phase) := by
  have hcall : Sound (s.setCall call phase) :=
    h.setCall call (fun _ _ _ _ _ heq => absurd heq (hcounts _ _ _ _ _)) (by simp [hphase])
  refine hcall.setLock (fun call' hother => ?_) none
  by_cases heq : call' = call
  · rw [heq, setCall_calls_self, hphase] at hother
    cases hother
  · rw [setCall_calls_of_ne heq] at hother
    have hsame := (h.held call' workspace hother).symm.trans (h.held call workspace hholds)
    exact heq (Option.some.inj hsame)

theorem Sound.stop (h : Sound s) (call : Nat) : Sound ((s.unlock call).setCall call .idle) := by
  unfold State.unlock
  cases hholds : (s.calls call).holds with
  | none => exact h.setCall call (by simp) (by simp [Call.holds])
  | some workspace => exact h.release hholds rfl (by simp)

theorem Sound.takeLock (h : Sound s) (hstep : s.takeLock call = some t) :
    Sound t := by
  unfold State.takeLock at hstep
  split at hstep
  · split at hstep
    · next workspace revision _ hlock =>
      cases hstep
      refine (h.setLock (h.free_of_unlocked hlock) (some call)).setCall call (by simp) ?_
      intro workspace' hholds
      cases hholds
      simp [State.setLock]
    · cases hstep
  · split at hstep
    · next workspace revision pinned _ hlock =>
      split at hstep
      · cases hstep
        exact h.setCall call (by simp) (by simp [Call.holds])
      · split at hstep
        · cases hstep
          exact (h.setCurrent workspace revision pinned).setCall call (by simp)
            (by simp [Call.holds])
        · cases hstep
          refine ((h.setLock (h.free_of_unlocked hlock) (some call)).setDir _ .absent).setCall call
            (by simp) ?_
          intro workspace' hholds
          cases hholds
          simp [State.setLock, State.setDir]
    · cases hstep
  · cases hstep

theorem Sound.look (h : Sound s) (hstep : s.look call = some t) :
    Sound t := by
  unfold State.look at hstep
  split at hstep
  · next workspace revision hphase =>
    have hholds : (s.calls call).holds = some workspace := by rw [hphase]; rfl
    split at hstep
    · cases hstep
      refine h.setCall call (by simp) fun workspace' hholds' => ?_
      cases hholds'
      exact h.held call _ hholds
    · cases hstep
      exact h.release hholds rfl (by simp)
  · cases hstep

theorem Sound.moves (h : Sound s) (hmoves : Moves s t) : Sound t := by
  cases hmoves with
  | call call hholds hcounts =>
    exact h.setCall call (fun _ _ _ _ _ heq => absurd heq (hcounts _ _ _ _ _)) (by simp [hholds])
  | cleanup cleanup phase => exact h.setCleanup cleanup phase

theorem Sound.create (h : Sound s) (hstep : s.create call = some t) :
    Sound t := by
  unfold State.create at hstep
  split at hstep
  · next workspace revision pinned hphase =>
    have hholds : (s.calls call).holds = some workspace := by rw [hphase]; rfl
    cases hstep
    refine (h.setDir _ .whole).setCall call (by simp) fun workspace' hholds' => ?_
    cases hholds'
    exact h.held call _ hholds
  · cases hstep

theorem Sound.rename (h : Sound s) (hstep : s.rename call = some t) :
    Sound t := by
  unfold State.rename at hstep
  split at hstep
  · next workspace revision pinned hphase =>
    split at hstep
    · cases hstep
      have hmoved := ((h.setDir (revDir workspace revision)
        (s.dirs (tmpDir workspace revision))).setDir (tmpDir workspace revision)
          .absent).setCurrent workspace revision pinned
      refine hmoved.release ?_ rfl (by simp)
      unfold State.setCurrent
      split <;> simp [State.setDir, hphase, Call.holds]
    · cases hstep
  · cases hstep

theorem Sound.addRef (h : Sound s) (dir : Dir) : Sound (s.addRef dir) := by
  -- the counter is new, so nobody has it yet
  have hnew : s.guards.count (dir, s.made dir) = 0 := by
    refine List.count_eq_zero_of_not_mem fun hmem => ?_
    exact absurd (h.guards _ hmem) (Nat.lt_irrefl _)
  have hgrows : ∀ other n, n < s.made other → n < (s.addRef dir).made other := by
    intro other n hn
    by_cases heq : other = dir
    · subst heq
      simp only [State.addRef, Function.update_self]
      omega
    · simpa only [State.addRef, Function.update_of_ne heq] using hn
  refine ⟨fun counter => ?_, fun other serial href => ?_, fun counter hmem => ?_, ?_, h.held⟩
  · by_cases heq : counter = (dir, s.made dir)
    · subst heq
      simp [State.addRef, hnew]
    · simp only [State.addRef, Function.update_of_ne heq]
      exact h.values counter
  · by_cases heq : other = dir
    · subst heq
      simp only [State.addRef, Function.update_self, Option.some.injEq] at href ⊢
      omega
    · simp only [State.addRef, Function.update_of_ne heq] at href ⊢
      exact h.refs other serial href
  · exact hgrows _ _ (h.guards counter hmem)
  · intro call workspace revision serial pinned locked hcall
    exact hgrows _ _ (h.calls _ _ _ _ _ _ hcall)

theorem Sound.fetch (h : Sound s) (hstep : s.fetch call = some t) :
    Sound t := by
  unfold State.fetch at hstep
  split at hstep
  · next workspace revision pinned locked hphase =>
    have hlock : ∀ serial workspace',
        (Call.counts workspace revision serial pinned locked).holds = some workspace' →
          s.locks workspace' = some call := by
      intro serial workspace' hholds
      refine h.held call workspace' ?_
      rw [hphase]
      exact hholds
    split at hstep
    · next serial hrefs =>
      cases hstep
      refine h.setCall call ?_ (hlock serial)
      intro workspace' revision' serial' pinned' locked' heq
      simp only [Call.counts.injEq] at heq
      obtain ⟨rfl, rfl, rfl, -, -⟩ := heq
      exact h.refs _ _ hrefs
    · cases hstep
      refine (h.addRef (revDir workspace revision)).setCall call ?_ (hlock _)
      intro workspace' revision' serial' pinned' locked' heq
      simp only [Call.counts.injEq] at heq
      obtain ⟨rfl, rfl, rfl, -, -⟩ := heq
      simp [State.addRef]
  · cases hstep

theorem Sound.addGuard (h : Sound s) {counter : Counter} (hserial : counter.2 < s.made counter.1) :
    Sound (s.addGuard counter) := by
  refine ⟨fun other => ?_, h.refs, fun other hmem => ?_, h.calls, h.held⟩
  · by_cases heq : other = counter
    · subst heq
      simp [State.addGuard, h.values]
    · simp only [State.addGuard, Function.update_of_ne heq]
      rw [List.count_cons_of_ne (fun hne => heq hne.symm)]
      exact h.values other
  · obtain rfl | hmem := List.mem_cons.mp hmem
    · exact hserial
    · exact h.guards other hmem

theorem Sound.increment (h : Sound s) {cleanup : Nat}
    (hstep : s.increment call cleanup = some t) : Sound t := by
  unfold State.increment at hstep
  split at hstep
  · next workspace revision serial pinned locked hphase =>
    have hadded : Sound (s.addGuard (revDir workspace revision, serial)) :=
      h.addGuard (h.calls _ _ _ _ _ _ hphase)
    have hreturned := hadded.stop call
    dsimp only at hstep
    split at hstep
    · cases hstep
      exact hreturned
    · split at hstep
      · cases hstep
        exact hreturned.setCleanup cleanup _
      · cases hstep
  · cases hstep

theorem Sound.dropGuard (h : Sound s) (counter : Counter) : Sound (s.dropGuard counter) := by
  refine ⟨fun other => ?_, h.refs, fun other hother => ?_, h.calls, h.held⟩
  · by_cases heq : other = counter
    · subst heq
      simp [State.dropGuard, h.values]
    · simp only [State.dropGuard, Function.update_of_ne heq]
      rw [List.count_erase_of_ne heq]
      exact h.values other
  · exact h.guards other (List.mem_of_mem_erase hother)

theorem Sound.dropRef (h : Sound s) (dir : Dir) : Sound (s.dropRef dir) := by
  refine ⟨h.values, fun other serial href => ?_, h.guards, h.calls, h.held⟩
  by_cases heq : other = dir
  · subst heq
    simp [State.dropRef] at href
  · simp only [State.dropRef, Function.update_of_ne heq] at href
    exact h.refs other serial href

theorem Sound.step {maxRetained : Nat} {event : Event} (h : Sound s)
    (hstep : s.step maxRetained event = some t) : Sound t := by
  cases event with
  | ensureRevision _ _ _ | ensureUpToDate _ _ | answers _ _ | lists _ _ | checks _ | ends _ =>
    exact h.moves (step_moves rfl hstep)
  | locks call => exact h.takeLock hstep
  | looks call => exact h.look hstep
  | creates call => exact h.create hstep
  | renames call => exact h.rename hstep
  | fails call =>
    cases hstep
    exact h.stop call
  | fetches call => exact h.fetch hstep
  | increments call cleanup => exact h.increment hstep
  | drops counter =>
    simp only [State.step] at hstep
    split at hstep
    · cases hstep
      exact h.dropGuard counter
    · cases hstep
  | begins cleanup =>
    simp only [State.step, State.begin] at hstep
    split at hstep
    · cases hstep
      exact (h.damage _).setCleanup cleanup _
    · cases hstep
      exact (h.damage _).setCleanup cleanup _
    · cases hstep
  | finishes cleanup removed =>
    simp only [State.step, State.finish] at hstep
    split at hstep
    · cases hstep
      cases removed with
      | true => exact (h.setDir _ .absent).setCleanup cleanup _
      | false => exact h.setCleanup cleanup _
    · cases hstep
  | forgets cleanup =>
    simp only [State.step, State.forget] at hstep
    split at hstep
    · cases hstep
      exact (h.dropRef _).setCleanup cleanup _
    · cases hstep
  | prunes cleanup dir =>
    simp only [State.step, State.prune] at hstep
    split at hstep
    · split at hstep
      · cases hstep
        exact h.dropRef dir
      · cases hstep
    · cases hstep

end Sound

/-! ## Which operations keep the three things -/

section Safe

variable {s : State}

theorem Sound.unpacking_unique (h : Sound s) {call workspace revision pinned}
    (hcall : s.calls call = .unpacks workspace revision pinned) {call' workspace' revision' pinned'}
    (hcall' : s.calls call' = .unpacks workspace' revision' pinned')
    (hdir : tmpDir workspace' revision' = tmpDir workspace revision) : call' = call := by
  have hworkspace : workspace' = workspace := congrArg Prod.fst hdir
  have hlock := h.held call workspace (by rw [hcall]; rfl)
  have hlock' := h.held call' workspace' (by rw [hcall']; rfl)
  rw [hworkspace, hlock] at hlock'
  exact (Option.some.inj hlock').symm

theorem Sound.not_unpacking (h : Sound s) {workspace revision : String}
    (hlock : s.locks workspace = none) : ¬ Unpacking s (tmpDir workspace revision) := by
  rintro ⟨call, workspace', revision', pinned, hcall, hdir⟩
  have hworkspace : workspace' = workspace := congrArg Prod.fst hdir
  refine h.free_of_unlocked hlock call ?_
  rw [hcall, ← hworkspace]
  rfl

theorem safe_takeLock_iff (hsound : Sound s) (h : Safe s)
    (hstep : s.takeLock call = some t) : Safe t ↔ Undisturbed s (.locks call) := by
  unfold Undisturbed
  unfold State.takeLock at hstep
  split at hstep
  · next workspace revision hphase =>
    split at hstep
    · cases hstep
      refine iff_of_true (((safe_setLock_iff _ _).mpr h).setCall call (by simp)) ?_
      intro workspace' revision' pinned' hphase'
      rw [hphase] at hphase'
      cases hphase'
    · cases hstep
  · next workspace revision pinned hphase =>
    have hsame : ∀ {workspace' revision' : String} {pinned' : Bool},
        s.calls call = .extracts workspace' revision' pinned' →
          workspace = workspace' ∧ revision = revision' ∧ pinned = pinned' := by
      intro workspace' revision' pinned' hphase'
      rw [hphase] at hphase'
      exact Call.extracts.inj hphase'
    split at hstep
    · next hlock =>
      split at hstep
      · next hempty =>
        cases hstep
        refine iff_of_true (h.setCall call (by simp)) ?_
        intro workspace' revision' pinned' hphase' hne
        obtain ⟨-, rfl, -⟩ := hsame hphase'
        exact absurd hempty hne
      · next hname =>
        split at hstep
        · next hdir =>
          cases hstep
          refine iff_of_true (((safe_setCurrent_iff _ _ _).mpr h).setCall call (by simp)) ?_
          intro workspace' revision' pinned' hphase' _ habsent
          obtain ⟨rfl, rfl, -⟩ := hsame hphase'
          rw [hdir] at habsent
          cases habsent
        · next hdir =>
          cases hstep
          have hlocked : Safe (s.setLock workspace (some call)) := (safe_setLock_iff _ _).mpr h
          have hiff : Safe ((s.setLock workspace (some call)).setDir (tmpDir workspace revision)
              .absent) ↔ _ := safe_setDir_iff hlocked (by decide)
          constructor
          · intro ht workspace' revision' pinned' hphase' _ _
            obtain ⟨rfl, rfl, -⟩ := hsame hphase'
            have hnot : ∀ w r p, s.calls call ≠ .unpacks w r p := by simp [hphase]
            exact (hiff.mp (safe_of_setCall ht hnot)).1
          · intro hfree
            refine (hiff.mpr ⟨hfree _ _ _ hphase hname (by simpa using hdir), ?_⟩).setCall call
              (by simp)
            exact hsound.not_unpacking hlock
    · cases hstep
  · cases hstep

theorem Safe.create (h : Safe s)
    (hstep : s.create call = some t) : Safe t := by
  unfold State.create at hstep
  split at hstep
  · next workspace revision pinned hphase =>
    cases hstep
    have hwhole := h.setDir_whole (tmpDir workspace revision)
    refine ⟨hwhole.kept, fun dir hdir => ?_, hwhole.counted⟩
    obtain ⟨workspace', revision', pinned', heq, rfl⟩ | hdir := hdir.of_setCall
    · obtain ⟨rfl, rfl, -⟩ := Call.unpacks.inj heq
      exact setDir_dirs_self _ _
    · exact hwhole.unpacking dir hdir
  · cases hstep

theorem safe_rename_iff (hsound : Sound s) (h : Safe s)
    (hstep : s.rename call = some t) : Safe t ↔ Undisturbed s (.renames call) := by
  unfold Undisturbed
  unfold State.rename at hstep
  split at hstep
  · next workspace revision pinned hphase =>
    split at hstep
    · next hdirs =>
      cases hstep
      have htmp : s.dirs (tmpDir workspace revision) = .whole :=
        h.unpacking _ ⟨call, workspace, revision, pinned, hphase, rfl⟩
      rw [htmp]
      -- the call has stopped unpacking, then the directories change
      have hstopped : Safe ((s.setCall call (.acquires workspace revision pinned false)).setDir
          (revDir workspace revision) .whole) := (h.setCall call (by simp)).setDir_whole _
      have hnot : ¬ Unpacking ((s.setCall call (.acquires workspace revision pinned false)).setDir
          (revDir workspace revision) .whole) (tmpDir workspace revision) := by
        rintro ⟨call', workspace', revision', pinned', hcall', hdir⟩
        by_cases heq : call' = call
        · subst heq
          simp [State.setDir, State.setCall] at hcall'
        · have hother : s.calls call' = .unpacks workspace' revision' pinned' := by
            simpa [State.setDir, State.setCall, heq] using hcall'
          exact heq (hsound.unpacking_unique hphase hother hdir)
      have hmoved : Safe (((s.setCall call (.acquires workspace revision pinned false)).setDir
          (revDir workspace revision) .whole).setDir (tmpDir workspace revision) .absent) ↔ _ :=
        safe_setDir_iff hstopped (by decide)
      have hstate : Safe (((((s.setDir (revDir workspace revision) .whole).setDir
          (tmpDir workspace revision) .absent).setCurrent workspace revision pinned).setLock
            workspace none).setCall call (.acquires workspace revision pinned false)) ↔
          Safe (((s.setCall call (.acquires workspace revision pinned false)).setDir
            (revDir workspace revision) .whole).setDir (tmpDir workspace revision) .absent) := by
        unfold State.setCurrent
        split
        · exact ⟨fun hs => hs.congr rfl rfl (fun _ => rfl) fun _ hdir => hdir,
            fun hs => hs.congr rfl rfl (fun _ => rfl) fun _ hdir => hdir⟩
        · exact ⟨fun hs => hs.congr rfl rfl (fun _ => rfl) fun _ hdir => hdir,
            fun hs => hs.congr rfl rfl (fun _ => rfl) fun _ hdir => hdir⟩
      rw [hstate, hmoved, and_iff_left hnot]
      constructor
      · intro hfree workspace' revision' pinned' hphase'
        rw [hphase] at hphase'
        obtain ⟨rfl, rfl, -⟩ := Call.unpacks.inj hphase'
        exact hfree
      · intro hfree
        exact hfree _ _ _ hphase
    · cases hstep
  · cases hstep

theorem safe_addGuard_iff (h : Safe s) (counter : Counter) :
    Safe (s.addGuard counter) ↔
      s.dirs counter.1 = .whole ∧ s.refs counter.1 = some counter.2 := by
  have hguards : ∀ dir, (s.addGuard counter).guards.countP (fun other => other.1 = dir) =
      s.guards.countP (fun other => other.1 = dir) + if counter.1 = dir then 1 else 0 := by
    intro dir
    simp only [State.addGuard, List.countP_cons, decide_eq_true_eq]
  have hcount : ∀ dir, (s.addGuard counter).count dir =
      s.count dir + if s.refs dir = some counter.2 ∧ dir = counter.1 then 1 else 0 := by
    intro dir
    simp only [State.count, State.addGuard]
    cases href : s.refs dir with
    | none => simp
    | some serial =>
      by_cases heq : (dir, serial) = counter
      · subst heq
        simp
      · have hne : ¬ (serial = counter.2 ∧ dir = counter.1) := by
          rintro ⟨rfl, rfl⟩
          exact heq rfl
        simp [heq, hne]
  constructor
  · intro ht
    refine ⟨ht.kept counter List.mem_cons_self, ?_⟩
    have hnow := ht.counted counter.1
    rw [hguards, hcount, h.counted, if_pos rfl] at hnow
    by_contra hne
    rw [if_neg fun hand => hne hand.1] at hnow
    omega
  · rintro ⟨hwhole, href⟩
    refine ⟨fun other hother => ?_, h.unpacking, fun dir => ?_⟩
    · obtain rfl | hother := List.mem_cons.mp hother
      · exact hwhole
      · exact h.kept other hother
    · rw [hguards, hcount, h.counted]
      by_cases heq : counter.1 = dir
      · subst heq
        simp [href]
      · rw [if_neg heq, if_neg fun hand => heq hand.2.symm]

theorem safe_stop (hphase : ∀ workspace revision pinned,
    s.calls call ≠ .unpacks workspace revision pinned) :
    Safe ((s.unlock call).setCall call .idle) ↔ Safe s := by
  have hunlock : Safe (s.unlock call) ↔ Safe s := by
    unfold State.unlock
    split
    · exact safe_setLock_iff _ _
    · exact Iff.rfl
  have hcalls : (s.unlock call).calls = s.calls := by
    unfold State.unlock
    split <;> rfl
  rw [← hunlock]
  refine ⟨fun h => safe_of_setCall h ?_, fun h => h.setCall call (by simp)⟩
  rw [hcalls]
  exact hphase

theorem safe_increment_iff {cleanup : Nat} (h : Safe s)
    (hstep : s.increment call cleanup = some t) :
    Safe t ↔ Undisturbed s (.increments call cleanup) := by
  simp only [Undisturbed]
  unfold State.increment at hstep
  split at hstep
  · next workspace revision serial pinned locked hphase =>
    have hreturned : Safe (((s.addGuard (revDir workspace revision, serial)).unlock call).setCall
        call .idle) ↔ s.dirs (revDir workspace revision) = .whole ∧
          s.refs (revDir workspace revision) = some serial := by
      rw [safe_stop (by simp [State.addGuard, hphase]), safe_addGuard_iff h]
    have hcondition : (∀ workspace' revision' serial' pinned' locked',
        s.calls call = .counts workspace' revision' serial' pinned' locked' →
          s.dirs (revDir workspace' revision') = .whole ∧
            s.refs (revDir workspace' revision') = some serial') ↔
        s.dirs (revDir workspace revision) = .whole ∧
          s.refs (revDir workspace revision) = some serial := by
      constructor
      · intro hall
        exact hall _ _ _ _ _ hphase
      · intro hone workspace' revision' serial' pinned' locked' hphase'
        rw [hphase] at hphase'
        simp only [Call.counts.injEq] at hphase'
        obtain ⟨rfl, rfl, rfl, -, -⟩ := hphase'
        exact hone
    rw [hcondition, ← hreturned]
    dsimp only at hstep
    split at hstep
    · cases hstep
      exact Iff.rfl
    · split at hstep
      · cases hstep
        exact safe_setCleanup_iff _ _
      · cases hstep
  · cases hstep

theorem Safe.ref_of_guard (hsound : Sound s) (h : Safe s) {counter : Counter}
    (hmem : counter ∈ s.guards) : s.refs counter.1 = some counter.2 := by
  have hcounted := h.counted counter.1
  have hpos : 0 < s.guards.countP fun other => other.1 = counter.1 :=
    List.countP_pos_iff.mpr ⟨counter, hmem, by simp⟩
  unfold State.count at hcounted
  cases href : s.refs counter.1 with
  | none =>
    rw [href] at hcounted
    simp only at hcounted
    omega
  | some serial =>
    rw [href] at hcounted
    simp only [hsound.values] at hcounted
    -- every guard of the directory has the serial of the map
    have hall : ∀ l : List Counter, l.count (counter.1, serial) ≤
          l.countP (fun other => other.1 = counter.1) ∧
        (l.count (counter.1, serial) = l.countP (fun other => other.1 = counter.1) →
          ∀ other ∈ l, other.1 = counter.1 → other.2 = serial) := by
      intro l
      induction l with
      | nil => simp
      | cons first l ih =>
        obtain ⟨hle, hserial⟩ := ih
        rw [List.count_cons, List.countP_cons]
        by_cases hfirst : first = (counter.1, serial)
        · subst hfirst
          simp only [beq_self_eq_true, if_true, decide_true]
          refine ⟨by omega, fun heq other hother hdir => ?_⟩
          obtain rfl | hother := List.mem_cons.mp hother
          · rfl
          · exact hserial (by omega) other hother hdir
        · have hbeq : (first == (counter.1, serial)) = false := beq_eq_false_iff_ne.mpr hfirst
          rw [hbeq]
          by_cases hdir : first.1 = counter.1
          · simp only [Bool.false_eq_true, if_false, hdir, decide_true, if_true]
            exact ⟨by omega, fun heq => by omega⟩
          · simp only [Bool.false_eq_true, if_false, hdir, decide_false]
            refine ⟨by omega, fun heq other hother hother' => ?_⟩
            obtain rfl | hother := List.mem_cons.mp hother
            · exact absurd hother' hdir
            · exact hserial (by omega) other hother hother'
    rw [(hall s.guards).2 hcounted counter hmem rfl]

theorem Safe.dropGuard (hsound : Sound s) (h : Safe s) {counter : Counter}
    (hmem : counter ∈ s.guards) : Safe (s.dropGuard counter) := by
  have href := h.ref_of_guard hsound hmem
  refine ⟨fun other hother => h.kept other (List.mem_of_mem_erase hother), h.unpacking,
    fun dir => ?_⟩
  have hcounted := h.counted dir
  unfold State.count at hcounted ⊢
  simp only [State.dropGuard]
  rw [List.countP_erase]
  by_cases heq : dir = counter.1
  · subst heq
    rw [if_pos ⟨hmem, by simp⟩]
    simp only [href] at hcounted ⊢
    have hvalue : Function.update s.values counter (s.values counter - 1) (counter.1, counter.2) =
        s.values counter - 1 := by
      rw [show (counter.1, counter.2) = counter from rfl, Function.update_self]
    have hcounted' : s.values counter =
        s.guards.countP fun other => other.1 = counter.1 := hcounted
    rw [hvalue, hcounted']
  · have hne : ¬ counter.1 = dir := fun hdir => heq hdir.symm
    rw [if_neg (by simp [hne])]
    cases hrefs : s.refs dir with
    | none => simpa [hrefs] using hcounted
    | some serial =>
      have hother : (dir, serial) ≠ counter := by
        rintro rfl
        exact heq rfl
      simp only [hrefs, Function.update_of_ne hother] at hcounted ⊢
      omega

theorem Safe.fetch (h : Safe s)
    (hstep : s.fetch call = some t) : Safe t := by
  unfold State.fetch at hstep
  split at hstep
  · next workspace revision pinned locked hphase =>
    split at hstep
    · cases hstep
      exact h.setCall call (by simp)
    · next hrefs =>
      cases hstep
      have hadded : Safe (s.addRef (revDir workspace revision)) := by
        refine ⟨h.kept, h.unpacking, fun dir => ?_⟩
        have hcounted := h.counted dir
        unfold State.count at hcounted ⊢
        simp only [State.addRef]
        by_cases heq : dir = revDir workspace revision
        · subst heq
          rw [hrefs] at hcounted
          simpa using hcounted
        · rw [Function.update_of_ne heq]
          cases href : s.refs dir with
          | none => simpa [href] using hcounted
          | some serial =>
            have hne : (dir, serial) ≠
                (revDir workspace revision, s.made (revDir workspace revision)) :=
              fun hpair => heq (congrArg Prod.fst hpair)
            simpa [href, Function.update_of_ne hne] using hcounted
      exact hadded.setCall call (by simp)
  · cases hstep

theorem safe_dropRef_iff (h : Safe s) (dir : Dir) : Safe (s.dropRef dir) ↔ Unguarded s dir := by
  have hself : (s.dropRef dir).count dir = 0 := by
    simp [State.count, State.dropRef]
  have hother : ∀ other, other ≠ dir → (s.dropRef dir).count other = s.count other := by
    intro other hne
    simp only [State.count, State.dropRef, Function.update_of_ne hne]
  have hnone : Unguarded s dir ↔ s.guards.countP (fun counter => counter.1 = dir) = 0 := by
    simp [Unguarded, List.countP_eq_zero]
  constructor
  · intro ht
    rw [hnone]
    exact (ht.counted dir).symm.trans hself
  · intro hfree
    refine ⟨h.kept, h.unpacking, fun other => ?_⟩
    by_cases heq : other = dir
    · subst heq
      rw [hself]
      exact (hnone.mp hfree).symm
    · rw [hother other heq]
      exact h.counted other

theorem safe_begin_iff {cleanup : Nat} (h : Safe s)
    (hstep : s.begin cleanup = some t) : Safe t ↔ Undisturbed s (.begins cleanup) := by
  simp only [Undisturbed]
  have hone : ∀ {dir : Dir} {phase : Cleanup}, (s.cleanups cleanup).target = some dir →
      t = (s.damage dir).setCleanup cleanup phase →
      (Safe t ↔ ∀ dir, (s.cleanups cleanup).target = some dir →
        Unguarded s dir ∧ ¬ Unpacking s dir) := by
    rintro dir phase htarget rfl
    rw [safe_setCleanup_iff, safe_damage_iff h, htarget]
    simp
  unfold State.begin at hstep
  split at hstep
  · next hphase => exact hone (by rw [hphase]; rfl) (Option.some.inj hstep).symm
  · next hphase => exact hone (by rw [hphase]; rfl) (Option.some.inj hstep).symm
  · cases hstep

theorem safe_finish_iff {cleanup : Nat} {removed : Bool} (h : Safe s)
    (hstep : s.finish cleanup removed = some t) :
    Safe t ↔ Undisturbed s (.finishes cleanup removed) := by
  simp only [Undisturbed]
  unfold State.finish at hstep
  split at hstep
  · next workspace item items hphase =>
    have htarget : (s.cleanups cleanup).target = some (workspace, item.name) := by
      rw [hphase]
      rfl
    cases hstep
    rw [htarget]
    cases removed with
    | true =>
      simp only [if_true, forall_const]
      rw [safe_setCleanup_iff, safe_setDir_iff h (by decide)]
      simp
    | false =>
      simp only [Bool.false_eq_true, if_false, false_implies, iff_true]
      exact (safe_setCleanup_iff _ _).mpr h
  · cases hstep

theorem safe_forget_iff {cleanup : Nat} (h : Safe s)
    (hstep : s.forget cleanup = some t) : Safe t ↔ Undisturbed s (.forgets cleanup) := by
  simp only [Undisturbed]
  unfold State.forget at hstep
  split at hstep
  · next workspace name items hphase =>
    cases hstep
    rw [safe_setCleanup_iff, safe_dropRef_iff h, hphase]
    simp
  · cases hstep

theorem Safe.prune (h : Safe s) {cleanup : Nat} {dir : Dir}
    (hstep : s.prune cleanup dir = some t) : Safe t := by
  unfold State.prune at hstep
  split at hstep
  · split at hstep
    · next hentry =>
      cases hstep
      exact (safe_dropRef_iff h dir).mpr (h.free_of_absent hentry.2.2).1
    · cases hstep
  · cases hstep

theorem Safe.moves (h : Safe s) (hmoves : Moves s t) : Safe t := by
  cases hmoves with
  | call call hholds =>
    refine h.setCall call fun workspace revision pinned heq => ?_
    rw [heq] at hholds
    cases hholds
  | cleanup cleanup phase => exact (safe_setCleanup_iff _ _).mpr h

theorem safe_step_iff {maxRetained : Nat} {event : Event} (hsound : Sound s)
    (h : Safe s) (hstep : s.step maxRetained event = some t) :
    Safe t ↔ Undisturbed s event := by
  cases event with
  | ensureRevision _ _ _ | ensureUpToDate _ _ | answers _ _ | lists _ _ | checks _ | ends _ =>
    exact iff_of_true (h.moves (step_moves rfl hstep)) trivial
  | locks call => exact safe_takeLock_iff hsound h hstep
  | looks call =>
    refine iff_of_true ?_ trivial
    simp only [State.step, State.look] at hstep
    split at hstep
    · split at hstep
      · cases hstep
        exact h.setCall call (by simp)
      · cases hstep
        exact ((safe_setLock_iff _ _).mpr h).setCall call (by simp)
    · cases hstep
  | creates call => exact iff_of_true (h.create hstep) trivial
  | renames call => exact safe_rename_iff hsound h hstep
  | fails call =>
    cases hstep
    refine iff_of_true (Safe.setCall ?_ call (by simp)) trivial
    unfold State.unlock
    split
    · exact (safe_setLock_iff _ _).mpr h
    · exact h
  | fetches call => exact iff_of_true (h.fetch hstep) trivial
  | increments call cleanup => exact safe_increment_iff h hstep
  | drops counter =>
    simp only [State.step] at hstep
    split at hstep
    · next hmem =>
      cases hstep
      exact iff_of_true (h.dropGuard hsound hmem) trivial
    · cases hstep
  | begins cleanup => exact safe_begin_iff h hstep
  | finishes cleanup removed => exact safe_finish_iff h hstep
  | forgets cleanup => exact safe_forget_iff h hstep
  | prunes cleanup dir => exact iff_of_true (h.prune hstep) trivial

end Safe

/-! ## Runs -/

theorem initial_sound (dirs : Dir → DirState) (current : String → Option String) :
    Sound (initial dirs current) where
  values _ := rfl
  refs dir serial href := by simp [initial] at href
  guards counter hmem := by cases hmem
  calls call workspace revision serial pinned locked hcall := by simp [initial] at hcall
  held call workspace hholds := by simp [initial, Call.holds] at hholds

theorem initial_safe (dirs : Dir → DirState) (current : String → Option String) :
    Safe (initial dirs current) where
  kept counter hmem := by cases hmem
  unpacking dir hdir := by
    obtain ⟨call, workspace, revision, pinned, hcall, -⟩ := hdir
    simp [initial] at hcall
  counted _ := rfl

/-- From the start of a worker on, however calls, guards and cleanups interleave: every state is
safe exactly when every operation is undisturbed in the state it finds. -/
theorem guards_safe_iff (maxRetained : Nat) (dirs : Dir → DirState)
    (current : String → Option String) (events : List Event) :
    (∀ before last, before <+: events →
        exec (State.step maxRetained) (initial dirs current) before = some last → Safe last) ↔
      Meets (State.step maxRetained)
        (fun s event => (s.step maxRetained event).isSome → Undisturbed s event)
        (initial dirs current) events :=
  forall_states_iff_meets Safe Sound (fun _ _ _ hsound hstep => hsound.step hstep)
    (fun _ _ _ hsound h hstep => safe_step_iff hsound h hstep) (initial_sound dirs current)
    (initial_safe dirs current)

/-! ### A cleanup beside an extraction -/

def cleanupMeetsExtraction : List Event :=
  [.ensureUpToDate 0 "w", .answers 0 (some "r1"), .locks 0, .creates 0, .renames 0, .fetches 0,
   .increments 0 0, .ensureRevision 1 "w" "r2", .locks 1, .looks 1, .answers 1 (some "r2"),
   .locks 1, .creates 1, .lists 0 [("r1", 1), ("r2.tmp", 2)], .begins 0]

theorem cleanup_removes_extraction :
    ¬ (∀ before last, before <+: cleanupMeetsExtraction →
        exec (State.step 2) (initial (fun _ => .absent) (fun _ => none)) before = some last →
          Safe last) := by
  intro h
  have hrun : ∃ last, exec (State.step 2) (initial (fun _ => .absent) (fun _ => none))
      cleanupMeetsExtraction = some last ∧ last.calls 1 = .unpacks "w" "r2" true ∧
        last.dirs ("w", "r2.tmp") = .removing := by
    refine ⟨_, rfl, ?_, ?_⟩
    · decide +kernel
    · decide +kernel
  obtain ⟨last, hlast, hcall, hdir⟩ := hrun
  have hwhole := (h cleanupMeetsExtraction last (List.prefix_refl _) hlast).unpacking
    ("w", "r2.tmp") ⟨1, "w", "r2", true, hcall, by decide +kernel⟩
  rw [hdir] at hwhole
  cases hwhole

end Stroem.WorkspaceCache
