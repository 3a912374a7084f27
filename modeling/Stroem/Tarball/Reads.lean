import Stroem.Tarball.Labels

/-!
# Reading the live clone

A load may rewrite the clone between the moment a download reads the revision and the moments
it reads the files.  The archives are what their labels say exactly when this never shows: each
file taken into a labelled archive is, when it is read, the file of the label's commit.
-/

namespace Stroem.Tarball

open Foundation

def State.labelOf (s : State) (download : Nat) : Option String :=
  match s.downloads download with
  | .archives label _ => label
  | _ => none

structure ReadsCommit (server : Server) (as : List Event) : Prop where
  read : ∀ before d path between now revision files,
    before ++ .reads d path :: (between ++ [.archives d]) <+: as →
    exec (step server) initial before = some now →
    (exec (step server) now (.reads d path :: (between ++ [.archives d]))).isSome →
    now.labelOf d = some revision → server.commitFiles revision = some files →
    now.dir path = files path
  rest : ∀ before d now revision read files,
    before ++ [.archives d] <+: as → exec (step server) initial before = some now →
    now.downloads d = .archives (some revision) read →
    server.commitFiles revision = some files →
    ∀ path, read.lookup path = none → now.dir path = files path

section Phases

variable {server : Server} {s t : State} {d : Nat}

def Download.isEarly : Download → Bool
  | .archives _ _ => false
  | .done => false
  | _ => true

def Moves (s : State) (e : Event) (t : State) (d : Nat) : Prop :=
  t.downloads d = s.downloads d ∨ t.downloads d = .done ∨
    ((s.downloads d).isEarly ∧ ∀ label read, t.downloads d = .archives label read → read = []) ∨
    ∃ label read path, e = .reads d path ∧ s.downloads d = .archives label read ∧
      read.lookup path = none ∧
      t.downloads d = .archives label ((path, s.dir path) :: read)

private theorem moves_setDownload {e : Event} {d' : Nat} {x : Download}
    (hx : x = .done ∨ (s.downloads d').isEarly ∧
      ∀ label read, x = .archives label read → read = []) :
    Moves s e (s.setDownload d' x) d := by
  by_cases hd : d = d'
  · subst hd
    have hself : (s.setDownload d x).downloads d = x := Function.update_self ..
    rcases hx with rfl | ⟨hearly, hread⟩
    · exact Or.inr (Or.inl hself)
    · refine Or.inr (Or.inr (Or.inl ⟨hearly, fun label read h => hread label read ?_⟩))
      rw [← hself]
      exact h
  · exact Or.inl (Function.update_of_ne hd ..)

private theorem servePinned_ne_archives (revision : String) (ifNoneMatch label : Option String)
    (read : List (String × Option String)) :
    servePinned revision ifNoneMatch ≠ .archives label read := by
  unfold servePinned
  split <;> simp

private theorem moves_advance {e : Event} {d' : Nat} (hs : s.advance d' = some t) :
    Moves s e t d := by
  unfold State.advance at hs
  split at hs
  · rename_i hphase
    cases hs
    exact moves_setDownload (Or.inr ⟨by rw [hphase]; rfl, by simp⟩)
  · rename_i hphase
    cases hs
    refine moves_setDownload (Or.inr ⟨by rw [hphase]; rfl, ?_⟩)
    intro label read hx
    split at hx
    · cases hx
    · exact absurd hx (servePinned_ne_archives _ _ _ _)
  · rename_i hphase
    cases hs
    refine moves_setDownload (Or.inr ⟨by rw [hphase]; rfl, ?_⟩)
    intro label read hx
    split at hx
    · cases hx
    · exact absurd hx (servePinned_ne_archives _ _ _ _)
  · rename_i hphase
    cases hs
    refine moves_setDownload (Or.inr ⟨by rw [hphase]; rfl, ?_⟩)
    intro label read hx
    split at hx <;> cases hx
  · rename_i hphase
    cases hs
    refine moves_setDownload (Or.inr ⟨by rw [hphase]; rfl, ?_⟩)
    intro label read hx
    split at hx <;> cases hx
  · rename_i hphase
    cases hs
    refine moves_setDownload (Or.inr ⟨by rw [hphase]; rfl, ?_⟩)
    intro label read hx
    split at hx
    · cases hx
    · injection hx with _ hread
      exact hread.symm
  · cases hs

private theorem moves_respond {e : Event} {d' : Nat} {label key : Option String}
    {archive : Archive} : Moves s e (s.respond d' label archive key) d :=
  moves_setDownload (x := .done) (Or.inl rfl)

private theorem moves_lookUp {e : Event} {d' : Nat} {readable : Bool}
    (hs : s.lookUp d' readable = some t) : Moves s e t d := by
  unfold State.lookUp at hs
  split at hs
  · rename_i hphase
    split at hs
    · cases hs
      exact moves_respond
    · cases hs
      refine moves_setDownload (Or.inr ⟨by rw [hphase]; rfl, ?_⟩)
      intro label read hx
      split at hx
      · injection hx with _ hread
        exact hread.symm
      · cases hx
  · rename_i hphase
    split at hs
    · cases hs
      exact moves_respond
    · cases hs
      exact moves_setDownload (Or.inr ⟨by rw [hphase]; rfl, by simp⟩)
  · cases hs

private theorem moves_read {d' : Nat} {path : String} (hs : s.read d' path = some t) :
    Moves s (.reads d' path) t d := by
  unfold State.read at hs
  split at hs
  · rename_i label read hphase
    split at hs
    · rename_i hunread
      cases hs
      by_cases hd : d = d'
      · subst hd
        exact Or.inr (Or.inr (Or.inr ⟨label, read, path, rfl, hphase, hunread,
          Function.update_self ..⟩))
      · exact Or.inl (Function.update_of_ne hd ..)
    · cases hs
  · cases hs

theorem step_moves {e : Event} (hs : step server s e = some t) : Moves s e t d := by
  cases e with
  | fetches | writes path content =>
    simp only [step] at hs
    split at hs
    · cases hs
      exact Or.inl rfl
    · cases hs
  | resets oid untracked =>
    simp only [step, State.reset] at hs
    split at hs
    · split at hs
      · cases hs
        exact Or.inl rfl
      · cases hs
    · cases hs
  | publishes =>
    simp only [step, State.publish] at hs
    split at hs
    · cases hs
      exact Or.inl rfl
    · cases hs
  | fails =>
    simp only [step] at hs
    split at hs
    · cases hs
    · cases hs
      exact Or.inl rfl
  | requests d' revision ifNoneMatch =>
    simp only [step] at hs
    split at hs
    · rename_i hunused
      cases hs
      exact moves_setDownload (Or.inr ⟨by rw [hunused]; rfl, by simp⟩)
    · cases hs
  | advances d' => exact moves_advance hs
  | looksUp d' readable => exact moves_lookUp hs
  | checksOut d' =>
    simp only [step, State.checkOut] at hs
    split at hs
    · split at hs
      · cases hs
        exact moves_respond
      · cases hs
    · cases hs
  | reads d' path => exact moves_read hs
  | archives d' =>
    simp only [step, State.archive] at hs
    split at hs
    · cases hs
      exact moves_respond
    · cases hs
  | aborts d' =>
    simp only [step] at hs
    split at hs
    · cases hs
    · cases hs
      exact moves_setDownload (Or.inl rfl)
  | stores put =>
    simp only [step, State.store] at hs
    split at hs
    · cases hs
      exact Or.inl rfl
    · cases hs
  | losesPut put =>
    simp only [step] at hs
    split at hs
    · cases hs
      exact Or.inl rfl
    · cases hs
  | evicts name =>
    cases hs
    exact Or.inl rfl
  | restarts =>
    cases hs
    by_cases hunused : s.downloads d = .unused
    · exact Or.inl (by simp [State.restart, hunused])
    · exact Or.inr (Or.inl (by simp [State.restart, hunused]))

/-! ## From a read to the archive -/

def TookIn (s : State) (d : Nat) (label : Option String) (path : String)
    (content : Option String) : Prop :=
  ∃ read, s.downloads d = .archives label read ∧ read.lookup path = some content

private theorem tookIn_step {e : Event} {label content : Option String} {path : String}
    (h : TookIn s d label path content ∨ s.downloads d = .done)
    (hs : step server s e = some t) :
    TookIn t d label path content ∨ t.downloads d = .done := by
  rcases step_moves (d := d) hs with hsame | hdone | ⟨hearly, -⟩ |
      ⟨label', read', path', -, hphase, hunread, hnext⟩
  · simpa only [TookIn, hsame] using h
  · exact Or.inr hdone
  · rcases h with ⟨read, hread, -⟩ | hdone
    · rw [hread] at hearly
      cases hearly
    · rw [hdone] at hearly
      cases hearly
  · rcases h with ⟨read, hread, hlookup⟩ | hdone
    · obtain ⟨rfl, rfl⟩ : label' = label ∧ read' = read := by simpa [hphase] using hread
      refine Or.inl ⟨_, hnext, ?_⟩
      have hne : path ≠ path' := by
        rintro rfl
        rw [hlookup] at hunread
        cases hunread
      rwa [List.lookup_cons, beq_false_of_ne hne]
    · rw [hdone] at hphase
      cases hphase

theorem tookIn_run {as : List Event} {label content : Option String} {path : String}
    (h : TookIn s d label path content) (hrun : exec (step server) s as = some t) :
    TookIn t d label path content ∨ t.downloads d = .done :=
  exec_invariant (fun s => TookIn s d label path content ∨ s.downloads d = .done)
    (fun _ _ _ hs _ hstep => tookIn_step hs hstep) (Or.inl h)
    (Meets.of_forall (fun _ _ => trivial) s as) hrun

theorem exists_read {as : List Event} {label content : Option String} {path : String}
    (hrun : exec (step server) initial as = some t) (h : TookIn t d label path content) :
    ∃ before between now, as = before ++ .reads d path :: between ∧
      exec (step server) initial before = some now ∧ now.labelOf d = label ∧
      now.dir path = content := by
  induction as using List.reverseRecOn generalizing t with
  | nil =>
    obtain rfl : initial = t := by simpa using hrun
    obtain ⟨read, hread, -⟩ := h
    cases hread
  | append_singleton as e ih =>
    obtain ⟨s, hs, hlast⟩ := exec_append_eq_some.mp hrun
    obtain ⟨t', hstep, hend⟩ := exec_cons_eq_some.mp hlast
    obtain rfl : t' = t := by simpa using hend
    have hearlier : TookIn s d label path content →
        ∃ before between now, as ++ [e] = before ++ .reads d path :: between ∧
          exec (step server) initial before = some now ∧ now.labelOf d = label ∧
          now.dir path = content := by
      intro hs'
      obtain ⟨before, between, now, rfl, hnow⟩ := ih hs hs'
      exact ⟨before, between ++ [e], now, by simp, hnow⟩
    obtain ⟨read, hread, hlookup⟩ := h
    rcases step_moves (d := d) hstep with hsame | hdone | ⟨-, hempty⟩ |
        ⟨label', read', path', rfl, hphase, -, hnext⟩
    · exact hearlier ⟨read, hsame ▸ hread, hlookup⟩
    · rw [hdone] at hread
      cases hread
    · rw [hempty label read hread] at hlookup
      cases hlookup
    · obtain ⟨rfl, rfl⟩ : label' = label ∧ (path', s.dir path') :: read' = read := by
        simpa [hnext] using hread
      by_cases hpath : path = path'
      · subst hpath
        refine ⟨as, [], s, rfl, hs, by simp [State.labelOf, hphase], ?_⟩
        simpa using hlookup
      · refine hearlier ⟨read', hphase, ?_⟩
        rwa [List.lookup_cons, beq_false_of_ne hpath] at hlookup

end Phases

/-! ## Runs -/

private theorem labelsTrue_iff_meets (server : Server) (as : List Event) :
    (∀ before last, before <+: as → exec (step server) initial before = some last →
        LabelsTrue server last) ↔
      ∀ before e now next, before ++ [e] <+: as →
        exec (step server) initial before = some now → step server now e = some next →
        ArchivesCommit server now e := by
  have hstart : LabelsTrue server initial :=
    (labelsTrue_iff Sound.initial).mpr fun _ _ h => nomatch h
  rw [forall_states_iff_meets (LabelsTrue server) (Sound server)
    (fun s a t hs hstep => (hs.step hstep).1) ?_ Sound.initial hstart]
  · rw [← meets_iff_forall_steps (Q := fun s a _ => ArchivesCommit server s a)]
    constructor
    · exact Meets.mono fun s a hok t ht => hok (by rw [ht]; rfl)
    · refine Meets.mono fun s a hok hsome => ?_
      obtain ⟨t, ht⟩ := Option.isSome_iff_exists.mp hsome
      exact hok t ht
  · intro s a t hs hl hstep
    rw [labelsTrue_iff (hs.step hstep).1]
    exact (hs.step hstep).2 ((labelsTrue_iff hs).mp hl)

/-- Every labelled archive that is sent or cached holds the files of its revision, in every
state of a run, exactly when the run reads the clone only where it is as in the commit. -/
theorem labels_true_iff (server : Server) (as : List Event) :
    (∀ before last, before <+: as → exec (step server) initial before = some last →
        LabelsTrue server last) ↔
      ReadsCommit server as := by
  rw [labelsTrue_iff_meets]
  constructor
  · intro h
    refine ⟨?_, ?_⟩
    · intro before d path between now revision files hprefix hnow hsome hlabel hfiles
      obtain ⟨last, hlast⟩ := Option.isSome_iff_exists.mp hsome
      obtain ⟨s, hread, hlast⟩ := exec_cons_eq_some.mp hlast
      obtain ⟨t, hbetween, hlast⟩ := exec_append_eq_some.mp hlast
      obtain ⟨last', harchive, -⟩ := exec_cons_eq_some.mp hlast
      have htook : TookIn s d (some revision) path (now.dir path) := by
        simp only [step, State.read] at hread
        split at hread
        · rename_i label read hphase
          split at hread
          · cases hread
            obtain rfl : label = some revision := by simpa [State.labelOf, hphase] using hlabel
            exact ⟨_, Function.update_self .., by simp⟩
          · cases hread
        · cases hread
      rcases tookIn_run htook hbetween with ⟨read, hphase, hlookup⟩ | hdone
      · have hwhole := h (before ++ .reads d path :: between) (.archives d) t last'
          (by simpa using hprefix)
          (exec_append_eq_some.mpr ⟨now, hnow, exec_cons_eq_some.mpr ⟨s, hread, hbetween⟩⟩)
          harchive revision read files hphase hfiles path
        simpa [archived, hlookup] using hwhole
      · simp [step, State.archive, hdone] at harchive
    · intro before d now revision read files hprefix hnow hphase hfiles path hunread
      have henabled : ∃ next, step server now (.archives d) = some next := by
        simp [step, State.archive, hphase]
      obtain ⟨next, hnext⟩ := henabled
      have hwhole := h before (.archives d) now next hprefix hnow hnext revision read files hphase
        hfiles path
      simpa [archived, hunread] using hwhole
  · intro h before e now next hprefix hnow hnext
    cases e with
    | archives d =>
      intro revision read files hphase hfiles path
      cases hlookup : read.lookup path with
      | none =>
        have hrest := h.rest before d now revision read files hprefix hnow hphase hfiles path
          hlookup
        simpa [archived, hlookup] using hrest
      | some content =>
        obtain ⟨early, between, past, rfl, hpast, hlabel, hdir⟩ :=
          exists_read hnow ⟨read, hphase, hlookup⟩
        obtain ⟨past', hpast', hlater⟩ := exec_append_eq_some.mp hnow
        obtain rfl : past = past' := Option.some.inj (hpast.symm.trans hpast')
        have hsome : exec (step server) past
            (.reads d path :: (between ++ [.archives d])) = some next := by
          rw [← List.cons_append]
          exact exec_append_eq_some.mpr ⟨now, hlater, exec_cons_eq_some.mpr ⟨next, hnext, rfl⟩⟩
        have hread := h.read early d path between past revision files (by simpa using hprefix)
          hpast (by rw [hsome]; rfl) hlabel hfiles
        simpa [archived, hlookup, hdir] using hread
    | _ => trivial

def raceServer : Server where
  repository := fun oid =>
    if oid = "a000000000000000000000000000000000000000" then
      some fun path => if path = "main.py" then some "old" else none
    else if oid = "b000000000000000000000000000000000000000" then
      some fun path => if path = "main.py" then some "new" else none
    else none
  libraries := []

def raceRun : List Event :=
  [.fetches, .resets "a000000000000000000000000000000000000000" [], .publishes,
    .requests 0 none none, .advances 0, .advances 0, .advances 0,
    .fetches, .resets "b000000000000000000000000000000000000000" [],
    .archives 0, .stores 0]

private theorem race_not_faithful {archive : Archive}
    (hnew : archive.files "main.py" = some "new") :
    ¬ Faithful raceServer "a000000000000000000000000000000000000000" archive := by
  rintro ⟨hfiles, -⟩
  have hold : (raceServer.commitFiles "a000000000000000000000000000000000000000").bind
      (· "main.py") = some "old" := by decide +kernel
  rw [hfiles, Option.bind_some, hnew] at hold
  exact absurd hold (by decide)

/-- The new file is sent under the old revision, and cached under it for later downloads. -/
theorem reload_during_download :
    ∃ last sent cached, exec (step raceServer) initial raceRun = some last ∧
      (some "a000000000000000000000000000000000000000", sent) ∈ last.responses ∧
      ¬ Faithful raceServer "a000000000000000000000000000000000000000" sent ∧
      StoredFor last "a000000000000000000000000000000000000000" cached ∧
      ¬ Faithful raceServer "a000000000000000000000000000000000000000" cached ∧
      ¬ LabelsTrue raceServer last := by
  obtain ⟨last, hlast⟩ : ∃ last, exec (step raceServer) initial raceRun = some last :=
    Option.isSome_iff_exists.mp (by decide +kernel)
  have hsent : (exec (step raceServer) initial raceRun).map (fun s =>
      s.responses.map fun sent => (sent.1, sent.2.files "main.py")) =
      some [(some "a000000000000000000000000000000000000000", some "new")] := by
    decide +kernel
  have hcached : (exec (step raceServer) initial raceRun).bind (fun s =>
      (s.cache (sanitizeRevision "a000000000000000000000000000000000000000")).map
        fun archive => archive.files "main.py") = some (some "new") := by
    decide +kernel
  rw [hlast] at hsent hcached
  have hresponse : (some "a000000000000000000000000000000000000000", some "new") ∈
      last.responses.map fun sent => (sent.1, sent.2.files "main.py") := by
    rw [show last.responses.map _ = _ from Option.some.inj hsent]
    exact List.mem_cons_self
  obtain ⟨⟨label, sent⟩, hmem, heq⟩ := List.mem_map.mp hresponse
  obtain ⟨rfl, hnew⟩ := Prod.mk.inj heq
  obtain ⟨cached, hstored, hnew'⟩ := Option.map_eq_some_iff.mp hcached
  exact ⟨last, sent, cached, hlast, hmem, race_not_faithful hnew, Or.inl hstored,
    race_not_faithful hnew', fun h => race_not_faithful hnew (h.responses _ _ hmem)⟩

end Stroem.Tarball
