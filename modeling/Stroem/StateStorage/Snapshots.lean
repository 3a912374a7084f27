import Stroem.Foundation.Runs
import Stroem.StateStorage

/-!
# Snapshots keep their bytes

A key is owned by a committed row or by a request that has stored its blob.  While no upload
stores a blob under a key that is owned or whose deletion is due, every key has one owner, and
neither a failed upload nor the background deletion takes a blob from a row.
-/

namespace Stroem.StateStorage

open Foundation

/-! ## What is asked of every state -/

structure SnapshotsKept (s : State) : Prop where
  rows : ∀ row ∈ s.rows, s.blobs row.storageKey = some row.uploaded
  latest : ∀ scope coords row, getLatestForRef scope coords s.rows = some row →
    downloadLatest s scope coords = some row.uploaded

theorem getLatestForRef_mem {scope : Scope} {coords : StateCoords} {rows : List SnapshotRow}
    {row : SnapshotRow} (h : getLatestForRef scope coords rows = some row) : row ∈ rows := by
  have hmem : row ∈ partitionRows scope coords rows := List.mem_of_mem_head? h
  rw [partitionRows, List.mem_insertionSort] at hmem
  exact List.mem_of_mem_filter hmem

theorem SnapshotsKept.of_rows {s : State}
    (h : ∀ row ∈ s.rows, s.blobs row.storageKey = some row.uploaded) : SnapshotsKept s := by
  refine ⟨h, fun scope coords row hlatest => ?_⟩
  rw [downloadLatest, hlatest, Option.bind_some, h row (getLatestForRef_mem hlatest)]

/-! ## Owners of keys -/

inductive Owner
  | row (row : SnapshotRow)
  | call (call : Nat)

def Owns (s : State) : Owner → String → Prop
  | .row row, key => row ∈ s.rows ∧ row.storageKey = key
  | .call call, key => ∃ up, (s.calls call).upload = some up ∧ up.key = key

def freshKey (cfg : Config) (jobs : Uuid → Option StateCoords) (s : State) : Event → Prop
  | .store _ scope jobId _ => ∀ coords, jobs jobId = some coords →
      (∀ o, ¬ Owns s o (uploadKey cfg scope coords jobId)) ∧
        uploadKey cfg scope coords jobId ∉ s.deletions
  | _ => True

def Call.live : Call → Option Upload
  | .failed _ => none
  | c => c.upload

def Call.ownRow : Call → Option SnapshotRow
  | .inserted _ row | .pruning _ row _ | .pruned _ row _ => some row
  | _ => none

def Call.deleted : Call → List SnapshotRow
  | .pruned _ _ deleted => deleted
  | _ => []

def Call.Fits (c : Call) : Prop :=
  ∀ up row, c.upload = some up → c.ownRow = some row →
    row.storageKey = up.key ∧ row.uploaded = up.body

structure Sound (s : State) : Prop where
  unique : ∀ o o' key, Owns s o key → Owns s o' key → o = o'
  kept : ∀ o key, Owns s o key → key ∉ s.deletions
  rowBlob : ∀ row ∈ s.rows, s.blobs row.storageKey = some row.uploaded
  callBlob : ∀ c up, (s.calls c).live = some up → s.blobs up.key = some up.body
  fits : ∀ c, (s.calls c).Fits
  deleted : ∀ c, ∀ row ∈ (s.calls c).deleted, s.locks row.id = some c ∧
    (row ∈ s.rows ∨ (s.calls c).ownRow = some row)

theorem Call.upload_of_live {c : Call} {up : Upload} (h : c.live = some up) :
    c.upload = some up := by
  cases c <;> first | exact h | cases h

section Steps

variable {s : State} {call : Nat}

/-! ## A request's next statement -/

theorem owns_setCall {c : Call} {o : Owner} {key : String} (h : Owns (s.setCall call c) o key) :
    Owns s o key ∨ ∃ up, o = .call call ∧ c.upload = some up ∧ up.key = key := by
  cases o with
  | row row => exact .inl h
  | call other =>
    obtain ⟨up, hup, hkey⟩ := h
    revert hup
    refine State.setCall_cases (P := fun other c' => c'.upload = some up →
      Owns s (.call other) key ∨
        ∃ up, Owner.call other = .call call ∧ c.upload = some up ∧ up.key = key) ?_ ?_ other
    · exact fun hup => .inr ⟨up, rfl, hup, hkey⟩
    · exact fun other _ hup => .inl ⟨up, hup, hkey⟩

theorem owns_setCall_same {c : Call} (hsame : c.upload = (s.calls call).upload) {o : Owner}
    {key : String} (h : Owns (s.setCall call c) o key) : Owns s o key := by
  rcases owns_setCall h with hold | ⟨up, rfl, hup, hkey⟩
  · exact hold
  · exact ⟨up, hsame ▸ hup, hkey⟩

theorem Sound.setCall_of {c : Call} (h : Sound s)
    (howns : ∀ o key, Owns (s.setCall call c) o key → Owns s o key)
    (hlive : ∀ up, c.live = some up → (s.calls call).live = some up) (hfits : c.Fits)
    (hdeleted : ∀ row ∈ c.deleted, s.locks row.id = some call ∧
      (row ∈ s.rows ∨ c.ownRow = some row)) : Sound (s.setCall call c) where
  unique o o' key ho ho' := h.unique o o' key (howns o key ho) (howns o' key ho')
  kept o key ho := h.kept o key (howns o key ho)
  rowBlob := h.rowBlob
  callBlob := State.setCall_cases (P := fun _ c => ∀ up, c.live = some up →
    s.blobs up.key = some up.body) (fun up hup => h.callBlob call up (hlive up hup))
    fun other _ => h.callBlob other
  fits := State.setCall_cases (P := fun _ c => c.Fits) hfits fun other _ => h.fits other
  deleted := State.setCall_cases (P := fun other c => ∀ row ∈ c.deleted,
    s.locks row.id = some other ∧ (row ∈ s.rows ∨ c.ownRow = some row)) hdeleted
    fun other _ => h.deleted other

theorem Sound.setCall {c : Call} (h : Sound s) (hup : c.upload = (s.calls call).upload)
    (hlive : ∀ up, c.live = some up → (s.calls call).live = some up) (hfits : c.Fits)
    (hdeleted : ∀ row ∈ c.deleted, s.locks row.id = some call ∧
      (row ∈ s.rows ∨ c.ownRow = some row)) : Sound (s.setCall call c) :=
  h.setCall_of (fun _ _ => owns_setCall_same hup) hlive hfits hdeleted

theorem Sound.fail {up : Upload} (h : Sound s) (call : Nat)
    (hup : (s.calls call).upload = some up) : Sound (s.setCall call (.failed up)) :=
  h.setCall hup.symm nofun (fun _ _ _ hrow => nomatch hrow) nofun

theorem Sound.endCall (h : Sound s) : Sound (s.setCall call .idle) := by
  refine h.setCall_of (fun o key ho => ?_) (by rintro up ⟨⟩) (by rintro up row ⟨⟩)
    (by rintro row ⟨⟩)
  rcases owns_setCall ho with hold | ⟨up, -, hup, -⟩
  · exact hold
  · cases hup

/-! ## Blobs -/

theorem Sound.setBlob {key : String} {blob : Option (List UInt8)} (h : Sound s)
    (hrows : ∀ row ∈ s.rows, row.storageKey ≠ key)
    (hcalls : ∀ c up, (s.calls c).live = some up → up.key ≠ key) : Sound (s.setBlob key blob) := by
  refine ⟨h.unique, h.kept, ?_, ?_, h.fits, h.deleted⟩
  · intro row hrow
    show Function.update s.blobs key blob row.storageKey = _
    rw [Function.update_of_ne (hrows row hrow)]
    exact h.rowBlob row hrow
  · intro c up hlive
    show Function.update s.blobs key blob up.key = _
    rw [Function.update_of_ne (hcalls c up hlive)]
    exact h.callBlob c up hlive

theorem Sound.store (h : Sound s) (up : Upload) (hfree : ∀ o, ¬ Owns s o up.key)
    (hpending : up.key ∉ s.deletions) :
    Sound ((s.setBlob up.key (some up.body)).setCall call (.stored up)) := by
  have hblob : Sound (s.setBlob up.key (some up.body)) :=
    h.setBlob (fun row hrow hkey => hfree (.row row) ⟨hrow, hkey⟩)
      fun c up' hlive hkey => hfree (.call c) ⟨up', Call.upload_of_live hlive, hkey⟩
  have howns : ∀ o key, Owns ((s.setBlob up.key (some up.body)).setCall call (.stored up)) o key →
      Owns s o key ∨ (o = .call call ∧ key = up.key) := by
    intro o key ho
    rcases owns_setCall ho with hold | ⟨up', hcall, hup, hkey⟩
    · exact .inl hold
    · obtain rfl : up = up' := Option.some.inj hup
      exact .inr ⟨hcall, hkey.symm⟩
  refine ⟨?_, ?_, hblob.rowBlob, ?_, ?_, ?_⟩
  · intro o o' key ho ho'
    rcases howns o key ho with hold | ⟨rfl, rfl⟩
    · rcases howns o' key ho' with hold' | ⟨rfl, rfl⟩
      · exact h.unique o o' key hold hold'
      · exact absurd hold (hfree o)
    · rcases howns o' _ ho' with hold' | ⟨rfl, -⟩
      · exact absurd hold' (hfree o')
      · rfl
  · intro o key ho
    rcases howns o key ho with hold | ⟨rfl, rfl⟩
    · exact h.kept o key hold
    · exact hpending
  · refine State.setCall_cases (P := fun _ c => ∀ up', c.live = some up' →
      (s.setBlob up.key (some up.body)).blobs up'.key = some up'.body) ?_
      fun other _ => hblob.callBlob other
    intro up' hlive
    obtain rfl : up = up' := Option.some.inj hlive
    exact Function.update_self ..
  · refine State.setCall_cases (P := fun _ c => c.Fits) ?_ fun other _ => h.fits other
    intro up' row _ hrow
    cases hrow
  · refine State.setCall_cases (P := fun other c => ∀ row ∈ c.deleted,
      s.locks row.id = some other ∧ (row ∈ s.rows ∨ c.ownRow = some row)) ?_
      fun other _ => h.deleted other
    intro row hrow
    cases hrow

/-! ## Locks -/

theorem Sound.lock {deleted : List SnapshotRow} (h : Sound s) (call : Nat)
    (hfree : ∀ row ∈ deleted, s.locks row.id = none) : Sound (s.lock call deleted) := by
  refine ⟨h.unique, h.kept, h.rowBlob, h.callBlob, h.fits, fun other row hrow => ?_⟩
  obtain ⟨hlock, hmem⟩ := h.deleted other row hrow
  refine ⟨?_, hmem⟩
  show (if row.id ∈ deleted.map (·.id) then some call else s.locks row.id) = some other
  rw [if_neg ?_, hlock]
  intro hid
  obtain ⟨row', hrow', hsame⟩ := List.mem_map.mp hid
  have hnone := hfree row' hrow'
  rw [hsame, hlock] at hnone
  cases hnone

theorem Sound.release (h : Sound s) (call : Nat) (hnone : (s.calls call).deleted = []) :
    Sound (s.release call) := by
  refine ⟨h.unique, h.kept, h.rowBlob, h.callBlob, h.fits, fun other row hrow => ?_⟩
  obtain ⟨hlock, hmem⟩ := h.deleted other row hrow
  refine ⟨?_, hmem⟩
  show (if s.locks row.id = some call then none else s.locks row.id) = some other
  rw [if_neg ?_, hlock]
  rw [hlock]
  intro heq
  obtain rfl : other = call := Option.some.inj heq
  rw [show (s.release other).calls = s.calls from rfl, hnone] at hrow
  cases hrow

/-! ## Commits -/

theorem Sound.addRow {up : Upload} {row : SnapshotRow} (h : Sound s) (call : Nat)
    (hup : (s.calls call).live = some up) (hkey : row.storageKey = up.key)
    (hbytes : row.uploaded = up.body) : Sound ((s.addRow row).setCall call .idle) := by
  have hcall : Owns s (.call call) row.storageKey := ⟨up, Call.upload_of_live hup, hkey.symm⟩
  -- an owner afterwards, and the owner it was before
  have howns : ∀ o key, Owns ((s.addRow row).setCall call .idle) o key →
      ∃ o₀, Owns s o₀ key ∧ (o = o₀ ∧ o ≠ .call call ∨ o = .row row ∧ o₀ = .call call) := by
    intro o key ho
    cases o with
    | row r =>
      obtain ⟨hr, rfl⟩ := ho
      rcases List.mem_append.mp hr with hold | hnew
      · exact ⟨.row r, ⟨hold, rfl⟩, .inl ⟨rfl, nofun⟩⟩
      · obtain rfl := List.mem_singleton.mp hnew
        exact ⟨.call call, hcall, .inr ⟨rfl, rfl⟩⟩
    | call other =>
      obtain ⟨up', hup', hkey'⟩ := ho
      revert hup'
      refine State.setCall_cases (P := fun other c => c.upload = some up' → ∃ o₀, Owns s o₀ key ∧
        (Owner.call other = o₀ ∧ Owner.call other ≠ .call call ∨
          Owner.call other = .row row ∧ o₀ = .call call)) ?_ ?_ other
      · intro hup'
        cases hup'
      · intro other hne hup'
        exact ⟨.call other, ⟨up', hup', hkey'⟩, .inl ⟨rfl, fun heq => hne (Owner.call.inj heq)⟩⟩
  have hrest : Sound (s.setCall call .idle) := h.endCall
  refine ⟨?_, ?_, ?_, hrest.callBlob, hrest.fits, ?_⟩
  · intro o o' key ho ho'
    obtain ⟨o₀, hold, hcase⟩ := howns o key ho
    obtain ⟨o₀', hold', hcase'⟩ := howns o' key ho'
    obtain rfl := h.unique o₀ o₀' key hold hold'
    rcases hcase with ⟨rfl, hne⟩ | ⟨rfl, rfl⟩
    · rcases hcase' with ⟨rfl, -⟩ | ⟨-, heq⟩
      · rfl
      · exact absurd heq hne
    · rcases hcase' with ⟨rfl, hne⟩ | ⟨rfl, -⟩
      · exact absurd rfl hne
      · rfl
  · intro o key ho
    obtain ⟨o₀, hold, -⟩ := howns o key ho
    exact h.kept o₀ key hold
  · intro r hr
    rcases List.mem_append.mp hr with hold | hnew
    · exact h.rowBlob r hold
    · obtain rfl := List.mem_singleton.mp hnew
      rw [hkey, hbytes]
      exact h.callBlob call up hup
  · intro other r hr
    obtain ⟨hlock, hmem⟩ := hrest.deleted other r hr
    exact ⟨hlock, hmem.imp_left fun hold => List.mem_append_left _ hold⟩

theorem Sound.removeRows {deleted : List SnapshotRow} (h : Sound s)
    (hidle : (s.calls call).deleted = [])
    (hdeleted : ∀ d ∈ deleted, s.locks d.id = some call ∧ d ∈ s.rows) :
    Sound (s.removeRows deleted) := by
  have hmem : ∀ r, r ∈ (s.removeRows deleted).rows ↔
      r ∈ s.rows ∧ ∀ d ∈ deleted, d.id ≠ r.id := by
    intro r
    simp [State.removeRows]
  have howns : ∀ o key, Owns (s.removeRows deleted) o key → Owns s o key := by
    intro o key ho
    cases o with
    | row r => exact ⟨((hmem r).mp ho.1).1, ho.2⟩
    | call other => exact ho
  refine ⟨fun o o' key ho ho' => h.unique o o' key (howns o key ho) (howns o' key ho'), ?_,
    fun r hr => h.rowBlob r ((hmem r).mp hr).1, h.callBlob, h.fits, ?_⟩
  · intro o key ho hkey
    rcases List.mem_append.mp hkey with hold | hnew
    · exact h.kept o key (howns o key ho) hold
    · -- the key of a removed row has that row as its one owner
      obtain ⟨d, hd, rfl⟩ := List.mem_map.mp hnew
      obtain rfl := h.unique o (.row d) _ (howns o _ ho) ⟨(hdeleted d hd).2, rfl⟩
      exact ((hmem d).mp ho.1).2 d hd rfl
  · intro other r hr
    obtain ⟨hlock, hcase⟩ := h.deleted other r hr
    refine ⟨hlock, hcase.imp_left fun hold => (hmem r).mpr ⟨hold, fun d hd hid => ?_⟩⟩
    have hsame := (hdeleted d hd).1
    rw [hid, hlock] at hsame
    obtain rfl : other = call := Option.some.inj hsame
    rw [show (s.removeRows deleted).calls = s.calls from rfl, hidle] at hr
    cases hr

theorem Sound.commit {up : Upload} {row : SnapshotRow} {deleted : List SnapshotRow} (h : Sound s)
    (hcall : s.calls call = .pruned up row deleted) :
    Sound ((((s.addRow row).setCall call .idle).removeRows deleted).release call) := by
  have hfits := h.fits call up row (by rw [hcall]; rfl) (by rw [hcall]; rfl)
  have hidle : (((s.addRow row).setCall call .idle).calls call).deleted = [] := by
    simp [State.setCall, Call.deleted]
  have hadd := h.addRow call (by rw [hcall]; rfl) hfits.1 hfits.2
  refine (hadd.removeRows hidle fun d hd => ?_).release call hidle
  have hlocked := h.deleted call d (by rw [hcall]; exact hd)
  rw [hcall] at hlocked
  refine ⟨hlocked.1, List.mem_append.mpr (hlocked.2.imp_right fun hrow => ?_)⟩
  obtain rfl : row = d := Option.some.inj hrow
  exact List.mem_singleton_self row

end Steps

/-! ## Runs -/

section Runs

variable {cfg : Config} {jobs : Uuid → Option StateCoords}

theorem step_sound {s s' : State} {e : Event} (h : Sound s) (hfresh : freshKey cfg jobs s e)
    (hstep : step cfg jobs s e = some s') : Sound s' := by
  cases e with
  | store call scope jobId body =>
    simp only [step] at hstep
    split at hstep
    · rename_i coords hcall hjob
      cases hstep
      obtain ⟨hfree, hpending⟩ := hfresh coords hjob
      exact h.store ⟨scope, jobId, coords, uploadKey cfg scope coords jobId, body⟩ hfree hpending
    · cases hstep
  | begin call createdAt ok =>
    simp only [step] at hstep
    split at hstep
    · rename_i up hcall
      cases hstep
      cases ok with
      | false => exact h.fail call (by rw [hcall]; rfl)
      | true =>
        refine h.setCall (by rw [hcall]; rfl) ?_ (fun _ _ _ hrow => by cases hrow)
          (fun _ hrow => by cases hrow)
        rw [hcall]
        exact fun up hup => hup
    · cases hstep
  | insert call id ok =>
    simp only [step] at hstep
    split at hstep
    · rename_i up createdAt hcall
      cases ok with
      | false =>
        cases hstep
        exact h.fail call (by rw [hcall]; rfl)
      | true =>
        simp only [if_true] at hstep
        split at hstep
        · cases hstep
        · cases hstep
          have hids : Sound { s with ids := id :: s.ids } :=
            ⟨h.unique, h.kept, h.rowBlob, h.callBlob, h.fits, h.deleted⟩
          refine hids.setCall (by rw [hcall]; rfl) ?_ ?_ (fun _ hrow => by cases hrow)
          · rw [hcall]
            exact fun up hup => hup
          · intro up' row hup hrow
            obtain rfl : up = up' := Option.some.inj hup
            cases hrow
            exact ⟨rfl, rfl⟩
    · cases hstep
  | pruneStart call =>
    simp only [step] at hstep
    split at hstep
    · rename_i up row hcall
      cases hstep
      have hfits := h.fits call
      rw [hcall] at hfits
      refine h.setCall (by rw [hcall]; rfl) ?_ hfits (fun _ hrow => by cases hrow)
      rw [hcall]
      exact fun up hup => hup
    · cases hstep
  | pruneDone call ok =>
    simp only [step] at hstep
    split at hstep
    · rename_i up row targets hcall
      cases ok with
      | false =>
        cases hstep
        exact h.fail call (by rw [hcall]; rfl)
      | true =>
        simp only [if_true] at hstep
        split at hstep
        · rename_i hunlocked
          cases hstep
          have hfits := h.fits call
          rw [hcall] at hfits
          have hmem : ∀ r ∈ (s.rows ++ [row]).filter (fun r => r.id ∈ targets),
              r ∈ s.rows ++ [row] ∧ r.id ∈ targets := fun r hr => by
            simpa [or_and_right] using hr
          have hlock := h.lock call fun r hr => hunlocked r.id (hmem r hr).2
          have hcalls : (s.lock call ((s.rows ++ [row]).filter fun r => r.id ∈ targets)).calls
              call = .pruning up row targets := hcall
          refine hlock.setCall (by rw [hcalls]; rfl) ?_ hfits ?_
          · rw [hcalls]
            exact fun up hup => hup
          · intro r hr
            refine ⟨if_pos (List.mem_map_of_mem hr), ?_⟩
            rcases List.mem_append.mp (hmem r hr).1 with hold | hnew
            · exact .inl hold
            · obtain rfl := List.mem_singleton.mp hnew
              exact .inr rfl
        · cases hstep
    · cases hstep
  | commit call ok =>
    simp only [step] at hstep
    split at hstep
    · rename_i up row deleted hcall
      cases ok with
      | false =>
        cases hstep
        -- the rollback releases the locks of a request that has failed
        have hfail := h.fail call (show (s.calls call).upload = some up by rw [hcall]; rfl)
        refine hfail.release call ?_
        simp [State.setCall, Call.deleted]
      | true =>
        cases hstep
        exact h.commit hcall
    · cases hstep
  | cleanup call =>
    simp only [step] at hstep
    split at hstep
    · rename_i up hcall
      cases hstep
      have hown : Owns s (.call call) up.key := ⟨up, by rw [hcall]; rfl, rfl⟩
      refine (h.setBlob (fun row hrow hkey => ?_) fun other up' hlive hkey => ?_).endCall
      · cases h.unique (.row row) (.call call) up.key ⟨hrow, hkey⟩ hown
      · have hother : Owns s (.call other) up.key := ⟨up', Call.upload_of_live hlive, hkey⟩
        obtain rfl := Owner.call.inj (h.unique _ _ _ hother hown)
        rw [hcall] at hlive
        cases hlive
    · cases hstep
  | deletePruned key =>
    simp only [step] at hstep
    split at hstep
    · rename_i hkey
      cases hstep
      have herase : Sound { s with deletions := s.deletions.erase key } :=
        ⟨h.unique, fun o key' ho hmem => h.kept o key' ho (List.mem_of_mem_erase hmem),
          h.rowBlob, h.callBlob, h.fits, h.deleted⟩
      refine herase.setBlob (fun row hrow hsame => ?_) fun c up hlive hsame => ?_
      · exact h.kept (.row row) key ⟨hrow, hsame⟩ hkey
      · exact h.kept (.call c) key ⟨up, Call.upload_of_live hlive, hsame⟩ hkey
    · cases hstep

theorem not_owns_of_idle {s : State} {key : String} (hcalls : ∀ c, s.calls c = .idle)
    (hrows : ∀ row ∈ s.rows, row.storageKey ≠ key) (o : Owner) : ¬ Owns s o key := by
  intro ho
  cases o with
  | row row => exact hrows row ho.1 ho.2
  | call call =>
    obtain ⟨up, hup, -⟩ := ho
    rw [hcalls] at hup
    cases hup

theorem sound_start : Sound {} := by
  have hnone : ∀ o key, ¬ Owns {} o key := by
    intro o key
    refine not_owns_of_idle (fun _ => rfl) ?_ o
    intro row hrow
    cases hrow
  refine ⟨fun o o' key ho => absurd ho (hnone o key), fun o key ho => absurd ho (hnone o key),
    ?_, ?_, ?_, ?_⟩
  · intro row hrow
    cases hrow
  · intro c up hlive
    cases hlive
  · intro c up row hup
    cases hup
  · intro c row hrow
    cases hrow

/--
In every run whose uploads store under fresh keys, every row's blob is what was uploaded with it,
and the latest snapshot of every partition can be downloaded.
-/
theorem snapshots_kept (cfg : Config) (jobs : Uuid → Option StateCoords) (events : List Event)
    (hfresh : Meets (step cfg jobs) (freshKey cfg jobs) {} events) (s : State)
    (hrun : exec (step cfg jobs) {} events = some s) : SnapshotsKept s :=
  .of_rows (exec_invariant Sound (fun _ _ _ => step_sound) sound_start hfresh hrun).rowBlob

end Runs

/-! ## Two uploads of one job -/

def deployConfig : Config := ⟨"state/", 5, none⟩

def deployJobs (_ : Uuid) : Option StateCoords := some ⟨"main", "deploy", none⟩

def uploadEvents (call : Nat) (jobId : Uuid) (body : List UInt8) (id : Uuid) : List Event :=
  [.store call .task jobId body, .begin call id true, .insert call id true, .pruneStart call,
    .pruneDone call true, .commit call true]

def twoJobEvents : List Event :=
  uploadEvents 0 7 [1] 100 ++ [.store 0 .task 8 [2], .begin 0 101 false, .cleanup 0]

theorem snapshots_kept_twoJobs :
    ∃ s, exec (step deployConfig deployJobs) {} twoJobEvents = some s ∧ SnapshotsKept s := by
  refine ⟨_, rfl, snapshots_kept deployConfig deployJobs twoJobEvents ?_ _ rfl⟩
  have hfirst : freshKey deployConfig deployJobs {} (.store 0 .task 7 [1]) := fun coords _ =>
    ⟨not_owns_of_idle (fun _ => rfl) nofun, nofun⟩
  refine ⟨hfirst, fun s₁ h₁ => ⟨trivial, fun s₂ h₂ => ⟨trivial, fun s₃ h₃ => ⟨trivial,
    fun s₄ h₄ => ⟨trivial, fun s₅ h₅ => ⟨trivial, fun s₆ h₆ => ⟨?_, fun s₇ _ => ⟨trivial,
      fun s₈ _ => ⟨trivial, fun _ _ => trivial⟩⟩⟩⟩⟩⟩⟩⟩⟩
  cases h₁
  cases h₂
  cases h₃
  cases h₄
  cases h₅
  cases h₆
  intro coords hcoords
  cases hcoords
  refine ⟨not_owns_of_idle (fun c => ?_) (by decide +kernel), by decide +kernel⟩
  simp [State.setCall, State.release, State.removeRows, State.addRow, State.lock, State.setBlob]

/-- The second upload overwrites the first one's blob: both rows refer to its bytes. -/
theorem second_upload_overwrites :
    ∃ s, exec (step deployConfig deployJobs) {}
        (uploadEvents 0 7 [1] 100 ++ uploadEvents 0 7 [2] 101) = some s ∧ ¬ SnapshotsKept s := by
  refine ⟨_, rfl, fun h => ?_⟩
  have hfirst := h.rows ⟨.task, 100, "main", "deploy", 7,
    storageKey deployConfig "main" "deploy" 7, 1, 100, none, [1]⟩ (by decide +kernel)
  revert hfirst
  decide +kernel

end Stroem.StateStorage
