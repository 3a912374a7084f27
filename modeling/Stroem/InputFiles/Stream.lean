import Stroem.BlobArchive.AllOrNothing

/-!
# Counted uploads

`put_counted` counts and hashes a body while the archive writes it.  Over the limit the counted
stream yields an error in place of the chunk, and the outcome is decided by what the counter saw.
-/

namespace Stroem.InputFiles

open Foundation
open BlobArchive (Tree Name StreamError Files Poll putStreamOver feed ownPaths collect
  components ctPathFor tmpPathFor Within Drained Polled)

def u64Max : Nat := 2 ^ 64 - 1

structure Tally where
  size : Nat := 0
  hashed : ByteArray := ByteArray.empty
  tooLarge : Bool := false
  bodyErr : Option String := none

/-- `Counted::poll_next` on a ready item.  `put_stream` does not poll again behind an error, so
`done` is not kept. -/
def counted (max : Nat) : Poll Tally
  | .ok chunk, tally =>
    let size := min (tally.size + chunk.size) u64Max
    if max < size then (none, { tally with size, tooLarge := true })
    else (some chunk, { tally with size, hashed := tally.hashed ++ chunk })
  | .error e, tally => (none, { tally with bodyErr := some e })

inductive PutError
  | tooLarge (max : Nat)
  | body (e : String)
  | storage (e : StreamError)
  deriving DecidableEq

structure Stored where
  sizeBytes : Nat
  sha256 : String
  deriving DecidableEq

def discard (key : String) (t : Tree) : Tree :=
  match BlobArchive.delete key t with
  | .ok _ t' => t'
  | .error _ t' => t'

def conclude (sha256 : ByteArray → String) (key : String) (maxBytes : Nat)
    (result : Option StreamError) (tally : Tally) (t : Tree) : Except PutError Stored × Tree :=
  if tally.tooLarge || tally.bodyErr.isSome then
    let kept := if result.isNone then discard key t else t
    match tally.bodyErr with
    | some e => (.error (if tally.tooLarge then .tooLarge maxBytes else .body e), kept)
    | none => (.error (.tooLarge maxBytes), kept)
  else match result with
    | some e => (.error (.storage e), discard key t)
    | none => (.ok ⟨tally.size, sha256 tally.hashed⟩, t)

def putCounted (sha256 : ByteArray → String) (faults : Nat → BlobArchive.Outcome)
    (suffix key contentType : String) (body : List (Except String ByteArray)) (maxBytes : Nat)
    (t : Tree) : Except PutError Stored × Tree :=
  match putStreamOver faults (counted maxBytes) suffix key contentType body ⟨t, 0, {}⟩ with
  | .ok _ s => conclude sha256 key maxBytes none s.seen s.tree
  | .error e s => conclude sha256 key maxBytes (some e) s.seen s.tree

/-! ## The tally -/

def received : List (Except String ByteArray) → Nat
  | [] => 0
  | .ok chunk :: rest => chunk.size + received rest
  | .error _ :: rest => received rest

variable {body : List (Except String ByteArray)}

theorem feed_counted_eq_some {max : Nat} {tally tally' : Tally} {data : ByteArray}
    (hsize : tally.size ≤ max) (h : feed (counted max) tally body = (some data, tally')) :
    collect body = some data ∧ tally'.size ≤ max ∧
      tally' = { tally with size := tally'.size, hashed := tally.hashed ++ data } ∧
      (tally.size + data.size ≤ u64Max → tally'.size = tally.size + data.size) := by
  induction body generalizing tally data with
  | nil =>
    obtain ⟨hdata, rfl⟩ := Prod.mk.inj h
    cases hdata
    refine ⟨rfl, hsize, ?_, fun _ => rfl⟩
    rw [ByteArray.append_empty]
  | cons item rest ih =>
    cases item with
    | error e => cases h
    | ok chunk =>
      rw [feed, counted] at h
      by_cases hlarge : max < min (tally.size + chunk.size) u64Max
      · rw [if_pos hlarge] at h
        cases h
      · rw [if_neg hlarge] at h
        obtain ⟨hdata, htally⟩ := Prod.mk.inj h
        obtain ⟨data', hdata', rfl⟩ := Option.map_eq_some_iff.mp hdata
        have hfeed : feed (counted max)
            { tally with
              size := min (tally.size + chunk.size) u64Max, hashed := tally.hashed ++ chunk }
            rest = (some data', tally') := Prod.ext hdata' htally
        obtain ⟨hcollect, hle, heq, htotal⟩ := ih (Nat.le_of_not_lt hlarge) hfeed
        refine ⟨?_, hle, ?_, fun hmax => ?_⟩
        · rw [collect, hcollect]
          rfl
        · rw [heq, ByteArray.append_assoc]
        · rw [ByteArray.size_append] at hmax ⊢
          have hfits : min (tally.size + chunk.size) u64Max = tally.size + chunk.size :=
            Nat.min_eq_left (by omega)
          rw [hfits] at htotal
          dsimp only at htotal
          rw [htotal (by omega), Nat.add_assoc]

theorem feed_counted_stopped {max : Nat} (front : List (Except String ByteArray)) (tally : Tally)
    (hclean : tally.tooLarge = false ∧ tally.bodyErr = none) :
    ((feed (counted max) tally front).2.tooLarge = true → max < tally.size + received front) ∧
      ∀ e, (feed (counted max) tally front).2.bodyErr = some e → .error e ∈ front := by
  induction front generalizing tally with
  | nil =>
    rw [feed]
    dsimp only
    rw [hclean.1, hclean.2]
    exact ⟨fun h => (by cases h), fun e h => (by cases h)⟩
  | cons item rest ih =>
    cases item with
    | error e =>
      rw [feed, counted]
      dsimp only
      rw [hclean.1]
      refine ⟨fun h => (by cases h), fun e' h => ?_⟩
      cases h
      exact List.mem_cons_self
    | ok chunk =>
      rw [feed, counted, received]
      by_cases hlarge : max < min (tally.size + chunk.size) u64Max
      · rw [if_pos hlarge]
        dsimp only
        rw [hclean.2]
        exact ⟨fun _ => by omega, fun e h => (by cases h)⟩
      · rw [if_neg hlarge]
        dsimp only
        obtain ⟨htooLarge, hbody⟩ := ih
          { tally with
            size := min (tally.size + chunk.size) u64Max, hashed := tally.hashed ++ chunk }
          hclean
        refine ⟨fun h => ?_, fun e h => List.mem_cons_of_mem _ (hbody e h)⟩
        have hlt := htooLarge h
        dsimp only at hlt
        omega

/-! ## `delete` -/

section Discard

variable {t t₀ : Tree} {own : List (List Name)} {key : String}

theorem discard_eq (hkey : BlobArchive.validateKey key = .ok ()) (t : Tree) : discard key t =
    BlobArchive.settled (fun t => t.removeFile (components key))
      (BlobArchive.settled (fun t => t.removeFile (ctPathFor (components key))) t) := by
  have hdelete : BlobArchive.delete key t =
      BlobArchive.ignoreNotFound (fun t => t.removeFile (components key))
        (BlobArchive.settled (fun t => t.removeFile (ctPathFor (components key))) t) := by
    unfold BlobArchive.delete BlobArchive.pathFor
    rw [hkey]
    change EStateM.bind (BlobArchive.attempt _) _ t = _
    unfold EStateM.bind
    rw [BlobArchive.attempt_eq_settled]
  unfold discard
  rw [hdelete]
  rcases BlobArchive.ignoreNotFound_eq_settled (fun t => t.removeFile (components key))
    (BlobArchive.settled (fun t => t.removeFile (ctPathFor (components key))) t) with h | ⟨e, h⟩
  · rw [h]
  · rw [h]

theorem within_discard (hpath : components key ∈ own ∧ t₀ (components key) = none)
    (hct : ctPathFor (components key) ∈ own ∧ t₀ (ctPathFor (components key)) = none)
    (hkey : BlobArchive.validateKey key = .ok ())
    (h : Within own [components key, ctPathFor (components key)] t₀ t) :
    Within own [] t₀ (discard key t) := by
  rw [discard_eq hkey]
  obtain ⟨hfirst, hnoneCt, -⟩ := h.remove hct.1 (List.mem_cons_of_mem _ List.mem_cons_self)
  obtain ⟨hsecond, hnone, hstay⟩ := hfirst.remove hpath.1 List.mem_cons_self
  refine hsecond.forget fun p hp => .inr ?_
  rcases List.mem_cons.mp hp with rfl | hp
  · exact ⟨hnone, hpath.2⟩
  · obtain rfl := List.mem_singleton.mp hp
    exact ⟨hstay _ hnoneCt, hct.2⟩

theorem within_discard_nil (hpath : components key ∈ own ∧ t₀ (components key) = none)
    (hct : ctPathFor (components key) ∈ own ∧ t₀ (ctPathFor (components key)) = none)
    (h : Within own [] t₀ t) : Within own [] t₀ (discard key t) := by
  cases hkey : BlobArchive.validateKey key with
  | ok _ =>
    exact within_discard hpath hct hkey (h.forget fun p hp => absurd hp List.not_mem_nil)
  | error e =>
    have hkeep : discard key t = t := by
      unfold discard BlobArchive.delete BlobArchive.pathFor
      rw [hkey]
      rfl
    rw [hkeep]
    exact h

end Discard

/-! ## Uploads -/

structure Refused (suffix key : String) (body : List (Except String ByteArray)) (maxBytes : Nat)
    (t t' : Tree) (e : PutError) : Prop where
  gone : ∀ p ∈ ownPaths suffix key, t' p = none
  missing : ∀ blob, BlobArchive.get t' key ≠ .ok (some blob)
  files : ∀ p c, t' p = some (.file c) ↔ t p = some (.file c)
  tooLarge : ∀ max, e = .tooLarge max →
    max = maxBytes ∧ ∃ front, front <+: body ∧ maxBytes < received front
  body : ∀ message, e = .body message → .error message ∈ body

theorem refused_of_within {suffix key : String} {maxBytes : Nat} {t t' : Tree} {e : PutError}
    (hfresh : ∀ p ∈ ownPaths suffix key, t p = none) (h : Within (ownPaths suffix key) [] t t')
    (htooLarge : ∀ max, e = .tooLarge max →
      max = maxBytes ∧ ∃ front, front <+: body ∧ maxBytes < received front)
    (hbody : ∀ message, e = .body message → .error message ∈ body) :
    Refused suffix key body maxBytes t t' e := by
  have hgone : ∀ p ∈ ownPaths suffix key, t' p = none :=
    fun p hp => h.eq_none hp List.not_mem_nil (hfresh p hp)
  refine ⟨hgone, fun blob hget => ?_, fun p => h.files p List.not_mem_nil, htooLarge, hbody⟩
  unfold BlobArchive.get at hget
  cases hpath : BlobArchive.pathFor key with
  | error e =>
    rw [hpath] at hget
    cases hget
  | ok path =>
    obtain ⟨-, rfl⟩ := BlobArchive.pathFor_eq_ok hpath
    rw [hpath] at hget
    dsimp only at hget
    cases hread : FileTree.read t' (components key) with
    | ok bytes =>
      have hfile := FileTree.eq_of_read_eq_ok hread
      rw [hgone (components key) (by simp [ownPaths])] at hfile
      cases hfile
    | error e =>
      rw [hread] at hget
      cases e <;> cases hget

theorem stored_of_put {suffix key contentType : String} {data : ByteArray} {t t' : Tree}
    (hwf : t.WellFormed) (hfresh : ∀ p ∈ ownPaths suffix key, t p = none)
    (hput : BlobArchive.put suffix key contentType data t = .ok () t') :
    BlobArchive.get t' key = .ok (some ⟨contentType, data⟩) ∧
      t' (tmpPathFor suffix (components key)) = none ∧
      t' (tmpPathFor suffix (ctPathFor (components key))) = none := by
  have htemp : tmpPathFor suffix (components key) ∈ ownPaths suffix key := by simp [ownPaths]
  have htempCt : tmpPathFor suffix (ctPathFor (components key)) ∈ ownPaths suffix key := by
    simp [ownPaths]
  obtain ⟨path, _, hlift, -⟩ := bind_eq_ok.mp hput
  have hkey := (BlobArchive.pathFor_eq_ok (BlobArchive.liftError_eq_ok.mp hlift).1).1
  obtain ⟨data', hdata, hfree, hdir, hdirCt, rfl⟩ :=
    BlobArchive.putStream_eq_ok (hfresh _ htemp) (hfresh _ htempCt) hput
  obtain rfl : data = data' := by
    have hsome : data ++ ByteArray.empty = data' := Option.some.inj hdata
    rwa [ByteArray.append_empty] at hsome
  have hapart := BlobArchive.tmpPathFor_apart suffix (components key)
  have hgone : ∀ p ∈ ownPaths suffix key, p ≠ components key → p ≠ ctPathFor (components key) →
      BlobArchive.afterPut t key contentType data p = none := by
    intro p hp hpath hct
    unfold BlobArchive.afterPut
    rw [if_neg (BlobArchive.ctPathFor_components key ▸ hct), if_neg hpath,
      if_neg (BlobArchive.not_prefix_parent (BlobArchive.length_of_mem_ownPaths hp))]
    exact hfresh p hp
  have hanswers : BlobArchive.Answers 0 (BlobArchive.afterPut t key contentType data) key
      (some ⟨contentType, data⟩) :=
    BlobArchive.Holds.answers (BlobArchive.wellFormed_afterPut hwf hdir hdirCt) hkey
      BlobArchive.holds_afterPut_self
  exact ⟨hanswers.get, hgone _ htemp hapart.data hapart.data_ct,
    hgone _ htempCt hapart.temp hapart.temp_ct⟩

theorem counted_clean {max : Nat} {tally : Tally} (h : Drained (counted max) body {} tally) :
    tally.tooLarge = false ∧ tally.bodyErr = none := by
  obtain ⟨data, hfeed⟩ := h
  obtain ⟨-, -, heq, -⟩ := feed_counted_eq_some (Nat.zero_le max) hfeed
  rw [heq]
  exact ⟨rfl, rfl⟩

theorem refused_of_failed {sha256 : ByteArray → String} {suffix key : String} {maxBytes : Nat}
    {t t' : Tree} {e : StreamError} {s : Files Tally} {result : Except PutError Stored}
    (hfresh : ∀ p ∈ ownPaths suffix key, t p = none)
    (hfailed : BlobArchive.validateKey key = .ok () ∧
        BlobArchive.Failed (counted maxBytes) body (ownPaths suffix key) t {} []
          [components key, ctPathFor (components key)] s ∨
      Within (ownPaths suffix key) [] t s.tree ∧ Polled (counted maxBytes) body {} s.seen)
    (h : conclude sha256 key maxBytes (some e) s.seen s.tree = (result, t')) :
    ∃ error, result = .error error ∧ Refused suffix key body maxBytes t t' error := by
  have hpath : components key ∈ ownPaths suffix key ∧ t (components key) = none := by
    have hmem : components key ∈ ownPaths suffix key := by simp [ownPaths]
    exact ⟨hmem, hfresh _ hmem⟩
  have hct : ctPathFor (components key) ∈ ownPaths suffix key ∧
      t (ctPathFor (components key)) = none := by
    have hmem : ctPathFor (components key) ∈ ownPaths suffix key := by simp [ownPaths]
    exact ⟨hmem, hfresh _ hmem⟩
  -- Either nothing but directories was added, or the stream was drained.
  have hcases : (Within (ownPaths suffix key) [] t s.tree ∧
        Polled (counted maxBytes) body {} s.seen) ∨
      (s.seen.tooLarge = false ∧ s.seen.bodyErr = none) ∧
        Within (ownPaths suffix key) [] t (discard key s.tree) := by
    rcases hfailed with ⟨hkey, hearly | ⟨hwithin, hdrained⟩⟩ | hearly
    · exact .inl hearly
    · exact .inr ⟨counted_clean hdrained, within_discard hpath hct hkey hwithin⟩
    · exact .inl hearly
  unfold conclude at h
  by_cases hstopped : (s.seen.tooLarge || s.seen.bodyErr.isSome) = true
  · rw [if_pos hstopped] at h
    rcases hcases with ⟨hwithin, front, hfront, hfeed⟩ | ⟨⟨hsmall, hnone⟩, -⟩
    · have hstop : ((feed (counted maxBytes) {} front).2.tooLarge = true →
            maxBytes < 0 + received front) ∧
          ∀ e, (feed (counted maxBytes) {} front).2.bodyErr = some e → .error e ∈ front :=
        feed_counted_stopped front {} ⟨rfl, rfl⟩
      rw [hfeed, Nat.zero_add] at hstop
      obtain ⟨htooLarge, hbody⟩ := hstop
      dsimp only [Option.isNone_some] at h
      cases herr : s.seen.bodyErr with
      | none =>
        rw [herr] at h
        obtain ⟨rfl, rfl⟩ := Prod.mk.inj h
        refine ⟨_, rfl, refused_of_within hfresh hwithin ?_ fun m hm => by cases hm⟩
        rintro m ⟨⟩
        rw [herr, Option.isSome_none, Bool.or_false] at hstopped
        exact ⟨rfl, front, hfront, htooLarge hstopped⟩
      | some message =>
        rw [herr] at h
        obtain ⟨rfl, rfl⟩ := Prod.mk.inj h
        refine ⟨_, rfl, refused_of_within hfresh hwithin ?_ ?_⟩
        · intro m hm
          split at hm
          · next hlarge =>
            cases hm
            exact ⟨rfl, front, hfront, htooLarge hlarge⟩
          · cases hm
        · intro m hm
          split at hm
          · cases hm
          · cases hm
            exact hfront.subset (hbody message herr)
    · rw [hsmall, hnone] at hstopped
      cases hstopped
  · rw [if_neg hstopped] at h
    obtain ⟨rfl, rfl⟩ := Prod.mk.inj h
    have hwithin : Within (ownPaths suffix key) [] t (discard key s.tree) := by
      rcases hcases with ⟨hwithin, -⟩ | ⟨-, hwithin⟩
      · exact within_discard_nil hpath hct hwithin
      · exact hwithin
    exact ⟨_, rfl, refused_of_within hfresh hwithin (fun m hm => by cases hm)
      fun m hm => by cases hm⟩

/--
An upload is all or nothing: one that returns `Ok` stored exactly its body, within the limit, and
one that fails leaves no file.
-/
theorem putCounted_all_or_nothing (sha256 : ByteArray → String)
    (faults : Nat → BlobArchive.Outcome) (suffix key contentType : String)
    (body : List (Except String ByteArray)) (maxBytes : Nat) (t : Tree) (hwf : t.WellFormed)
    (hfresh : ∀ p ∈ ownPaths suffix key, t p = none) :
    (∀ stored t', putCounted sha256 faults suffix key contentType body maxBytes t =
        (.ok stored, t') →
      ∃ data, collect body = some data ∧ data.size ≤ maxBytes ∧
        stored = ⟨data.size, sha256 data⟩ ∧
        BlobArchive.get t' key = .ok (some ⟨contentType, data⟩) ∧
        t' (tmpPathFor suffix (components key)) = none ∧
        t' (tmpPathFor suffix (ctPathFor (components key))) = none) ∧
    ∀ e t', putCounted sha256 faults suffix key contentType body maxBytes t = (.error e, t') →
      Refused suffix key body maxBytes t t' e := by
  have hdata : t (tmpPathFor suffix (components key)) = none := hfresh _ (by simp [ownPaths])
  have hct : t (tmpPathFor suffix (ctPathFor (components key))) = none :=
    hfresh _ (by simp [ownPaths])
  have hfailed := @BlobArchive.triple_putStreamOver _ faults (counted maxBytes) t suffix key
    contentType body {} hwf hfresh
  unfold putCounted
  cases hrun : putStreamOver faults (counted maxBytes) suffix key contentType body ⟨t, 0, {}⟩ with
  | error e s =>
    dsimp only
    have hend := hfailed.error ⟨rfl, rfl⟩ hrun
    refine ⟨fun stored t' h => ?_, fun e' t' h => ?_⟩
    · obtain ⟨error, herror, -⟩ := refused_of_failed hfresh hend h
      cases herror
    · obtain ⟨error, herror, hrefused⟩ := refused_of_failed hfresh hend h
      obtain rfl := Except.error.inj herror
      exact hrefused
  | ok _ s =>
    dsimp only
    obtain ⟨data, hfeed, hsize, hput⟩ := BlobArchive.putStreamOver_eq_ok
      (s := (⟨t, 0, ({} : Tally)⟩ : Files Tally)) hwf hrun
    obtain ⟨hcollect, hle, heq, htotal⟩ := feed_counted_eq_some (Nat.zero_le maxBytes) hfeed
    have hclean := counted_clean ⟨data, hfeed⟩
    have htally : s.seen.size = data.size := by
      have hmax : BlobArchive.maxFileSize ≤ u64Max := by decide
      rw [htotal (by simpa using hsize.trans hmax)]
      exact Nat.zero_add _
    have hconclude : conclude sha256 key maxBytes none s.seen s.tree =
        (.ok ⟨data.size, sha256 data⟩, s.tree) := by
      have hhashed : s.seen.hashed = data := by
        rw [heq]
        exact ByteArray.empty_append
      unfold conclude
      rw [hclean.1, hclean.2, hhashed, htally]
      rfl
    rw [hconclude]
    refine ⟨?_, fun e t' h => by cases h⟩
    rintro stored t' ⟨⟩
    obtain ⟨hget, hgone⟩ := stored_of_put hwf hfresh hput
    exact ⟨data, hcollect, hle.trans' htally.ge, rfl, hget, hgone⟩

def greeting : List (Except String ByteArray) := [.ok ⟨#[104, 105]⟩, .ok ⟨#[33]⟩]

def putGreeting (faults : Nat → BlobArchive.Outcome) (maxBytes : Nat) :
    Except PutError Stored × Tree :=
  putCounted (fun data => toString data.size) faults "5e" "up/file_1" "text/plain" greeting
    maxBytes FileTree.empty

def lastRename (call : Nat) : BlobArchive.Outcome :=
  if call = 9 then .failed 0 else .done

theorem putCounted_all_or_nothing_greeting :
    ((putGreeting (fun _ => .done) 3).1 = .ok ⟨3, "3"⟩ ∧
      BlobArchive.get (putGreeting (fun _ => .done) 3).2 "up/file_1" =
        .ok (some ⟨"text/plain", ⟨#[104, 105, 33]⟩⟩)) ∧
    ((putGreeting lastRename 3).1 = .error (.storage .failed) ∧
      Refused "5e" "up/file_1" greeting 3 FileTree.empty (putGreeting lastRename 3).2
        (.storage .failed)) ∧
    (putGreeting (fun _ => .done) 2).1 = .error (.tooLarge 2) ∧
      Refused "5e" "up/file_1" greeting 2 FileTree.empty (putGreeting (fun _ => .done) 2).2
        (.tooLarge 2) := by
  have hfresh : ∀ p ∈ ownPaths "5e" "up/file_1", (FileTree.empty : Tree) p = none := by decide
  have hput := fun faults maxBytes => putCounted_all_or_nothing (fun data => toString data.size)
    faults "5e" "up/file_1" "text/plain" greeting maxBytes FileTree.empty
    FileTree.wellFormed_empty hfresh
  have hstored : (putGreeting (fun _ => .done) 3).1 = .ok ⟨3, "3"⟩ := by rfl
  have hfailed : (putGreeting lastRename 3).1 = .error (.storage .failed) := by rfl
  have hlarge : (putGreeting (fun _ => .done) 2).1 = .error (.tooLarge 2) := by rfl
  refine ⟨⟨hstored, ?_⟩, ⟨hfailed, (hput lastRename 3).2 _ _ (Prod.ext hfailed rfl)⟩,
    hlarge, (hput (fun _ => .done) 2).2 _ _ (Prod.ext hlarge rfl)⟩
  obtain ⟨data, hdata, -, -, hget, -⟩ :=
    (hput (fun _ => .done) 3).1 _ _ (Prod.ext hstored rfl)
  obtain rfl := Option.some.inj hdata
  exact hget

end Stroem.InputFiles
