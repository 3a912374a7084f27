import Stroem.BlobArchive.Paths
import Stroem.Foundation.Triple

/-!
# What a successful call leaves

A call that returns `Ok` changes the tree in one of three ways, whatever temporary files it wrote
on the way: `afterPut`, `afterDelete` and `afterDeletePrefix` say how, path by path.
-/

namespace Stroem.BlobArchive

open Stroem.Foundation

variable {t t' : Tree}

/-! ## The calls of the file system -/

theorem call_eq_ok {f : Tree → Except IoError Tree} :
    call f t = .ok () t' ↔ f t = .ok t' := by
  unfold call
  split
  · next t₁ h => simp [h]
  · next e h => simp [h]

theorem ignoreNotFound_eq_ok {f : Tree → Except IoError Tree} :
    ignoreNotFound f t = .ok () t' ↔ f t = .ok t' ∨ f t = .error .notFound ∧ t = t' := by
  unfold ignoreNotFound
  split
  · next t₁ h => simp [h]
  · next h => simp [h]
  · next e hne h =>
    have hkind : e ≠ .notFound := hne
    simp [h, hkind]

theorem liftError_eq_ok {α : Type} {x : Except Error α} {a : α} :
    liftError x t = .ok a t' ↔ x = .ok a ∧ t = t' := by
  cases x with
  | error e => exact ⟨fun h => (nomatch h), fun h => (nomatch h.1)⟩
  | ok b =>
    change EStateM.Result.ok b t = .ok a t' ↔ _
    simp

theorem pathFor_eq_ok {key : String} {path : List Name} (h : pathFor key = .ok path) :
    validateKey key = .ok () ∧ path = components key := by
  unfold pathFor at h
  split at h
  · cases h
  · next hkey => exact ⟨hkey, (Except.ok.inj h).symm⟩

/-! ## Writes -/

def collect : List (Except String ByteArray) → Option ByteArray
  | [] => some ByteArray.empty
  | .error _ :: _ => none
  | .ok chunk :: rest => (collect rest).map (chunk ++ ·)

def afterPut (t : Tree) (key contentType : String) (data : ByteArray) : Tree := fun q =>
  if q = components (sidecar key) then some (.file contentType.toUTF8)
  else if q = components key then some (.file data)
  else if q <+: (components key).dropLast then some .dir
  else t q

theorem FileTree.set_set (t : Tree) (p : List Name) (node node' : Option (Node ByteArray)) :
    (FileTree.set t p node).set p node' = FileTree.set t p node' := by
  funext q
  unfold FileTree.set
  split <;> rfl

theorem writeChunks_eq_ok {tmp : List Name} {body : List (Except String ByteArray)}
    {written : ByteArray} (hfile : t tmp = some (.file written))
    (h : writeChunks tmp written body t = .ok () t') :
    ∃ data, collect body = some data ∧ t' =
      FileTree.set t tmp (some (.file (written ++ data))) := by
  induction body generalizing written t with
  | nil =>
    obtain rfl : t = t' := (EStateM.Result.ok.inj h).2
    refine ⟨ByteArray.empty, rfl, ?_⟩
    funext q
    unfold FileTree.set
    split
    · next hq => rw [hq, hfile, ByteArray.append_empty]
    · rfl
  | cons chunk rest ih =>
    cases chunk with
    | error message => cases h
    | ok chunk =>
      obtain ⟨_, t₁, hwrite, hrest⟩ := bind_eq_ok.mp h
      obtain ⟨-, rfl⟩ := FileTree.write_eq_ok (call_eq_ok.mp hwrite)
      obtain ⟨data, hdata, rfl⟩ := ih (FileTree.set_self _ _ _) hrest
      refine ⟨chunk ++ data, by simp [collect, hdata], ?_⟩
      rw [FileTree.set_set, ByteArray.append_assoc]

structure Apart (path tmpData tmpCt : List Name) : Prop where
  ct : ctPathFor path ≠ path
  data : tmpData ≠ path
  data_ct : tmpData ≠ ctPathFor path
  temp : tmpCt ≠ path
  temp_ct : tmpCt ≠ ctPathFor path
  temps : tmpCt ≠ tmpData

theorem writeFiles_eq_ok {path tmpData tmpCt : List Name} {contentType : String}
    {body : List (Except String ByteArray)} (hapart : Apart path tmpData tmpCt)
    (h : writeFiles path tmpData tmpCt contentType body t = .ok () t') :
    ∃ data, collect body = some data ∧ t path ≠ some .dir ∧ t (ctPathFor path) ≠ some .dir ∧
      t' = fun q => if q = ctPathFor path then some (.file contentType.toUTF8)
        else if q = path then some (.file data)
        else if q = tmpData ∨ q = tmpCt then none
        else t q := by
  obtain ⟨_, t₁, h₁, h⟩ := bind_eq_ok.mp h
  obtain ⟨-, rfl⟩ := FileTree.write_eq_ok (call_eq_ok.mp h₁)
  obtain ⟨_, t₂, h₂, h⟩ := bind_eq_ok.mp h
  obtain ⟨data, hdata, rfl⟩ := writeChunks_eq_ok (FileTree.set_self _ _ _) h₂
  obtain ⟨_, t₃, h₃, h⟩ := bind_eq_ok.mp h
  obtain ⟨-, rfl⟩ := FileTree.write_eq_ok (call_eq_ok.mp h₃)
  obtain ⟨_, t₄, h₄, h⟩ := bind_eq_ok.mp h
  obtain ⟨-, rfl⟩ := FileTree.write_eq_ok (call_eq_ok.mp h₄)
  obtain ⟨_, t₅, h₅, h⟩ := bind_eq_ok.mp h
  obtain ⟨bytes, hreadData, hpath, rfl⟩ := FileTree.rename_eq_ok (call_eq_ok.mp h₅)
  obtain ⟨text, hreadCt, hct, rfl⟩ := FileTree.rename_eq_ok (call_eq_ok.mp h)
  have hbytes := FileTree.eq_of_read_eq_ok hreadData
  have htext := FileTree.eq_of_read_eq_ok hreadCt
  simp only [FileTree.set, ByteArray.empty_append] at hbytes htext hpath hct
  simp only [hapart.ct, hapart.temp, hapart.temps, hapart.data.symm, hapart.data_ct.symm,
    hapart.temp.symm, hapart.temp_ct.symm, hapart.temps.symm, if_true, if_false, Option.some.injEq,
      Node.file.injEq]
    at hbytes htext hpath hct
  subst hbytes htext
  refine ⟨data, hdata, hpath, hct, ?_⟩
  funext q
  simp only [FileTree.set]
  by_cases hq : q = ctPathFor path
  · rw [if_pos hq, if_pos hq]
  · rw [if_neg hq, if_neg hq]
    by_cases hq₁ : q = path
    · have hne : q ≠ tmpCt := fun heq => hapart.temp (heq.symm.trans hq₁)
      rw [if_neg hne, if_pos hq₁, if_pos hq₁]
    · by_cases hq₂ : q = tmpCt
      · rw [if_pos hq₂, if_neg hq₁, if_pos (.inr hq₂)]
      · rw [if_neg hq₂, if_neg hq₁, if_neg hq₁]
        by_cases hq₃ : q = tmpData
        · rw [if_pos hq₃, if_pos (.inl hq₃)]
        · simp only [hq₂, hq₃, if_false, or_false]

private theorem ne_of_length_fileName {p q : List Name}
    (h : (fileName p).length ≠ (fileName q).length) : p ≠ q :=
  fun heq => h (congrArg (fun path => (fileName path).length) heq)

theorem tmpPathFor_apart (suffix : String) (path : List Name) :
    Apart path (tmpPathFor suffix path) (tmpPathFor suffix (ctPathFor path)) := by
  have hlast : ∀ p name, fileName (withFileName p name) = name := by
    intro p name
    simp [fileName, withFileName]
  constructor <;>
    · refine ne_of_length_fileName ?_
      simp only [tmpPathFor, ctPathFor, hlast, List.length_append]
      have hct : ".ct".toList.length = 3 := rfl
      have htmp : ".tmp.".toList.length = 5 := rfl
      omega

theorem length_tmpPathFor {suffix : String} {path : List Name} (h : path ≠ []) :
    (tmpPathFor suffix path).length = path.length := by
  have := List.length_pos_iff.mpr h
  simp only [tmpPathFor, withFileName, List.length_append, List.length_dropLast,
    List.length_singleton]
  omega

theorem putStream_eq_ok {suffix key contentType : String}
    {body : List (Except String ByteArray)}
    (hdata : t (tmpPathFor suffix (components key)) = none)
    (hct : t (tmpPathFor suffix (ctPathFor (components key))) = none)
    (h : putStream suffix key contentType body t = .ok () t') :
    ∃ data, collect body = some data ∧ ¬t.Blocked (components key).dropLast ∧
      t (components key) ≠ some .dir ∧ t (components (sidecar key)) ≠ some .dir ∧
      t' = afterPut t key contentType data := by
  obtain ⟨path, t₀, hlift, h⟩ := bind_eq_ok.mp h
  obtain ⟨hpath, rfl⟩ := liftError_eq_ok.mp hlift
  obtain ⟨-, rfl⟩ := pathFor_eq_ok hpath
  obtain ⟨_, t₁, hmkdirs, h⟩ := bind_eq_ok.mp h
  obtain ⟨hfree, rfl⟩ := FileTree.mkdirs_eq_ok (call_eq_ok.mp hmkdirs)
  have hwrite := tryCatch_eq_ok (fun e t₁ _ t₂ hcleanup => by
    obtain ⟨_, _, _, hrest⟩ := bind_eq_ok.mp hcleanup
    obtain ⟨_, _, _, hthrow⟩ := bind_eq_ok.mp hrest
    cases hthrow) h
  obtain ⟨data, hbody, hdir, hdirCt, rfl⟩ := writeFiles_eq_ok (tmpPathFor_apart suffix _) hwrite
  rw [if_neg (not_prefix_parent rfl)] at hdir
  rw [ctPathFor_components] at hct hdirCt ⊢
  rw [if_neg (not_prefix_parent (length_components_sidecar key))] at hdirCt
  refine ⟨data, hbody, hfree, hdir, hdirCt, ?_⟩
  funext q
  unfold afterPut
  split
  · rfl
  · split
    · rfl
    · by_cases htmp : q = tmpPathFor suffix (components key) ∨
          q = tmpPathFor suffix (components (sidecar key))
      · have hlen : q.length = (components key).length := by
          rcases htmp with rfl | rfl
          · exact length_tmpPathFor (components_ne_nil key)
          · rw [length_tmpPathFor (components_ne_nil _), length_components_sidecar]
        rw [if_pos htmp, if_neg (not_prefix_parent hlen)]
        rcases htmp with rfl | rfl
        · exact hdata.symm
        · exact hct.symm
      · rw [if_neg htmp]

theorem wellFormed_afterPut {key contentType : String} {data : ByteArray} (h : t.WellFormed)
    (hdir : t (components key) ≠ some .dir) (hdirCt : t (components (sidecar key)) ≠ some .dir) :
    (afterPut t key contentType data).WellFormed := by
  have hparent : ∀ q, q <+: (components key).dropLast →
      afterPut t key contentType data q = some .dir := by
    intro q hq
    have hne : q ≠ components key := fun heq => not_prefix_parent (heq ▸ rfl) hq
    have hneCt : q ≠ components (sidecar key) :=
      fun heq => not_prefix_parent (heq ▸ length_components_sidecar key) hq
    unfold afterPut
    rw [if_neg hneCt, if_neg hne, if_pos hq]
  have hkeep : ∀ q, t q = some .dir → afterPut t key contentType data q = some .dir := by
    intro q hq
    by_cases hprefix : q <+: (components key).dropLast
    · exact hparent q hprefix
    · have hne : q ≠ components key := fun heq => hdir (heq ▸ hq)
      have hneCt : q ≠ components (sidecar key) := fun heq => hdirCt (heq ▸ hq)
      unfold afterPut
      rw [if_neg hneCt, if_neg hne, if_neg hprefix, hq]
  refine ⟨hkeep [] h.root, fun q n node hnode => ?_⟩
  by_cases hct : q ++ [n] = components (sidecar key)
  · have hq := congrArg List.dropLast hct
    rw [List.dropLast_concat, dropLast_sidecar] at hq
    exact hparent q (hq ▸ List.prefix_rfl)
  · by_cases hpath : q ++ [n] = components key
    · have hq := congrArg List.dropLast hpath
      rw [List.dropLast_concat] at hq
      exact hparent q (hq ▸ List.prefix_rfl)
    · unfold afterPut at hnode
      rw [if_neg hct, if_neg hpath] at hnode
      split at hnode
      · next hprefix => exact hparent q ((List.prefix_append q [n]).trans hprefix)
      · exact hkeep q (h.parent q n node hnode)

/-! ## Removals -/

def unlinked : Option (Node ByteArray) → Option (Node ByteArray)
  | some .dir => some .dir
  | _ => none

def afterDelete (t : Tree) (key : String) : Tree := fun q =>
  if q = components key then none
  else if q = components (sidecar key) then unlinked (t q)
  else t q

def afterDeletePrefix (t : Tree) (dir : String) : Tree := fun q =>
  if components dir <+: q then none else t q

theorem attempt_removeFile (h : t.WellFormed) (p : List Name) :
    attempt (fun t => t.removeFile p) t =
      .ok () (t.set p (unlinked (t p))) := by
  unfold attempt
  cases hremove : t.removeFile p with
  | ok t₁ =>
    obtain ⟨⟨c, hread⟩, rfl⟩ := FileTree.removeFile_eq_ok hremove
    simp only [hremove, FileTree.eq_of_read_eq_ok hread, unlinked]
  | error e =>
    have hkeep : unlinked (t p) = t p := by
      cases hp : t p with
      | none => rfl
      | some node =>
        cases node with
        | dir => rfl
        | file c =>
          simp [FileTree.removeFile, (FileTree.read_eq_ok_iff h).mpr hp] at hremove
    simp only [hremove, hkeep, FileTree.set_eq_self]

theorem wellFormed_unlink (h : t.WellFormed) (p : List Name) :
    (t.set p (unlinked (t p))).WellFormed := by
  by_cases hdir : t p = some .dir
  · have hkeep := FileTree.set_eq_self t p
    rw [hdir] at hkeep
    simpa only [hdir, unlinked, hkeep] using h
  · have hnone : unlinked (t p) = none := by
      cases hp : t p with
      | none => rfl
      | some node =>
        cases node with
        | dir => exact absurd hp hdir
        | file c => rfl
    rw [hnone]
    exact h.set_none hdir

theorem delete_eq_ok {key : String} (h : t.WellFormed) (hrun : delete key t = .ok () t') :
    t' = afterDelete t key ∧ t (components key) ≠ some .dir ∧ t'.WellFormed ∧
      ¬t'.Blocked (components key) := by
  obtain ⟨path, t₀, hlift, hrun⟩ := bind_eq_ok.mp hrun
  obtain ⟨hpath, rfl⟩ := liftError_eq_ok.mp hlift
  obtain ⟨-, rfl⟩ := pathFor_eq_ok hpath
  obtain ⟨_, t₁, hattempt, hrun⟩ := bind_eq_ok.mp hrun
  rw [attempt_removeFile h, ctPathFor_components] at hattempt
  obtain rfl := (EStateM.Result.ok.inj hattempt).2
  have hne : components key ≠ components (sidecar key) :=
    fun heq => sidecar_ne key (components_inj.mp heq).symm
  have h₁ := wellFormed_unlink h (components (sidecar key))
  generalize hnode : unlinked (t (components (sidecar key))) = node at hrun h₁
  have hpath : FileTree.set t (components (sidecar key)) node (components key) =
      t (components key) := FileTree.set_of_ne _ _ hne
  have hafter : afterDelete t key =
      (t.set (components (sidecar key)) node).set (components key) none := by
    funext q
    unfold afterDelete FileTree.set
    by_cases hq : q = components (sidecar key)
    · rw [if_pos hq, if_pos hq, ← hnode, hq]
    · rw [if_neg hq, if_neg hq]
  rcases ignoreNotFound_eq_ok.mp hrun with hremove | ⟨hremove, rfl⟩
  · obtain ⟨⟨c, hread⟩, rfl⟩ := FileTree.removeFile_eq_ok hremove
    have hfile := FileTree.eq_of_read_eq_ok hread
    have hdir : FileTree.set t (components (sidecar key)) node (components key) ≠ some .dir := by
      simp [hfile]
    refine ⟨hafter.symm, hpath ▸ hdir, h₁.set_none hdir,
      h₁.not_blocked_of_removed hfile (FileTree.set_self _ _ _) fun q c' hq => ?_⟩
    by_cases hq' : q = components key
    · rw [hq', FileTree.set_self] at hq
      cases hq
    · rwa [FileTree.set_of_ne _ _ hq'] at hq
  · obtain ⟨hnone, hfree⟩ := FileTree.removeFile_eq_notFound h₁ hremove
    refine ⟨?_, by simp [← hpath, hnone], h₁, hfree⟩
    rw [hafter, ← hnone, FileTree.set_eq_self]

theorem deletePrefix_eq_ok {prefixKey : String} (h : t.WellFormed)
    (hrun : deletePrefix prefixKey t = .ok () t') :
    t' = afterDeletePrefix t (trimEndSlashes prefixKey) ∧ t'.WellFormed ∧
      ∀ c, t (components (trimEndSlashes prefixKey)) ≠ some (.file c) := by
  obtain ⟨_, t₀, hlift, hrun⟩ := bind_eq_ok.mp hrun
  obtain ⟨-, rfl⟩ := liftError_eq_ok.mp hlift
  have hwf : (afterDeletePrefix t (trimEndSlashes prefixKey)).WellFormed :=
    h.remove_below (components_ne_nil _)
  rcases ignoreNotFound_eq_ok.mp hrun with hremove | ⟨hfind, rfl⟩
  · obtain ⟨hdir, rfl⟩ := FileTree.removeDirAll_eq_ok hremove
    have hdir := (FileTree.find_eq_ok_iff h).mp hdir
    exact ⟨rfl, hwf, fun c hfile => by simp [hdir] at hfile⟩
  · have hnone := (FileTree.removeDirAll_eq_notFound h hfind).1
    refine ⟨?_, h, fun c hfile => by simp [hnone] at hfile⟩
    funext q
    unfold afterDeletePrefix
    split
    · next hprefix =>
      by_cases hq : q = components (trimEndSlashes prefixKey)
      · rw [hq, hnone]
      · exact h.eq_none_below (by simp [hnone]) hprefix hq
    · rfl

end Stroem.BlobArchive
