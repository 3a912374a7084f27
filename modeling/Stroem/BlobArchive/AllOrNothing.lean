import Stroem.BlobArchive.Faults

/-!
# What a failing write leaves

A write that returns `Ok` in spite of everything wrote its data as one piece would be written.  A
write that fails leaves no temporary file; before its stream is drained it leaves no file at all,
and afterwards at most the two files of its key.
-/

namespace Stroem.BlobArchive

open Stroem.Foundation

variable {f : Tree → Except IoError Tree} {body : List (Except String ByteArray)}
  {tmpData tmpCt : List Name}

variable {τ : Type} {faults : Nat → Outcome} {poll : Poll τ} {t t₀ t' : Tree}
  {own changed : List (List Name)} {p q : List Name}

theorem settled_ok (h : f t = .ok t') : settled f t = t' := by
  unfold settled
  rw [h]

theorem settled_error {e : IoError} (h : f t = .error e) :
    settled f t = t := by
  unfold settled
  rw [h]

theorem attempt_eq_settled (f : Tree → Except IoError Tree) (t : Tree) :
    attempt f t = .ok () (settled f t) := by
  unfold attempt settled
  cases f t with
  | ok t' => rfl
  | error e => rfl

theorem ignoreNotFound_eq_settled (f : Tree → Except IoError Tree) (t : Tree) :
    ignoreNotFound f t = .ok () (settled f t) ∨
      ∃ e, ignoreNotFound f t = .error e (settled f t) := by
  unfold ignoreNotFound settled
  cases f t with
  | ok t' => exact .inl rfl
  | error e => cases e <;> first | exact .inl rfl | exact .inr ⟨_, rfl⟩

/-! ## Trees that differ at some paths -/

structure Within (own changed : List (List Name)) (t₀ t : Tree) : Prop where
  wellFormed : t.WellFormed
  notDir : ∀ p ∈ own, t p ≠ some .dir
  files : ∀ p ∉ changed, ∀ c, t p = some (.file c) ↔ t₀ p = some (.file c)

namespace Within

theorem refl (h : t.WellFormed) (hown : ∀ p ∈ own, t p = none) : Within own [] t t := by
  refine ⟨h, fun p hp hdir => ?_, fun _ _ _ => Iff.rfl⟩
  rw [hown p hp] at hdir
  cases hdir

theorem forget {changed' : List (List Name)} (h : Within own changed t₀ t)
    (hsub : ∀ p ∈ changed, p ∈ changed' ∨ (t p = none ∧ t₀ p = none)) :
    Within own changed' t₀ t := by
  refine ⟨h.wellFormed, h.notDir, fun p hp c => ?_⟩
  by_cases hchanged : p ∈ changed
  · obtain ⟨hnone, hnone₀⟩ := (hsub p hchanged).resolve_left hp
    rw [hnone, hnone₀]
  · exact h.files p hchanged c

theorem set (h : Within own changed t₀ t) {node : Option (Node ByteArray)} (hp : p ∈ changed)
    (hnode : node ≠ some .dir) (hwf : (FileTree.set t p node).WellFormed) :
    Within own changed t₀ (FileTree.set t p node) := by
  refine ⟨hwf, fun q hq => ?_, fun q hq c => ?_⟩
  · by_cases heq : q = p
    · rw [heq, FileTree.set_self]
      exact hnode
    · rw [FileTree.set_of_ne t _ heq]
      exact h.notDir q hq
  · have heq : q ≠ p := fun heq => hq (heq ▸ hp)
    rw [FileTree.set_of_ne t _ heq]
    exact h.files q hq c

theorem write (h : Within own changed t₀ t) {c : ByteArray} (hp : p ∈ changed)
    (hwrite : t.write p c = .ok t') : Within own changed t₀ t' := by
  have hwf := h.wellFormed.write hwrite
  obtain ⟨-, rfl⟩ := FileTree.write_eq_ok hwrite
  exact h.set hp (fun heq => by cases heq) hwf

theorem rename (h : Within own changed t₀ t) (hp : p ∈ changed) (hq : q ∈ changed)
    (hne : p ≠ q.dropLast) (hrename : t.rename p q = .ok t') : Within own changed t₀ t' := by
  have hwf := h.wellFormed.rename hne hrename
  obtain ⟨c, hread, -, rfl⟩ := FileTree.rename_eq_ok hrename
  have hfile := FileTree.eq_of_read_eq_ok hread
  have hdir : t p ≠ some .dir := by
    rw [hfile]
    exact fun heq => by cases heq
  have hnone : Within own changed t₀ (FileTree.set t p none) :=
    h.set hp (fun heq => by cases heq) (h.wellFormed.set_none hdir)
  exact hnone.set hq (fun heq => by cases heq) hwf

theorem mkdirs (h : Within own changed t₀ t) (hown : ∀ p ∈ own, ¬p <+: q)
    (hmkdirs : t.mkdirs q = .ok t') : Within own changed t₀ t' := by
  have hwf := h.wellFormed.mkdirs hmkdirs
  obtain ⟨hfree, rfl⟩ := FileTree.mkdirs_eq_ok hmkdirs
  refine ⟨hwf, fun p hp => ?_, fun p hp c => ?_⟩
  · rw [if_neg (hown p hp)]
    exact h.notDir p hp
  · rw [← h.files p hp c]
    split
    · next hprefix =>
      refine ⟨fun heq => (by cases heq), fun hfile => ?_⟩
      exact absurd ⟨p, c, hprefix, hfile⟩ hfree
    · exact Iff.rfl

theorem remove (h : Within own changed t₀ t) (hp : p ∈ own) (hchanged : p ∈ changed) :
    Within own changed t₀ (settled (fun t => t.removeFile p) t) ∧
      settled (fun t => t.removeFile p) t p = none ∧
      ∀ q, t q = none → settled (fun t => t.removeFile p) t q = none := by
  cases hremove : t.removeFile p with
  | ok t₁ =>
    rw [settled_ok (f := fun t => t.removeFile p) hremove]
    obtain ⟨-, rfl⟩ := FileTree.removeFile_eq_ok hremove
    refine ⟨h.set hchanged (fun heq => (by cases heq))
      (h.wellFormed.set_none (h.notDir p hp)), FileTree.set_self _ _ _, fun q hq => ?_⟩
    unfold FileTree.set
    split
    · rfl
    · exact hq
  | error e =>
    rw [settled_error (f := fun t => t.removeFile p) hremove]
    refine ⟨h, ?_, fun q hq => hq⟩
    cases hnode : t p with
    | none => rfl
    | some node =>
      cases node with
      | dir => exact absurd hnode (h.notDir p hp)
      | file c =>
        simp only [FileTree.removeFile, (FileTree.read_eq_ok_iff h.wellFormed).mpr hnode]
          at hremove
        cases hremove

theorem eq_none (h : Within own changed t₀ t) (hp : p ∈ own) (hchanged : p ∉ changed)
    (hnone : t₀ p = none) : t p = none := by
  cases hnode : t p with
  | none => rfl
  | some node =>
    cases node with
    | dir => exact absurd hnode (h.notDir p hp)
    | file c =>
      have hfile := (h.files p hchanged c).mp hnode
      rw [hnone] at hfile
      cases hfile

theorem settled (h : Within own changed t₀ t)
    (hf : ∀ t', f t = .ok t' → Within own changed t₀ t') :
    Within own changed t₀ (settled f t) := by
  cases hok : f t with
  | ok t₁ =>
    rw [settled_ok hok]
    exact hf t₁ hok
  | error e =>
    rw [settled_error hok]
    exact h

end Within

/-! ## What the stream has seen -/

def Drained (poll : Poll τ) (body : List (Except String ByteArray)) (seen₀ seen : τ) : Prop :=
  ∃ data, feed poll seen₀ body = (some data, seen)

def Polled (poll : Poll τ) (body : List (Except String ByteArray)) (seen₀ seen : τ) : Prop :=
  ∃ front, front <+: body ∧ (feed poll seen₀ front).2 = seen

theorem Drained.polled {seen₀ seen : τ}
    (h : Drained poll body seen₀ seen) : Polled poll body seen₀ seen := by
  obtain ⟨data, hfeed⟩ := h
  exact ⟨body, List.prefix_rfl, by rw [hfeed]⟩

theorem polled_nil (poll : Poll τ) (body : List (Except String ByteArray)) (seen : τ) :
    Polled poll body seen seen :=
  ⟨[], List.nil_prefix, rfl⟩

/-! ## The calls -/

section Calls

variable {S : τ → Prop}

theorem triple_tryCall {P Q : Tree → Prop} {part : Nat → Tree → Tree}
    (hweak : ∀ t, P t → Q t) (hpart : ∀ n t, P t → Q (part n t))
    (hf : ∀ t t', P t → f t = .ok t' → Q t') :
    Triple (fun s => P s.tree ∧ S s.seen) (tryCall (τ := τ) faults part f)
      (fun _ s => Q s.tree ∧ S s.seen) (fun _ s => Q s.tree ∧ S s.seen) := by
  rintro s ⟨hP, hS⟩
  unfold tryCall
  dsimp only
  cases faults s.calls with
  | done =>
    dsimp only
    cases hrun : f s.tree with
    | ok t' => exact ⟨hf _ _ hP hrun, hS⟩
    | error e => exact ⟨hweak _ hP, hS⟩
  | failed n => exact ⟨hpart n _ hP, hS⟩
  | late n => exact ⟨hpart n _ hP, hS⟩

def Keeps (P : Files τ → Prop) {α : Type} (x : Io τ α) : Prop :=
  Triple P x (fun _ => P) (fun _ => P)

theorem keeps_createFile (hp : p ∈ changed) :
    Keeps (fun s => Within own changed t₀ s.tree ∧ S s.seen) (createFile faults p) := by
  refine triple_tryCall (fun _ h => h) (fun n t h => ?_) fun t t' h => h.write hp
  unfold partly
  split
  · exact h
  · exact h.settled fun t' => h.write hp

theorem keeps_syncAll :
    Keeps (fun s => Within own changed t₀ s.tree ∧ S s.seen) (syncAll (τ := τ) faults) := by
  refine triple_tryCall (fun _ h => h) (fun n t h => h) fun t t' h hok => ?_
  cases hok
  exact h

theorem triple_renameFile {changed' : List (List Name)} (hsub : changed ⊆ changed')
    (hp : p ∈ changed') (hq : q ∈ changed') (hne : p ≠ q.dropLast) :
    Triple (fun s => Within own changed t₀ s.tree ∧ S s.seen) (renameFile faults p q)
      (fun _ s => Within own changed' t₀ s.tree ∧ S s.seen)
      (fun _ s => Within own changed' t₀ s.tree ∧ S s.seen) := by
  have hweak : ∀ t, Within own changed t₀ t → Within own changed' t₀ t :=
    fun t h => h.forget fun p hp => .inl (hsub hp)
  refine triple_tryCall hweak (fun n t h => ?_) fun t t' h => (hweak t h).rename hp hq hne
  unfold partly
  split
  · exact hweak t h
  · exact (hweak t h).settled fun t' => (hweak t h).rename hp hq hne

theorem keeps_flush (P : Files τ → Prop) (f : OpenFile) : Keeps P (f.flush (τ := τ)) := by
  unfold OpenFile.flush
  split
  · exact Triple.throw fun _ h => h
  · exact Triple.pure fun _ h => h

theorem triple_writeAll {f : OpenFile} (bytes : ByteArray) (hp : f.path ∈ changed) :
    Triple (fun s => Within own changed t₀ s.tree ∧ S s.seen) (f.writeAll faults bytes)
      (fun g s => g.path = f.path ∧ Within own changed t₀ s.tree ∧ S s.seen)
      (fun _ s => Within own changed t₀ s.tree ∧ S s.seen) := by
  rintro s ⟨h, hS⟩
  have hcontent : ∀ bytes, Within own changed t₀ (f.content bytes s.tree) :=
    fun bytes => h.settled fun t' => h.write hp
  unfold OpenFile.writeAll
  dsimp only
  by_cases hempty : bytes.size = 0
  · rw [if_pos hempty]
    exact ⟨rfl, h, hS⟩
  · rw [if_neg hempty]
    by_cases herr : f.lastWriteErr = true
    · rw [if_pos herr]
      exact ⟨h, hS⟩
    · rw [if_neg herr]
      cases faults s.calls with
      | done =>
        dsimp only
        by_cases hroom : maxFileSize < f.written.size + bytes.size
        · rw [if_pos hroom]
          exact ⟨hcontent _, hS⟩
        · rw [if_neg hroom]
          cases hwrite : s.tree.write f.path (f.written ++ bytes) with
          | ok t' => exact ⟨rfl, h.write hp hwrite, hS⟩
          | error e => exact ⟨h, hS⟩
      | failed n => exact ⟨hcontent _, hS⟩
      | late n => exact ⟨rfl, hcontent _, hS⟩

theorem triple_writeBody (body : List (Except String ByteArray)) {f : OpenFile} (seen : τ)
    (hp : f.path ∈ changed) :
    Triple (fun s => Within own changed t₀ s.tree ∧ s.seen = seen) (writeBody faults poll f body)
      (fun _ s => Within own changed t₀ s.tree ∧ Drained poll body seen s.seen)
      (fun _ s => Within own changed t₀ s.tree ∧ Polled poll body seen s.seen) := by
  induction body generalizing f seen with
  | nil =>
    refine Triple.pure fun s hs => ⟨hs.1, ByteArray.empty, ?_⟩
    rw [hs.2]
    rfl
  | cons item rest ih =>
    cases hpoll : poll item seen with
    | mk chunk seen' =>
    have hnext : Triple (fun s => Within own changed t₀ s.tree ∧ s.seen = seen)
        (next poll item)
        (fun a s => chunk = some a ∧ Within own changed t₀ s.tree ∧ s.seen = seen')
        (fun _ s => Within own changed t₀ s.tree ∧ Polled poll (item :: rest) seen s.seen) := by
      rintro s ⟨h, hseen⟩
      unfold next
      rw [hseen, hpoll]
      cases chunk with
      | some a => exact ⟨rfl, h, rfl⟩
      | none =>
        refine ⟨h, [item], List.prefix_append [item] rest, ?_⟩
        rw [feed, hpoll]
    refine hnext.bind fun a => Triple.of_imp ?_
    rintro rfl
    have hdrained : ∀ s, Drained poll rest seen' s → Drained poll (item :: rest) seen s := by
      rintro s ⟨data, hfeed⟩
      refine ⟨a ++ data, ?_⟩
      rw [feed, hpoll]
      dsimp only
      rw [hfeed]
      rfl
    have hpolled : ∀ s, Polled poll rest seen' s → Polled poll (item :: rest) seen s := by
      rintro s ⟨front, hfront, hfeed⟩
      refine ⟨item :: front, List.cons_prefix_cons.mpr ⟨rfl, hfront⟩, ?_⟩
      rw [feed, hpoll]
      exact hfeed
    have hwrite : Triple (fun s => Within own changed t₀ s.tree ∧ s.seen = seen')
        (f.writeAll faults a)
        (fun g s => g.path = f.path ∧ Within own changed t₀ s.tree ∧ s.seen = seen')
        (fun _ s => Within own changed t₀ s.tree ∧ Polled poll (item :: rest) seen s.seen) := by
      refine (triple_writeAll (S := (· = seen')) a hp).weaken (fun _ h => h) (fun _ _ h => h)
        fun _ s hs => ?_
      refine ⟨hs.1, hpolled _ ?_⟩
      rw [hs.2]
      exact polled_nil poll rest seen'
    refine hwrite.bind fun g => Triple.of_imp fun hg => ?_
    exact (ih seen' (hg ▸ hp)).weaken (fun _ h => h)
      (fun _ s hs => ⟨hs.1, hdrained _ hs.2⟩) fun _ s hs => ⟨hs.1, hpolled _ hs.2⟩

end Calls

/-! ## A failing write -/

/-- What is known of a failed write that may have changed `early` before its stream was drained
and `late` after it. -/
def Failed (poll : Poll τ) (body : List (Except String ByteArray)) (own : List (List Name))
    (t₀ : Tree) (seen : τ) (early late : List (List Name)) (s : Files τ) : Prop :=
  (Within own early t₀ s.tree ∧ Polled poll body seen s.seen) ∨
    (Within own late t₀ s.tree ∧ Drained poll body seen s.seen)

theorem triple_writeTemps {path : List Name} {contentType : String}
    (body : List (Except String ByteArray)) (seen : τ) (hdata : tmpData ≠ path.dropLast)
    (hct : tmpCt ≠ (ctPathFor path).dropLast) :
    Triple (fun s => Within own [tmpData, tmpCt] t₀ s.tree ∧ s.seen = seen)
      (writeTemps faults poll path tmpData tmpCt contentType body)
      (fun _ _ => True)
      (fun _ => Failed poll body own t₀ seen [tmpData, tmpCt]
        [tmpData, tmpCt, path, ctPathFor path]) := by
  have hdataMem : tmpData ∈ [tmpData, tmpCt] := List.mem_cons_self
  have hctMem : tmpCt ∈ [tmpData, tmpCt] := List.mem_cons_of_mem _ List.mem_cons_self
  have hsub : [tmpData, tmpCt] ⊆ [tmpData, tmpCt, path, ctPathFor path] :=
    List.subset_append_left [tmpData, tmpCt] [path, ctPathFor path]
  have hpath : path ∈ [tmpData, tmpCt, path, ctPathFor path] := by simp
  have hpathCt : ctPathFor path ∈ [tmpData, tmpCt, path, ctPathFor path] := by simp
  -- Everything between the body and the renames keeps `P`.
  let P : Files τ → Prop := fun s =>
    Within own [tmpData, tmpCt] t₀ s.tree ∧ Drained poll body seen s.seen
  let E : StreamError → Files τ → Prop := fun _ =>
    Failed poll body own t₀ seen [tmpData, tmpCt] [tmpData, tmpCt, path, ctPathFor path]
  have hearly : ∀ s, P s → Failed poll body own t₀ seen [tmpData, tmpCt]
      [tmpData, tmpCt, path, ctPathFor path] s := fun s h => .inl ⟨h.1, h.2.polled⟩
  have hkeep : ∀ {α : Type} {x : Io τ α}, Keeps P x → Triple P x (fun _ => P) E :=
    fun h => h.weaken (fun _ h => h) (fun _ _ h => h) fun _ s => hearly s
  have hcreate : Triple (fun s => Within own [tmpData, tmpCt] t₀ s.tree ∧ s.seen = seen)
      (createFile faults tmpData)
      (fun _ s => Within own [tmpData, tmpCt] t₀ s.tree ∧ s.seen = seen) E := by
    refine (keeps_createFile (S := (· = seen)) hdataMem).weaken (fun _ h => h) (fun _ _ h => h)
      fun _ s h => .inl ⟨h.1, ?_⟩
    rw [h.2]
    exact polled_nil poll body seen
  have hbody : Triple (fun s => Within own [tmpData, tmpCt] t₀ s.tree ∧ s.seen = seen)
      (writeBody faults poll { path := tmpData } body) (fun _ => P) E :=
    (triple_writeBody body seen hdataMem).weaken (fun _ h => h) (fun _ _ h => h)
      fun _ _ h => .inl h
  have hsidecar : Triple P (OpenFile.writeAll faults { path := tmpCt } contentType.toUTF8)
      (fun _ => P) E :=
    (triple_writeAll (S := Drained poll body seen) contentType.toUTF8 hctMem).weaken
      (fun _ h => h) (fun _ _ h => h.2) fun _ s => hearly s
  have hrenameData : Triple P (renameFile faults tmpData path)
      (fun _ s => Within own [tmpData, tmpCt, path, ctPathFor path] t₀ s.tree ∧
        Drained poll body seen s.seen) E :=
    (triple_renameFile hsub (hsub hdataMem) hpath hdata).weaken (fun _ h => h) (fun _ _ h => h)
      fun _ _ h => .inr h
  refine hcreate.bind fun _ => hbody.bind fun f => (hkeep (keeps_flush P f)).bind fun _ =>
    (hkeep keeps_syncAll).bind fun _ => (hkeep (keeps_createFile hctMem)).bind fun _ =>
      hsidecar.bind fun g => (hkeep (keeps_flush P g)).bind fun _ =>
        (hkeep keeps_syncAll).bind fun _ => hrenameData.bind fun _ => ?_
  exact (triple_renameFile (List.Subset.refl _) (hsub hctMem) hpathCt hct).weaken (fun _ h => h)
    (fun _ _ _ => trivial) fun _ _ h => .inr h

theorem triple_removeTemp {S : τ → Prop} (hp : p ∈ own) (hchanged : p ∈ changed)
    (gone : List (List Name)) :
    Triple (fun s => (Within own changed t₀ s.tree ∧ ∀ q ∈ gone, s.tree q = none) ∧ S s.seen)
      (removeTemp p)
      (fun _ s => (Within own changed t₀ s.tree ∧ ∀ q ∈ p :: gone, s.tree q = none) ∧ S s.seen)
      (fun _ _ => False) := by
  rintro s ⟨⟨h, hgone⟩, hS⟩
  obtain ⟨hkeep, hnone, hstay⟩ := h.remove hp hchanged
  refine ⟨⟨hkeep, fun q hq => ?_⟩, hS⟩
  rcases List.mem_cons.mp hq with rfl | hq
  · exact hnone
  · exact hstay q (hgone q hq)

theorem triple_cleanup {S : τ → Prop} {kept : List (List Name)}
    {e : StreamError} (hdata : tmpData ∈ own ∧ t₀ tmpData = none)
    (hct : tmpCt ∈ own ∧ t₀ tmpCt = none) :
    Triple (fun s => Within own (tmpData :: tmpCt :: kept) t₀ s.tree ∧ S s.seen)
      (do
        removeTemp tmpData
        removeTemp tmpCt
        throw e : Io τ Unit)
      (fun _ _ => False) (fun _ s => Within own kept t₀ s.tree ∧ S s.seen) := by
  have hdataMem : tmpData ∈ tmpData :: tmpCt :: kept := List.mem_cons_self
  have hctMem : tmpCt ∈ tmpData :: tmpCt :: kept := List.mem_cons_of_mem _ List.mem_cons_self
  have hfirst := @triple_removeTemp _ t₀ _ _ _ S hdata.1 hdataMem []
  have hsecond := @triple_removeTemp _ t₀ _ _ _ S hct.1 hctMem [tmpData]
  refine (hfirst.weaken (fun s h => ⟨⟨h.1, fun _ hq => absurd hq List.not_mem_nil⟩, h.2⟩)
    (fun _ _ h => h)
    fun _ _ h => h.elim).bind fun _ => ?_
  refine (hsecond.weaken (fun _ h => h) (fun _ _ h => h) fun _ _ h => h.elim).bind fun _ => ?_
  refine Triple.throw ?_
  rintro s ⟨⟨h, hgone⟩, hS⟩
  refine ⟨h.forget fun q hq => ?_, hS⟩
  rcases List.mem_cons.mp hq with rfl | hq
  · exact .inr ⟨hgone _ (List.mem_cons_of_mem _ List.mem_cons_self), hdata.2⟩
  · rcases List.mem_cons.mp hq with rfl | hq
    · exact .inr ⟨hgone _ List.mem_cons_self, hct.2⟩
    · exact .inl hq

theorem triple_cleanup_failed {seen : τ}
    {kept : List (List Name)} {e : StreamError}
    (hdata : tmpData ∈ own ∧ t₀ tmpData = none) (hct : tmpCt ∈ own ∧ t₀ tmpCt = none) :
    Triple (Failed poll body own t₀ seen [tmpData, tmpCt] (tmpData :: tmpCt :: kept))
      (do
        removeTemp tmpData
        removeTemp tmpCt
        throw e : Io τ Unit)
      (fun _ _ => False) (fun _ => Failed poll body own t₀ seen [] kept) := by
  refine ((triple_cleanup hdata hct).or (triple_cleanup hdata hct)).weaken (fun _ h => h)
    (fun _ _ h => ?_) fun _ _ h => h
  exact h.elim id id

theorem length_ctPathFor {path : List Name} (h : path ≠ []) :
    (ctPathFor path).length = path.length := by
  have := List.length_pos_iff.mpr h
  simp only [ctPathFor, withFileName, List.length_append, List.length_dropLast,
    List.length_singleton]
  omega

theorem length_of_mem_ownPaths {suffix key : String} {p : List Name}
    (h : p ∈ ownPaths suffix key) : p.length = (components key).length := by
  have hct := length_ctPathFor (components_ne_nil key)
  have hne : ctPathFor (components key) ≠ [] := by
    intro hnil
    rw [hnil] at hct
    exact components_ne_nil key (List.length_eq_zero_iff.mp hct.symm)
  simp only [ownPaths, List.mem_cons, List.not_mem_nil, or_false] at h
  rcases h with rfl | rfl | rfl | rfl
  · exact length_tmpPathFor (components_ne_nil key)
  · rw [length_tmpPathFor hne, hct]
  · rfl
  · exact hct

theorem triple_putStreamOver {suffix key contentType : String}
    (body : List (Except String ByteArray)) (seen : τ) (hwf : t₀.WellFormed)
    (hfresh : ∀ p ∈ ownPaths suffix key, t₀ p = none) :
    Triple (fun s => s.tree = t₀ ∧ s.seen = seen)
      (putStreamOver faults poll suffix key contentType body)
      (fun _ _ => True)
      (fun _ s => validateKey key = .ok () ∧ Failed poll body (ownPaths suffix key) t₀ seen []
          [components key, ctPathFor (components key)] s ∨
        Within (ownPaths suffix key) [] t₀ s.tree ∧ Polled poll body seen s.seen) := by
  have hstart := Within.refl hwf hfresh
  have hdata : tmpPathFor suffix (components key) ∈ ownPaths suffix key := List.mem_cons_self
  have hct : tmpPathFor suffix (ctPathFor (components key)) ∈ ownPaths suffix key :=
    List.mem_cons_of_mem _ List.mem_cons_self
  have hpathCt : ctPathFor (components key) ∈ ownPaths suffix key := by simp [ownPaths]
  unfold putStreamOver pathOf
  cases hpath : pathFor key with
  | error e =>
    have hthrow : Triple (fun s => s.tree = t₀ ∧ s.seen = seen)
        (throw (.archive e) : Io τ (List Name)) (fun _ _ => False)
        (fun _ s => Within (ownPaths suffix key) [] t₀ s.tree ∧
          Polled poll body seen s.seen) := by
      refine Triple.throw fun s hs => ?_
      rw [hs.1, hs.2]
      exact ⟨hstart, polled_nil poll body seen⟩
    exact (hthrow.weaken (fun _ h => h) (fun _ _ h => h) fun _ _ h => .inr h).bind
      fun _ s hs => hs.elim
  | ok path =>
    obtain ⟨hkey, rfl⟩ := pathFor_eq_ok hpath
    have hpure : Triple (fun s => s.tree = t₀ ∧ s.seen = seen)
        (pure (components key) : Io τ (List Name))
        (fun path s => path = components key ∧ s.tree = t₀ ∧ s.seen = seen)
        (fun _ s => validateKey key = .ok () ∧ Failed poll body (ownPaths suffix key) t₀ seen []
            [components key, ctPathFor (components key)] s ∨
          Within (ownPaths suffix key) [] t₀ s.tree ∧ Polled poll body seen s.seen) :=
      Triple.pure fun s hs => ⟨rfl, hs⟩
    refine hpure.bind fun path => Triple.of_imp ?_
    rintro rfl
    have hparent : ∀ p ∈ ownPaths suffix key, ∀ n, ¬p <+: (components key).dropLast.take n :=
      fun p hp n habove => not_prefix_parent (length_of_mem_ownPaths hp)
        (habove.trans (List.take_prefix _ _))
    have hmkdirs : Triple (fun s => s.tree = t₀ ∧ s.seen = seen)
        (createDirAll faults (components key).dropLast)
        (fun _ s => Within (ownPaths suffix key) [] t₀ s.tree ∧ s.seen = seen)
        (fun _ s => Within (ownPaths suffix key) [] t₀ s.tree ∧ s.seen = seen) := by
      refine (triple_tryCall (P := Within (ownPaths suffix key) [] t₀) (S := (· = seen))
        (fun _ h => h) (fun n t h => h.settled fun t' => h.mkdirs fun p hp => hparent p hp n)
        fun t t' h => h.mkdirs fun p hp => ?_).weaken (fun s hs => ⟨?_, hs.2⟩) (fun _ _ h => h)
        fun _ _ h => h
      · have hwhole := hparent p hp (components key).dropLast.length
        rwa [List.take_length] at hwhole
      · rw [hs.1]
        exact hstart
    have hmkdirs' : Triple (fun s => s.tree = t₀ ∧ s.seen = seen)
        (createDirAll faults (components key).dropLast)
        (fun _ s => Within (ownPaths suffix key) [] t₀ s.tree ∧ s.seen = seen)
        (fun _ s => validateKey key = .ok () ∧ Failed poll body (ownPaths suffix key) t₀ seen []
            [components key, ctPathFor (components key)] s ∨
          Within (ownPaths suffix key) [] t₀ s.tree ∧ Polled poll body seen s.seen) := by
      refine hmkdirs.weaken (fun _ h => h) (fun _ _ h => h) ?_
      rintro _ s ⟨h, hseen⟩
      rw [hseen]
      exact .inr ⟨h, polled_nil poll body seen⟩
    refine hmkdirs'.bind fun _ => ?_
    · have hne : ∀ p ∈ ownPaths suffix key, ∀ q ∈ ownPaths suffix key, p ≠ q.dropLast := by
        intro p hp q hq heq
        have hlen := congrArg List.length heq
        rw [List.length_dropLast, length_of_mem_ownPaths hp, length_of_mem_ownPaths hq] at hlen
        have := List.length_pos_iff.mpr (components_ne_nil key)
        omega
      have hwrite : Triple
          (fun s => Within (ownPaths suffix key) [tmpPathFor suffix (components key),
            tmpPathFor suffix (ctPathFor (components key))] t₀ s.tree ∧ s.seen = seen)
          (writeTemps faults poll (components key) (tmpPathFor suffix (components key))
            (tmpPathFor suffix (ctPathFor (components key))) contentType body)
          (fun _ _ => True) (fun _ => Failed poll body (ownPaths suffix key) t₀ seen
            [tmpPathFor suffix (components key), tmpPathFor suffix (ctPathFor (components key))]
            (ownPaths suffix key)) :=
        triple_writeTemps body seen (hne _ hdata (components key) (by simp [ownPaths]))
          (hne _ hct _ hpathCt)
      refine Triple.tryCatch (hwrite.weaken ?_ (fun _ _ h => h) fun _ _ h => h) fun e => ?_
      · rintro s ⟨h, hseen⟩
        exact ⟨h.forget fun p hp => absurd hp List.not_mem_nil, hseen⟩
      · exact (triple_cleanup_failed ⟨hdata, hfresh _ hdata⟩ ⟨hct, hfresh _ hct⟩).weaken
          (fun _ h => h) (fun _ _ _ => trivial) fun _ _ h => .inl ⟨hkey, h⟩

/-! ## A write that returns `Ok` -/

section Ok

variable {s s' : Files τ}

theorem tryCall_eq_ok {part : Nat → Tree → Tree}
    (h : tryCall faults part f s = .ok () s') : f s.tree = .ok s'.tree ∧ s'.seen = s.seen := by
  unfold tryCall at h
  dsimp only at h
  cases houtcome : faults s.calls with
  | done =>
    rw [houtcome] at h
    dsimp only at h
    cases hrun : f s.tree with
    | ok t' =>
      rw [hrun] at h
      obtain rfl := (EStateM.Result.ok.inj h).2
      exact ⟨rfl, rfl⟩
    | error e =>
      rw [hrun] at h
      cases h
  | failed n =>
    rw [houtcome] at h
    cases h
  | late n =>
    rw [houtcome] at h
    cases h

theorem lastWriteErr_of_writeAll {f g : OpenFile} {bytes : ByteArray}
    (h : f.writeAll faults bytes s = .ok g s') (herr : g.lastWriteErr = false) :
    f.lastWriteErr = false := by
  unfold OpenFile.writeAll at h
  dsimp only at h
  by_cases hempty : bytes.size = 0
  · rw [if_pos hempty] at h
    rw [(EStateM.Result.ok.inj h).1]
    exact herr
  · rw [if_neg hempty] at h
    by_cases hlast : f.lastWriteErr = true
    · rw [if_pos hlast] at h
      cases h
    · exact Bool.eq_false_iff.mpr hlast

theorem lastWriteErr_of_writeBody {f g : OpenFile}
    (h : writeBody faults poll f body s = .ok g s') (herr : g.lastWriteErr = false) :
    f.lastWriteErr = false := by
  induction body generalizing f s with
  | nil =>
    rw [(EStateM.Result.ok.inj h).1]
    exact herr
  | cons item rest ih =>
    obtain ⟨chunk, s₁, -, h⟩ := bind_eq_ok.mp h
    obtain ⟨f₁, s₂, hwrite, h⟩ := bind_eq_ok.mp h
    exact lastWriteErr_of_writeAll hwrite (ih h)

theorem writeAll_eq_ok {f g : OpenFile} {bytes : ByteArray} (hwf : s.tree.WellFormed)
    (hfile : s.tree f.path = some (.file f.written))
    (h : f.writeAll faults bytes s = .ok g s') (herr : g.lastWriteErr = false) :
    g.path = f.path ∧ g.written = f.written ++ bytes ∧
      s'.tree = s.tree.set f.path (some (.file (f.written ++ bytes))) ∧ s'.seen = s.seen ∧
      (f.written.size ≤ maxFileSize → g.written.size ≤ maxFileSize) := by
  have hlast := lastWriteErr_of_writeAll h herr
  unfold OpenFile.writeAll at h
  dsimp only at h
  rw [hlast, if_neg Bool.false_ne_true] at h
  by_cases hempty : bytes.size = 0
  · rw [if_pos hempty] at h
    obtain ⟨rfl, rfl⟩ := EStateM.Result.ok.inj h
    obtain rfl := ByteArray.size_eq_zero_iff.mp hempty
    rw [ByteArray.append_empty, ← hfile, FileTree.set_eq_self]
    exact ⟨rfl, rfl, rfl, rfl, id⟩
  · rw [if_neg hempty] at h
    cases houtcome : faults s.calls with
    | done =>
      rw [houtcome] at h
      dsimp only at h
      by_cases hroom : maxFileSize < f.written.size + bytes.size
      · rw [if_pos hroom] at h
        cases h
      · rw [if_neg hroom, hwf.write_file hfile] at h
        obtain ⟨rfl, rfl⟩ := EStateM.Result.ok.inj h
        refine ⟨rfl, rfl, rfl, rfl, fun _ => ?_⟩
        rw [ByteArray.size_append]
        exact Nat.le_of_not_lt hroom
    | failed n =>
      rw [houtcome] at h
      cases h
    | late n =>
      rw [houtcome] at h
      obtain ⟨rfl, rfl⟩ := EStateM.Result.ok.inj h
      cases herr

theorem flush_eq_ok {f : OpenFile} (h : f.flush s = .ok () s') :
    f.lastWriteErr = false ∧ s' = s := by
  unfold OpenFile.flush at h
  cases hlast : f.lastWriteErr with
  | true =>
    rw [hlast, if_pos rfl] at h
    cases h
  | false =>
    rw [hlast, if_neg Bool.false_ne_true] at h
    exact ⟨rfl, (EStateM.Result.ok.inj h).2.symm⟩

theorem writeBody_eq_ok {f g : OpenFile}
    (hwf : s.tree.WellFormed) (hfile : s.tree f.path = some (.file f.written))
    (h : writeBody faults poll f body s = .ok g s') (herr : g.lastWriteErr = false) :
    ∃ data, feed poll s.seen body = (some data, s'.seen) ∧
      s'.tree = s.tree.set f.path (some (.file (f.written ++ data))) ∧
      (f.written.size ≤ maxFileSize → (f.written ++ data).size ≤ maxFileSize) := by
  induction body generalizing f s with
  | nil =>
    obtain ⟨rfl, rfl⟩ := EStateM.Result.ok.inj h
    refine ⟨ByteArray.empty, rfl, ?_, ?_⟩
    · rw [ByteArray.append_empty, ← hfile, FileTree.set_eq_self]
    · rw [ByteArray.append_empty]
      exact id
  | cons item rest ih =>
    obtain ⟨chunk, s₁, hnext, hbody⟩ := bind_eq_ok.mp h
    obtain ⟨f₁, s₂, hwrite, hrest⟩ := bind_eq_ok.mp hbody
    have hlast := lastWriteErr_of_writeBody hrest herr
    unfold next at hnext
    cases hpoll : poll item s.seen with
    | mk yielded seen₁ =>
    rw [hpoll] at hnext
    cases yielded with
    | none => cases hnext
    | some yielded =>
      obtain ⟨rfl, rfl⟩ := EStateM.Result.ok.inj hnext
      obtain ⟨hpath, hwritten, htree, hseen, hsize⟩ :=
        writeAll_eq_ok (s := { s with seen := seen₁ }) hwf hfile hwrite hlast
      have hfile₁ : s₂.tree f₁.path = some (.file f₁.written) := by
        rw [htree, hpath, hwritten, FileTree.set_self]
      have hwf₁ : s₂.tree.WellFormed := by
        rw [htree]
        exact hwf.write (hwf.write_file hfile)
      obtain ⟨data, hfeed, htree', hsize'⟩ := ih hwf₁ hfile₁ hrest
      rw [hseen] at hfeed
      refine ⟨yielded ++ data, ?_, ?_, fun hle => ?_⟩
      · rw [feed, hpoll]
        dsimp only at hfeed ⊢
        rw [hfeed]
        rfl
      · rw [htree', htree, hpath, hwritten, FileTree.set_set, ByteArray.append_assoc]
      · have hle' := hsize' (hsize hle)
        rwa [hwritten, ByteArray.append_assoc] at hle'

theorem writeTemps_eq_ok {path : List Name} {contentType : String}
    (hwf : s.tree.WellFormed)
    (h : writeTemps faults poll path tmpData tmpCt contentType body s = .ok () s') :
    ∃ data, feed poll s.seen body = (some data, s'.seen) ∧ data.size ≤ maxFileSize ∧
      writeFiles path tmpData tmpCt contentType [.ok data] s.tree = .ok () s'.tree := by
  obtain ⟨_, s₁, h₁, r₁⟩ := bind_eq_ok.mp h
  obtain ⟨hcreate, hseen₁⟩ := tryCall_eq_ok h₁
  obtain ⟨f, s₂, h₂, r₂⟩ := bind_eq_ok.mp r₁
  obtain ⟨_, s₃, h₃, r₃⟩ := bind_eq_ok.mp r₂
  obtain ⟨hlast, rfl⟩ := flush_eq_ok h₃
  have hwf₁ := hwf.write hcreate
  have hfile₁ : s₁.tree tmpData = some (.file ByteArray.empty) := by
    rw [(FileTree.write_eq_ok hcreate).2, FileTree.set_self]
  obtain ⟨data, hfeed, htree₂, hsize⟩ := writeBody_eq_ok hwf₁ hfile₁ h₂ hlast
  rw [ByteArray.empty_append] at htree₂ hsize
  have hwrite : s₁.tree.write tmpData data = .ok (s₁.tree.set tmpData (some (.file data))) :=
    hwf₁.write_file hfile₁
  have hwf₂ : s₃.tree.WellFormed := by
    rw [htree₂]
    exact hwf₁.write hwrite
  obtain ⟨_, s₄, h₄, r₄⟩ := bind_eq_ok.mp r₃
  obtain ⟨hsync, hseen₄⟩ := tryCall_eq_ok h₄
  obtain ⟨_, s₅, h₅, r₅⟩ := bind_eq_ok.mp r₄
  obtain ⟨hcreateCt, hseen₅⟩ := tryCall_eq_ok h₅
  rw [← Except.ok.inj hsync] at hcreateCt
  have hwf₅ := hwf₂.write hcreateCt
  have hfile₅ : s₅.tree tmpCt = some (.file ByteArray.empty) := by
    rw [(FileTree.write_eq_ok hcreateCt).2, FileTree.set_self]
  obtain ⟨g, s₆, h₆, r₆⟩ := bind_eq_ok.mp r₅
  obtain ⟨_, s₇, h₇, r₇⟩ := bind_eq_ok.mp r₆
  obtain ⟨hlastCt, rfl⟩ := flush_eq_ok h₇
  obtain ⟨-, -, htree₆, hseen₆, -⟩ := writeAll_eq_ok hwf₅ hfile₅ h₆ hlastCt
  rw [ByteArray.empty_append] at htree₆
  obtain ⟨_, s₈, h₈, r₈⟩ := bind_eq_ok.mp r₇
  obtain ⟨hsyncCt, hseen₈⟩ := tryCall_eq_ok h₈
  obtain ⟨_, s₉, h₉, r₉⟩ := bind_eq_ok.mp r₈
  obtain ⟨hrename, hseen₉⟩ := tryCall_eq_ok h₉
  obtain ⟨hrenameCt, hseen⟩ := tryCall_eq_ok r₉
  rw [← Except.ok.inj hsyncCt, htree₆] at hrename
  refine ⟨data, ?_, hsize (Nat.zero_le _), ?_⟩
  · rw [hseen, hseen₉, hseen₈, hseen₆, hseen₅, hseen₄, ← hfeed, hseen₁]
  · rw [htree₂] at hcreateCt
    have hchunk : writeChunks tmpData ByteArray.empty [.ok data] s₁.tree =
        .ok () (s₁.tree.set tmpData (some (.file data))) := by
      refine bind_eq_ok.mpr ⟨(), _, call_eq_ok.mpr ?_, rfl⟩
      rw [ByteArray.empty_append]
      exact hwrite
    refine bind_eq_ok.mpr ⟨(), _, call_eq_ok.mpr hcreate, ?_⟩
    refine bind_eq_ok.mpr ⟨(), _, hchunk, ?_⟩
    refine bind_eq_ok.mpr ⟨(), _, call_eq_ok.mpr hcreateCt, ?_⟩
    refine bind_eq_ok.mpr ⟨(), _, call_eq_ok.mpr (hwf₅.write_file hfile₅), ?_⟩
    refine bind_eq_ok.mpr ⟨(), _, call_eq_ok.mpr hrename, ?_⟩
    exact call_eq_ok.mpr hrenameCt

theorem putStreamOver_eq_ok {suffix key contentType : String}
    (hwf : s.tree.WellFormed)
    (h : putStreamOver faults poll suffix key contentType body s = .ok () s') :
    ∃ data, feed poll s.seen body = (some data, s'.seen) ∧ data.size ≤ maxFileSize ∧
      put suffix key contentType data s.tree = .ok () s'.tree := by
  obtain ⟨path, s₁, hpathOf, hrest⟩ := bind_eq_ok.mp h
  have hpath : pathFor key = .ok path ∧ s₁ = s := by
    unfold pathOf at hpathOf
    cases hkey : pathFor key with
    | error e =>
      rw [hkey] at hpathOf
      cases hpathOf
    | ok path' =>
      rw [hkey] at hpathOf
      obtain ⟨rfl, rfl⟩ := EStateM.Result.ok.inj hpathOf
      exact ⟨rfl, rfl⟩
  obtain ⟨hkey, rfl⟩ := hpath
  obtain ⟨_, s₂, hcreate, hcaught⟩ := bind_eq_ok.mp hrest
  obtain ⟨hmkdirs, hseen⟩ := tryCall_eq_ok hcreate
  have hwrite := tryCatch_eq_ok (fun e s₃ _ s₄ hcleanup => by
    obtain ⟨_, _, _, hsecond⟩ := bind_eq_ok.mp hcleanup
    obtain ⟨_, _, _, hthrow⟩ := bind_eq_ok.mp hsecond
    cases hthrow) hcaught
  obtain ⟨data, hfeed, hsize, hfiles⟩ := writeTemps_eq_ok (hwf.mkdirs hmkdirs) hwrite
  rw [hseen] at hfeed
  refine ⟨data, hfeed, hsize, ?_⟩
  refine bind_eq_ok.mpr ⟨path, _, liftError_eq_ok.mpr ⟨hkey, rfl⟩, ?_⟩
  refine bind_eq_ok.mpr ⟨(), _, call_eq_ok.mpr hmkdirs, ?_⟩
  change EStateM.tryCatch _ _ _ = _
  unfold EStateM.tryCatch
  rw [hfiles]

end Ok

end Stroem.BlobArchive
