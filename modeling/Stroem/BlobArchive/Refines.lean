import Stroem.BlobArchive.Effects
import Stroem.Foundation.Runs

/-!
# The archive as a key-value store

The abstract store is a map from keys to blobs.  The sidecar of a key is a file of the same tree,
so it is also the data file of another key, and a key can be a directory of another key's path: a
call on one key is seen on another in the ways that `Harmless` leaves out, and in no other way.
-/

namespace Stroem.BlobArchive

open Stroem.Foundation

/-! ## The abstract store -/

abbrev Store := String → Option Blob

def Store.set (store : Store) (key : String) (blob : Option Blob) : Store := fun key' =>
  if key' = key then blob else store key'

def Store.apply (store : Store) : Op → Store
  | .put _ key contentType data => store.set key (some ⟨contentType, data⟩)
  | .putStream _ key contentType body =>
    store.set key ((collect body).map fun data => ⟨contentType, data⟩)
  | .delete key => store.set key none
  | .deletePrefix prefixKey => fun key =>
    if prefixKey.toList <+: key.toList then none else store key

structure State where
  tree : Tree
  store : Store

def init : State := ⟨FileTree.empty, fun _ => none⟩

def step (s : State) (op : Op) : Option State :=
  if op.fresh s.tree then
    match op.run s.tree with
    | .ok () t => some ⟨t, s.store.apply op⟩
    | .error _ _ => none
  else
    none

structure Answers (dirLen : Nat) (t : Tree) (key : String) (blob : Option Blob) : Prop where
  get : get t key = .ok blob
  getStream : getStream t key = .ok (blob.map fun b => (b.contentType, .ok b.bytes))
  opened : ∃ obj, openObject dirLen t key = .ok obj ∧ obj.isSome = blob.isSome ∧
    ∀ o ∈ obj, ∀ b ∈ blob, o.key = key ∧ o.size = b.bytes.size ∧
      ∀ offset len into, readRange o offset len into =
        .ok (into ++ b.bytes.extract offset (offset + len))

/-! ## Reads -/

variable {t t' : Tree} {key : String} {dirLen : Nat}

def contentTypeOf : Option (Node ByteArray) → String
  | some (.file bytes) => decodeContentType bytes
  | _ => octetStream

@[simp] theorem decodeContentType_toUTF8 (text : String) :
    decodeContentType text.toUTF8 = text := by
  have h : String.fromUTF8? text.toUTF8 = some text := by
    unfold String.fromUTF8?
    rw [String.toUTF8_eq_toByteArray, dif_pos text.isValidUTF8]
    rfl
  rw [decodeContentType, h]
  rfl

theorem readContentType_eq (h : t.WellFormed) (p : List Name) :
    readContentType t p = contentTypeOf (t p) := by
  unfold readContentType
  cases hread : t.read p with
  | ok bytes => simp only [FileTree.eq_of_read_eq_ok hread, contentTypeOf]
  | error e =>
    cases hp : t p with
    | none => rfl
    | some node =>
      cases node with
      | dir => rfl
      | file bytes => simp [(FileTree.read_eq_ok_iff h).mpr hp] at hread

theorem extract_min_size {bytes : ByteArray} {start stop : Nat} (h : start ≤ bytes.size) :
    bytes.extract start (min stop bytes.size) = bytes.extract start stop := by
  rcases Nat.le_total stop bytes.size with hle | hle
  · rw [Nat.min_eq_left hle]
  · have hrest : bytes.extract bytes.size stop = ByteArray.empty :=
      ByteArray.extract_eq_empty_iff.mpr (Nat.min_le_right _ _)
    rw [Nat.min_eq_right hle, ByteArray.extract_eq_extract_append_extract bytes.size h hle, hrest,
      ByteArray.append_empty]

theorem readRange_file (bytes into : ByteArray) (offset len : Nat) :
    readRange ⟨key, bytes.size, .file bytes⟩ offset len into =
      .ok (into ++ bytes.extract offset (offset + len)) := by
  unfold readRange readToEnd
  split
  · next hend =>
    have hrest : bytes.extract offset (offset + len) = ByteArray.empty :=
      ByteArray.extract_eq_empty_iff.mpr ((Nat.min_le_right _ _).trans hend)
    rw [hrest, ByteArray.append_empty]
  · next hstart =>
    have hstop : offset + min len (bytes.size - offset) = min (offset + len) bytes.size := by
      dsimp only at hstart
      omega
    dsimp only at hstart ⊢
    rw [hstop, extract_min_size (by omega)]

def Holds (t : Tree) (key : String) : Option Blob → Prop
  | some blob => t (components key) = some (.file blob.bytes) ∧
      contentTypeOf (t (components (sidecar key))) = blob.contentType
  | none => t (components key) = none ∧ ¬t.Blocked (components key)

theorem get_eq (h : t.WellFormed) (hkey : validateKey key = .ok ()) :
    get t key = match t.read (components key) with
      | .ok bytes => .ok (some ⟨contentTypeOf (t (components (sidecar key))), bytes⟩)
      | .error .notFound => .ok none
      | .error e => .error (.io e) := by
  simp only [get, pathFor, hkey]
  rewrite [ctPathFor_components, readContentType_eq h]
  rfl

theorem Holds.answers (h : t.WellFormed) (hkey : validateKey key = .ok ()) {blob : Option Blob}
    (hholds : Holds t key blob) : Answers dirLen t key blob := by
  cases blob with
  | none =>
    obtain ⟨hnone, hfree⟩ := hholds
    have hfind := FileTree.find_eq_notFound hnone hfree
    have hread := (FileTree.read_eq_notFound_iff h).mpr ⟨hnone, hfree⟩
    constructor
    · rw [get_eq h hkey, hread]
    · simp only [getStream, pathFor, hkey, hfind, Option.map_none]
    · refine ⟨none, ?_, rfl, fun o ho => nomatch ho⟩
      simp only [openObject, pathFor, hkey, hfind]
  | some blob =>
    obtain ⟨hfile, hct⟩ := hholds
    have hfind := FileTree.find_eq_ok h hfile
    have hread := (FileTree.read_eq_ok_iff h).mpr hfile
    constructor
    · rw [get_eq h hkey, hread, hct]
    · simp only [getStream, pathFor, hkey, hfind, Option.map_some, ctPathFor_components,
        readContentType_eq h, hct, readToEnd]
    · refine ⟨some ⟨key, blob.bytes.size, .file blob.bytes⟩, ?_, rfl, ?_⟩
      · simp only [openObject, pathFor, hkey, hfind, metadataLen]
      · rintro o ⟨⟩ b ⟨⟩
        exact ⟨rfl, rfl, fun offset len into => readRange_file blob.bytes into offset len⟩

theorem Answers.holds (h : t.WellFormed) (hkey : validateKey key = .ok ()) {blob : Option Blob}
    (hanswers : Answers dirLen t key blob) : Holds t key blob := by
  have hget := hanswers.get
  rw [get_eq h hkey] at hget
  split at hget
  · next bytes hread =>
    cases hget
    exact ⟨FileTree.eq_of_read_eq_ok hread, rfl⟩
  · next hread =>
    cases hget
    exact (FileTree.read_eq_notFound_iff h).mp hread
  · cases hget

theorem answers_iff_holds (h : t.WellFormed) (hkey : validateKey key = .ok ())
    {blob : Option Blob} : Answers dirLen t key blob ↔ Holds t key blob :=
  ⟨Answers.holds h hkey, Holds.answers h hkey⟩

/-! ## Calls that leave a key alone -/

def SparesWrite (key other contentType : String) (data : ByteArray) : Option Blob → Prop
  | some blob => (sidecar other = key → contentType.toUTF8 = blob.bytes) ∧
      (other = sidecar key → decodeContentType data = blob.contentType)
  | none => sidecar other ≠ key ∧ ¬Above key other ∧ ¬Above other key ∧ ¬Above (sidecar other) key

/--
What a call may do while `key` should hold `blob`.  A write of another key is seen where its
sidecar is the blob's file, where its file is the blob's sidecar and, if nothing is stored, where
its files stand above `key` or below it; a deletion is seen where it takes one of the two files
away.
-/
def Harmless (blob : Option Blob) (key : String) : Op → Prop
  | .put _ other contentType data => other = key ∨ SparesWrite key other contentType data blob
  | .putStream _ other contentType body =>
    other = key ∨ ∀ data ∈ collect body, SparesWrite key other contentType data blob
  | .delete other => other = key ∨
      ∀ b ∈ blob, sidecar other ≠ key ∧ (other = sidecar key → b.contentType = octetStream)
  | .deletePrefix prefixKey => blob = none ∨
      (prefixKey.toList <+: key.toList ↔ Above (trimEndSlashes prefixKey) key)

instance SparesWrite.decidable (key other contentType : String) (data : ByteArray)
    (blob : Option Blob) : Decidable (SparesWrite key other contentType data blob) :=
  match blob with
  | some _ => inferInstanceAs (Decidable (_ ∧ _))
  | none => inferInstanceAs (Decidable (_ ∧ _))

instance Harmless.decidable (blob : Option Blob) (key : String) (op : Op) :
    Decidable (Harmless blob key op) :=
  match op with
  | .put .. | .putStream .. | .delete _ | .deletePrefix _ =>
    inferInstanceAs (Decidable (_ ∨ _))

theorem contentTypeOf_of_ne_file {node : Option (Node ByteArray)}
    (h : ∀ c, node ≠ some (.file c)) : contentTypeOf node = octetStream := by
  cases node with
  | none => rfl
  | some node =>
    cases node with
    | dir => rfl
    | file c => exact absurd rfl (h c)

section Write

variable {other contentType : String} {data : ByteArray}

theorem afterPut_sidecar : afterPut t other contentType data (components (sidecar other)) =
    some (.file contentType.toUTF8) :=
  if_pos rfl

theorem afterPut_key : afterPut t other contentType data (components other) =
    some (.file data) := by
  have hne : components other ≠ components (sidecar other) :=
    fun heq => sidecar_ne other (components_inj.mp heq).symm
  unfold afterPut
  rw [if_neg hne, if_pos rfl]

theorem afterPut_of_ne (hne : key ≠ other) (hct : key ≠ sidecar other)
    (habove : ¬Above key other) :
    afterPut t other contentType data (components key) = t (components key) := by
  unfold afterPut
  rw [if_neg (mt components_inj.mp hct), if_neg (mt components_inj.mp hne),
    if_neg (mt prefix_parent_iff.mp habove)]

theorem afterPut_of_above (habove : Above key other) :
    afterPut t other contentType data (components key) = some .dir := by
  have hprefix := prefix_parent_iff.mpr habove
  have hne : components key ≠ components other :=
    fun heq => not_prefix_parent (heq ▸ rfl) hprefix
  have hct : components key ≠ components (sidecar other) :=
    fun heq => not_prefix_parent (heq ▸ length_components_sidecar other) hprefix
  unfold afterPut
  rw [if_neg hct, if_neg hne, if_pos hprefix]

theorem holds_afterPut_self : Holds (afterPut t key contentType data) key
    (some ⟨contentType, data⟩) := by
  refine ⟨afterPut_key, ?_⟩
  rw [afterPut_sidecar]
  exact decodeContentType_toUTF8 contentType

theorem holds_some_afterPut_iff {blob : Blob} (hfree : ¬t.Blocked (components other).dropLast)
    (hne : other ≠ key) (h : Holds t key (some blob)) :
    Holds (afterPut t other contentType data) key (some blob) ↔
      SparesWrite key other contentType data (some blob) := by
  have habove : ¬Above key other :=
    fun habove => hfree ⟨_, _, prefix_parent_iff.mpr habove, h.1⟩
  have hfile : afterPut t other contentType data (components key) = some (.file blob.bytes) ↔
      (sidecar other = key → contentType.toUTF8 = blob.bytes) := by
    by_cases hct : sidecar other = key
    · rw [← hct, afterPut_sidecar]
      simp
    · rw [afterPut_of_ne (Ne.symm hne) (Ne.symm hct) habove, h.1]
      simp [hct]
  have htext : contentTypeOf (afterPut t other contentType data (components (sidecar key))) =
      blob.contentType ↔ (other = sidecar key → decodeContentType data = blob.contentType) := by
    by_cases hother : other = sidecar key
    · rw [← hother, afterPut_key]
      simp [contentTypeOf]
    · have hct : sidecar key ≠ sidecar other := fun heq => hne (sidecar_inj.mp heq).symm
      have hsame : contentTypeOf (afterPut t other contentType data (components (sidecar key))) =
          blob.contentType := by
        rw [← h.2]
        by_cases hbelow : Above (sidecar key) other
        · have hdir : ∀ c, t (components (sidecar key)) ≠ some (.file c) :=
            fun c hc => hfree ⟨_, c, prefix_parent_iff.mpr hbelow, hc⟩
          rw [afterPut_of_above hbelow, contentTypeOf_of_ne_file hdir]
          rfl
        · rw [afterPut_of_ne (Ne.symm hother) hct hbelow]
      simp [hother, hsame]
  exact and_congr hfile htext

theorem holds_none_afterPut_iff (hne : other ≠ key) (h : Holds t key none) :
    Holds (afterPut t other contentType data) key none ↔
      SparesWrite key other contentType data none := by
  constructor
  · rintro ⟨hnone, hfree⟩
    refine ⟨?_, ?_, ?_, ?_⟩
    · rintro rfl
      rw [afterPut_sidecar] at hnone
      cases hnone
    · intro habove
      rw [afterPut_of_above habove] at hnone
      cases hnone
    · intro habove
      exact hfree ⟨_, _, components_prefix_iff.mpr (.inr habove), afterPut_key⟩
    · intro habove
      exact hfree ⟨_, _, components_prefix_iff.mpr (.inr habove), afterPut_sidecar⟩
  · rintro ⟨hct, hbelow, habove, haboveCt⟩
    refine ⟨?_, ?_⟩
    · rw [afterPut_of_ne (Ne.symm hne) (Ne.symm hct) hbelow]
      exact h.1
    · rintro ⟨q, c, hprefix, hfile⟩
      unfold afterPut at hfile
      split at hfile
      · next hq =>
        rcases components_prefix_iff.mp (hq ▸ hprefix) with heq | hq'
        · exact hct heq
        · exact haboveCt hq'
      · split at hfile
        · next hq =>
          rcases components_prefix_iff.mp (hq ▸ hprefix) with heq | hq'
          · exact hne heq
          · exact habove hq'
        · split at hfile
          · cases hfile
          · exact h.2 ⟨q, c, hprefix, hfile⟩

end Write

section Removal

variable {other : String}

theorem not_blocked_of_le (hle : ∀ q c, t' q = some (.file c) → t q = some (.file c))
    {p : List Name} (h : ¬t.Blocked p) : ¬t'.Blocked p :=
  fun ⟨q, c, hprefix, hfile⟩ => h ⟨q, c, hprefix, hle q c hfile⟩

theorem afterDelete_le {q : List Name} {c : ByteArray}
    (h : afterDelete t other q = some (.file c)) : t q = some (.file c) := by
  unfold afterDelete at h
  split at h
  · cases h
  · split at h
    · unfold unlinked at h
      split at h <;> cases h
    · exact h

theorem afterDelete_eq_none {q : List Name} (h : t q = none) : afterDelete t other q = none := by
  unfold afterDelete
  split
  · rfl
  · split
    · rw [h]
      rfl
    · exact h

theorem holds_some_afterDelete_iff {blob : Blob} (hne : other ≠ key)
    (h : Holds t key (some blob)) : Holds (afterDelete t other) key (some blob) ↔
      sidecar other ≠ key ∧ (other = sidecar key → blob.contentType = octetStream) := by
  have hkey : components key ≠ components other := fun heq => hne (components_inj.mp heq).symm
  have hfile : afterDelete t other (components key) = some (.file blob.bytes) ↔
      sidecar other ≠ key := by
    unfold afterDelete
    rw [if_neg hkey]
    by_cases hct : sidecar other = key
    · rw [if_pos (congrArg components hct.symm), h.1]
      simp [hct, unlinked]
    · rw [if_neg fun heq => hct (components_inj.mp heq).symm, h.1]
      simp [hct]
  have htext : contentTypeOf (afterDelete t other (components (sidecar key))) =
      blob.contentType ↔ (other = sidecar key → blob.contentType = octetStream) := by
    unfold afterDelete
    by_cases hother : other = sidecar key
    · rw [if_pos (congrArg components hother.symm)]
      simp [hother, contentTypeOf, eq_comm]
    · have hct : components (sidecar key) ≠ components (sidecar other) :=
        fun heq => hne (sidecar_inj.mp (components_inj.mp heq)).symm
      rw [if_neg fun heq => hother (components_inj.mp heq).symm, if_neg hct, h.2]
      simp [hother]
  exact and_congr hfile htext

theorem afterDeletePrefix_le {q : List Name} {node : Node ByteArray}
    (h : afterDeletePrefix t other q = some node) : t q = some node := by
  unfold afterDeletePrefix at h
  split at h
  · cases h
  · exact h

theorem Holds.none_of_le (hle : ∀ q node, t' q = some node → t q = some node)
    (h : Holds t key none) : Holds t' key none := by
  refine ⟨?_, not_blocked_of_le (fun q c => hle q _) h.2⟩
  cases hnode : t' (components key) with
  | none => rfl
  | some node => exact absurd (h.1.symm.trans (hle _ _ hnode)) (by simp)

theorem holds_afterDeletePrefix_iff (hwf : t.WellFormed) {blob : Blob} {gone : Prop}
    [Decidable gone] (hdir : ∀ c, t (components other) ≠ some (.file c))
    (h : Holds t key (some blob)) :
    Holds (afterDeletePrefix t other) key (if gone then none else some blob) ↔
      (gone ↔ Above other key) := by
  have hne : other ≠ key := fun heq => hdir _ (heq ▸ h.1)
  by_cases habove : Above other key
  · have hremoved : afterDeletePrefix t other (components key) = none :=
      if_pos (components_prefix_iff.mpr (.inr habove))
    have hnone : Holds (afterDeletePrefix t other) key none :=
      ⟨hremoved, hwf.not_blocked_of_removed h.1 hremoved fun q c => afterDeletePrefix_le⟩
    by_cases hgone : gone
    · simp [hgone, habove, hnone]
    · have hsome : ¬Holds (afterDeletePrefix t other) key (some blob) :=
        fun hsome => absurd (hremoved.symm.trans hsome.1) (by simp)
      simp [hgone, habove, hsome]
  · have hkey : afterDeletePrefix t other (components key) = some (.file blob.bytes) := by
      unfold afterDeletePrefix
      rw [if_neg, h.1]
      exact fun hprefix => (components_prefix_iff.mp hprefix).elim hne habove
    have htext : contentTypeOf (afterDeletePrefix t other (components (sidecar key))) =
        blob.contentType := by
      rw [← h.2]
      unfold afterDeletePrefix
      split
      · next hprefix =>
        have hother : other = sidecar key := (components_prefix_iff.mp hprefix).resolve_right
          fun h => habove (above_sidecar_iff.mp h)
        rw [← hother, contentTypeOf_of_ne_file hdir]
        rfl
      · rfl
    have hsome : Holds (afterDeletePrefix t other) key (some blob) := ⟨hkey, htext⟩
    by_cases hgone : gone
    · have hnone : ¬Holds (afterDeletePrefix t other) key none :=
        fun hnone => absurd (hkey.symm.trans hnone.1) (by simp)
      simp [hgone, habove, hnone]
    · simp [hgone, habove, hsome]

end Removal

/-! ## Runs -/

theorem step_eq_some {s s' : State} {op : Op} (h : step s op = some s') :
    op.fresh s.tree = true ∧ op.run s.tree = .ok () s'.tree ∧ s'.store = s.store.apply op := by
  unfold step at h
  split at h
  · next hfresh =>
    split at h
    · next t hrun =>
      cases h
      exact ⟨hfresh, hrun, rfl⟩
    · cases h
  · cases h

theorem write_effect {suffix other contentType : String} {body : List (Except String ByteArray)}
    (hwf : t.WellFormed) (hfresh : (Op.putStream suffix other contentType body).fresh t = true)
    (hrun : putStream suffix other contentType body t = .ok () t') :
    ∃ data, collect body = some data ∧ ¬t.Blocked (components other).dropLast ∧
      t' = afterPut t other contentType data ∧ t'.WellFormed := by
  simp only [Op.fresh, Bool.and_eq_true, Option.isNone_iff_eq_none] at hfresh
  obtain ⟨data, hbody, hfree, hdir, hdirCt, rfl⟩ := putStream_eq_ok hfresh.1 hfresh.2 hrun
  exact ⟨data, hbody, hfree, rfl, wellFormed_afterPut hwf hdir hdirCt⟩

theorem write_iff {other contentType : String} {data : ByteArray} {store store' : Store}
    (hfree : ¬t.Blocked (components other).dropLast)
    (hstore : store' = store.set other (some ⟨contentType, data⟩))
    (hholds : Holds t key (store key)) :
    Holds (afterPut t other contentType data) key (store' key) ↔
      other = key ∨ SparesWrite key other contentType data (store key) := by
  subst hstore
  by_cases hkey : other = key
  · subst hkey
    rw [Store.set, if_pos rfl]
    simp [holds_afterPut_self]
  · rw [Store.set, if_neg (Ne.symm hkey), or_iff_right hkey]
    cases hblob : store key with
    | none => exact holds_none_afterPut_iff hkey (hblob ▸ hholds)
    | some blob => exact holds_some_afterPut_iff hfree hkey (hblob ▸ hholds)

theorem step_wellFormed {s s' : State} {op : Op} (hwf : s.tree.WellFormed)
    (h : step s op = some s') : s'.tree.WellFormed := by
  obtain ⟨hfresh, hrun, -⟩ := step_eq_some h
  cases op with
  | put suffix other contentType data | putStream suffix other contentType body =>
    obtain ⟨-, -, -, -, hwf'⟩ := write_effect hwf hfresh hrun
    exact hwf'
  | delete other => exact (delete_eq_ok hwf hrun).2.2.1
  | deletePrefix prefixKey => exact (deletePrefix_eq_ok hwf hrun).2.1

theorem step_holds_iff {s s' : State} {op : Op} (hwf : s.tree.WellFormed)
    (hholds : Holds s.tree key (s.store key)) (h : step s op = some s') :
    Holds s'.tree key (s'.store key) ↔ Harmless (s.store key) key op := by
  obtain ⟨hfresh, hrun, hstore⟩ := step_eq_some h
  cases op with
  | put suffix other contentType data =>
    obtain ⟨data', hbody, hfree, htree, -⟩ := write_effect hwf hfresh hrun
    obtain rfl : data = data' := by simpa [collect] using hbody
    rw [htree]
    exact write_iff hfree hstore hholds
  | putStream suffix other contentType body =>
    obtain ⟨data, hbody, hfree, htree, -⟩ := write_effect hwf hfresh hrun
    rw [htree, write_iff hfree (by rw [hstore, Store.apply, hbody]; rfl) hholds]
    simp [Harmless, hbody]
  | delete other =>
    obtain ⟨htree, -, hwf', hfree⟩ := delete_eq_ok hwf hrun
    rw [htree] at hfree ⊢
    rw [hstore]
    by_cases hkey : other = key
    · subst hkey
      have hnone : Holds (afterDelete s.tree other) other none := ⟨if_pos rfl, hfree⟩
      simp [Harmless, Store.apply, Store.set, hnone]
    · simp only [Harmless, Store.apply, Store.set, if_neg (Ne.symm hkey), or_iff_right hkey]
      cases hblob : s.store key with
      | none =>
        have hnone : Holds (afterDelete s.tree other) key none := by
          rw [hblob] at hholds
          exact ⟨afterDelete_eq_none hholds.1,
            not_blocked_of_le (fun q c => afterDelete_le) hholds.2⟩
        simp [hnone]
      | some blob =>
        rw [hblob] at hholds
        simp [holds_some_afterDelete_iff hkey hholds]
  | deletePrefix prefixKey =>
    obtain ⟨htree, -, hfile⟩ := deletePrefix_eq_ok hwf hrun
    rw [htree, hstore]
    simp only [Harmless, Store.apply]
    cases hblob : s.store key with
    | none =>
      rw [hblob] at hholds
      have hnone : Holds (afterDeletePrefix s.tree (trimEndSlashes prefixKey)) key none :=
        hholds.none_of_le fun q node => afterDeletePrefix_le
      simp [hnone]
    | some blob =>
      rw [hblob] at hholds
      simp [holds_afterDeletePrefix_iff hwf hfile hholds]

/--
The reads of a key answer with what the store holds, after every call of a run, exactly when no
call is seen on a key it does not name.
-/
theorem answers_iff_harmless (hkey : validateKey key = .ok ()) {ops : List Op} :
    (∀ before last, before <+: ops → exec step init before = some last →
        Answers dirLen last.tree key (last.store key)) ↔
      Meets step (fun s op => (step s op).isSome → Harmless (s.store key) key op) init ops := by
  have hinit : Holds init.tree key (init.store key) := by
    refine ⟨if_neg (components_ne_nil key), ?_⟩
    rintro ⟨q, c, -, hfile⟩
    have hq : FileTree.empty q = some (Node.file c) := hfile
    unfold FileTree.empty at hq
    split at hq <;> cases hq
  refine forall_states_iff_meets (fun s : State => Answers dirLen s.tree key (s.store key))
    (fun s : State => s.tree.WellFormed) (fun s op s' => step_wellFormed) ?_
      FileTree.wellFormed_empty
    (hinit.answers FileTree.wellFormed_empty hkey)
  intro s op s' hwf hanswers h
  rw [answers_iff_holds (step_wellFormed hwf h) hkey]
  exact step_holds_iff hwf (hanswers.holds hwf hkey) h

theorem answers_iff_harmless_twoKeys :
    ∃ last, exec step init [.put "0" "logs/a" "text/plain" "x".toUTF8,
        .put "1" "logs/b" "image/png" "y".toUTF8] = some last ∧
      Answers 4096 last.tree "logs/a" (some ⟨"text/plain", "x".toUTF8⟩) := by
  have hrun : (exec step init [.put "0" "logs/a" "text/plain" "x".toUTF8,
      .put "1" "logs/b" "image/png" "y".toUTF8]).map (fun s => s.store "logs/a") =
      some (some ⟨"text/plain", "x".toUTF8⟩) := by
    decide +kernel
  obtain ⟨last, hlast, hstore⟩ := Option.map_eq_some_iff.mp hrun
  refine ⟨last, hlast, hstore ▸ ?_⟩
  exact (answers_iff_harmless (by decide +kernel)).mpr (by decide +kernel) _ last
    List.prefix_rfl hlast

/-- Two artifacts of one job, named `a` and `a.ct`. -/
theorem sidecar_overwritten :
    ∃ last, exec step init [.put "0" "a" "text/plain" "x".toUTF8,
        .put "1" "a.ct" "text/plain" "image/png".toUTF8] = some last ∧
      last.store "a" = some ⟨"text/plain", "x".toUTF8⟩ ∧
      get last.tree "a" = .ok (some ⟨"image/png", "x".toUTF8⟩) ∧
      ¬Answers 4096 last.tree "a" (last.store "a") := by
  have hrun : (exec step init [.put "0" "a" "text/plain" "x".toUTF8,
      .put "1" "a.ct" "text/plain" "image/png".toUTF8]).map
        (fun s => (s.store "a", get s.tree "a")) =
      some (some ⟨"text/plain", "x".toUTF8⟩, .ok (some ⟨"image/png", "x".toUTF8⟩)) := by
    decide +kernel
  obtain ⟨last, hlast, hreads⟩ := Option.map_eq_some_iff.mp hrun
  obtain ⟨hstore, hget⟩ := Prod.mk.inj hreads
  refine ⟨last, hlast, hstore, hget, fun hanswers => ?_⟩
  have hright := hanswers.get
  rw [hget, hstore] at hright
  exact absurd hright (by decide)

end Stroem.BlobArchive
