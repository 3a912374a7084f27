import Stroem.Redaction
import Mathlib.Data.List.ReduceOption

/-!
# The redaction closure is complete or refused

The lineage of a job, the trees of its jobs and the pins in them are defined here on the graph of
the job rows, without bounds and without an order of visits.  It may have cycles.

If no row of a walk is refused and the reader got fewer rows than its limit, the walk has been
everywhere.  That the walk down may start from roots only needs the refusals of the walk up.
-/

namespace Stroem.Redaction

open Foundation Hooks

/-! ## The graph -/

inductive EdgeKind where
  | parent
  | hook
  | source
  | retry
  deriving DecidableEq

def EdgeKind.targetOf (j : ClosureJob) : EdgeKind → Option Uuid
  | .parent => j.parentJobId
  | .hook => if j.sourceType = .hook then sourceOf j else none
  | .source => if j.sourceType = .restart ∨ j.sourceType = .rerun then sourceOf j else none
  | .retry => j.retryOfJobId

def IsEdge (table : JobTable) (kind : EdgeKind) (a b : Uuid) : Prop :=
  ∃ j ∈ table.rows, j.jobId = a ∧ kind.targetOf j = some b

inductive Path (table : JobTable) (start : Uuid) : List EdgeKind → Uuid → Prop where
  | nil : Path table start [] start
  | step {kinds : List EdgeKind} {a b : Uuid} {kind : EdgeKind} :
      Path table start kinds a → IsEdge table kind a b → Path table start (kind :: kinds) b

def Lineage (table : JobTable) (start id : Uuid) : Prop :=
  ∃ kinds, Path table start kinds id

def Above (table : JobTable) (id ancestor : Uuid) : Prop :=
  Relation.ReflTransGen (IsEdge table .parent) id ancestor

def SameTree (table : JobTable) (a b : Uuid) : Prop :=
  ∃ ancestor, Above table a ancestor ∧ Above table b ancestor

def ReachablePin (table : JobTable) (id : Uuid) (p : ClosurePinRow) : Prop :=
  ∃ j ∈ table.rows, ∃ k ∈ table.rows,
    Lineage table id j.jobId ∧ SameTree table j.jobId k.jobId ∧ p ∈ pinsOf k

/-! ## Paths within the bounds -/

def parentRun (kinds : List EdgeKind) : Nat :=
  (kinds.takeWhile (· == .parent)).length

def WithinBounds (b : ClosureBounds) (kinds : List EdgeKind) : Prop :=
  parentRun kinds ≤ b.taskDepth.toNat ∧ kinds.count .hook ≤ b.hookHops.toNat ∧
    kinds.count .source ≤ b.sourceHops.toNat ∧ kinds.count .retry ≤ b.retryHops.toNat

def IsRoot (table : JobTable) (id : Uuid) : Prop :=
  ∃ j ∈ table.rows, j.jobId = id ∧ j.parentJobId = none

inductive LevelsBelow (table : JobTable) (ancestor : Uuid) : Nat → Uuid → Prop where
  | zero : LevelsBelow table ancestor 0 ancestor
  | succ {n : Nat} {a c : Uuid} :
      LevelsBelow table ancestor n a → IsEdge table .parent c a →
        LevelsBelow table ancestor (n + 1) c

def PathsWithin (table : JobTable) (b : ClosureBounds) (id : Uuid) : Prop :=
  (∀ kinds k, Path table id kinds k → WithinBounds b kinds) ∧
    ∀ r, Lineage table id r → IsRoot table r →
      ∀ n k, LevelsBelow table r n k → n ≤ b.taskDepth.toNat

def WalksWithin (table : JobTable) (b : ClosureBounds) (id : Uuid) : Prop :=
  ∃ max : Nat, (max : Int) ≤ b.maxJobs ∧ RowsWithin (upNext table b) (upStart id) max ∧
    RowsWithin (treeNext table b) (treeStart table (upCapped table b id)) max

/-! ## One row of a walk -/

variable {table : JobTable}

theorem JobTable.get_eq_some_iff {id : Uuid} {j : ClosureJob} :
    table.get id = some j ↔ j ∈ table.rows ∧ j.jobId = id := by
  constructor
  · intro h
    exact ⟨List.mem_of_find?_eq_some h, by simpa using List.find?_some h⟩
  · rintro ⟨hj, rfl⟩
    cases h : table.get j.jobId with
    | none =>
      have hnone := List.find?_eq_none.mp h j hj
      simp at hnone
    | some k =>
      have hk : k.jobId = j.jobId := by simpa using List.find?_some h
      rw [table.keyed.eq_of_key (List.mem_of_find?_eq_some h) hj hk]

def UpRow.hop (b : ClosureBounds) (u : UpRow) (id : Uuid) : EdgeKind → UpRow
  | .parent =>
    ⟨id, u.depth + 1, u.hookHops, u.sourceHops, u.retryHops,
      !decide ((u.depth : Int) < b.taskDepth)⟩
  | .hook =>
    ⟨id, 0, u.hookHops + 1, u.sourceHops, u.retryHops,
      !decide ((u.hookHops : Int) < b.hookHops)⟩
  | .source =>
    ⟨id, 0, u.hookHops, u.sourceHops + 1, u.retryHops,
      !decide ((u.sourceHops : Int) < b.sourceHops)⟩
  | .retry =>
    ⟨id, 0, u.hookHops, u.sourceHops, u.retryHops + 1,
      !decide ((u.retryHops : Int) < b.retryHops)⟩

@[simp] theorem UpRow.hop_jobId (b : ClosureBounds) (u : UpRow) (id : Uuid) (kind : EdgeKind) :
    (u.hop b id kind).jobId = id := by
  cases kind <;> rfl

variable {b : ClosureBounds}

theorem mem_upEdges {u v : UpRow} {j : ClosureJob} :
    some v ∈ upEdges b u j ↔
      ∃ kind id, EdgeKind.targetOf j kind = some id ∧ v = u.hop b id kind := by
  simp only [upEdges, List.mem_cons, List.not_mem_nil, or_false]
  constructor
  · rintro (h | h | h) <;> obtain ⟨id, hid, rfl⟩ := Option.map_eq_some_iff.mp h.symm
    · exact ⟨.parent, id, hid, rfl⟩
    · cases hs : j.sourceType with
      | hook => exact ⟨.hook, id, by simp [EdgeKind.targetOf, hs, hid], by simp [UpRow.hop]⟩
      | restart
      | rerun => exact ⟨.source, id, by simp [EdgeKind.targetOf, hs, hid], by simp [UpRow.hop]⟩
      | _ => simp [sourceOf, hs] at hid
    · exact ⟨.retry, id, hid, rfl⟩
  · rintro ⟨kind, id, hid, rfl⟩
    cases kind with
    | parent =>
      refine .inl (Option.map_eq_some_iff.mpr ⟨id, ?_, ?_⟩).symm
      · exact hid
      · rfl
    | hook =>
      simp only [EdgeKind.targetOf, Option.ite_none_right_eq_some] at hid
      refine .inr (.inl (Option.map_eq_some_iff.mpr ⟨id, hid.2, ?_⟩).symm)
      simp [UpRow.hop, hid.1]
    | source =>
      simp only [EdgeKind.targetOf, Option.ite_none_right_eq_some] at hid
      refine .inr (.inl (Option.map_eq_some_iff.mpr ⟨id, hid.2, ?_⟩).symm)
      rcases hid.1 with hs | hs <;> simp [UpRow.hop, hs]
    | retry =>
      refine .inr (.inr (Option.map_eq_some_iff.mpr ⟨id, ?_, ?_⟩).symm)
      · exact hid
      · rfl

theorem mem_upNext {u v : UpRow} :
    v ∈ upNext table b u ↔
      u.refused = false ∧ ∃ kind id, IsEdge table kind u.jobId id ∧ v = u.hop b id kind := by
  unfold upNext
  cases hr : u.refused with
  | true => simp
  | false =>
    simp only [Bool.false_eq_true, if_false, true_and]
    constructor
    · intro h
      cases hj : table.get u.jobId with
      | none => simp [hj] at h
      | some j =>
        simp only [hj, List.reduceOption_mem_iff] at h
        obtain ⟨kind, id, hid, hv⟩ := mem_upEdges.mp h
        obtain ⟨hmem, heq⟩ := JobTable.get_eq_some_iff.mp hj
        exact ⟨kind, id, ⟨j, hmem, heq, hid⟩, hv⟩
    · rintro ⟨kind, id, ⟨j, hmem, heq, hid⟩, hv⟩
      rw [JobTable.get_eq_some_iff.mpr ⟨hmem, heq⟩]
      simp only [List.reduceOption_mem_iff]
      exact mem_upEdges.mpr ⟨kind, id, hid, hv⟩

theorem mem_treeNext {t v : TreeRow} :
    v ∈ treeNext table b t ↔
      t.refused = false ∧ ∃ id, IsEdge table .parent id t.jobId ∧
        v = ⟨id, t.depth + 1, decide (b.taskDepth ≤ t.depth)⟩ := by
  unfold treeNext
  cases hr : t.refused with
  | true => simp
  | false =>
    simp only [Bool.false_eq_true, if_false, true_and, List.mem_map, JobTable.children,
      List.mem_filter, beq_iff_eq]
    constructor
    · rintro ⟨j, ⟨hj, hparent⟩, rfl⟩
      exact ⟨j.jobId, ⟨j, hj, rfl, hparent⟩, rfl⟩
    · rintro ⟨id, ⟨j, hj, rfl, hparent⟩, rfl⟩
      exact ⟨j, ⟨hj, hparent⟩, rfl⟩

/-! ## The walk up -/

structure Tracks (b : ClosureBounds) (kinds : List EdgeKind) (u : UpRow) : Prop where
  depth : u.depth = parentRun kinds
  hookHops : u.hookHops = kinds.count .hook
  sourceHops : u.sourceHops = kinds.count .source
  retryHops : u.retryHops = kinds.count .retry
  refused : u.refused = true → ¬ WithinBounds b kinds

theorem Tracks.hop {kinds : List EdgeKind} {u : UpRow} (h : Tracks b kinds u) (id : Uuid)
    (kind : EdgeKind) : Tracks b (kind :: kinds) (u.hop b id kind) := by
  obtain ⟨hdepth, hhook, hsource, hretry, -⟩ := h
  cases kind <;> refine ⟨?_, ?_, ?_, ?_, fun hrefused hwithin => ?_⟩
  all_goals simp [UpRow.hop, parentRun, WithinBounds, *] at *
  all_goals omega

theorem tracks_of_reaches {id : Uuid} {u : UpRow} (h : Reaches (upNext table b) (upStart id) u) :
    ∃ kinds, Path table id kinds u.jobId ∧ Tracks b kinds u := by
  refine h.invariant (fun u => ∃ kinds, Path table id kinds u.jobId ∧ Tracks b kinds u) ?_ ?_
  · intro s hs
    obtain rfl : s = { jobId := id } := by simpa [upStart] using hs
    exact ⟨[], .nil, rfl, rfl, rfl, rfl, fun hrefused => by cases hrefused⟩
  · rintro u - ⟨kinds, hpath, htracks⟩ v hv
    obtain ⟨-, kind, target, hedge, rfl⟩ := mem_upNext.mp hv
    exact ⟨kind :: kinds, by simpa using hpath.step hedge, htracks.hop target kind⟩

section Unrefused

variable {table : JobTable} {b : ClosureBounds} {id : Uuid}

theorem reaches_hop (hup : ∀ u, Reaches (upNext table b) (upStart id) u → u.refused = false)
    {u : UpRow} (hu : Reaches (upNext table b) (upStart id) u) {kind : EdgeKind} {target : Uuid}
    (hedge : IsEdge table kind u.jobId target) :
    Reaches (upNext table b) (upStart id) (u.hop b target kind) :=
  hu.tail (mem_upNext.mpr ⟨hup u hu, kind, target, hedge, rfl⟩)

theorem exists_reaches_iff_lineage
    (hup : ∀ u, Reaches (upNext table b) (upStart id) u → u.refused = false) {k : Uuid} :
    (∃ u, Reaches (upNext table b) (upStart id) u ∧ u.jobId = k) ↔ Lineage table id k := by
  constructor
  · rintro ⟨u, hu, rfl⟩
    obtain ⟨kinds, hpath, -⟩ := tracks_of_reaches hu
    exact ⟨kinds, hpath⟩
  · rintro ⟨kinds, hpath⟩
    induction hpath with
    | nil => exact ⟨{ jobId := id }, .of_mem (by simp [upStart]), rfl⟩
    | step _ hedge ih =>
      obtain ⟨u, hu, rfl⟩ := ih
      exact ⟨_, reaches_hop hup hu hedge, UpRow.hop_jobId _ _ _ _⟩

theorem exists_root (hup : ∀ u, Reaches (upNext table b) (upStart id) u → u.refused = false)
    {u : UpRow} (hu : Reaches (upNext table b) (upStart id) u)
    (hjob : ∃ j ∈ table.rows, j.jobId = u.jobId) :
    ∃ r, Reaches (upNext table b) (upStart id) r ∧ IsRoot table r.jobId ∧
      Above table u.jobId r.jobId := by
  obtain ⟨j, hj, hid⟩ := hjob
  induction hn : b.taskDepth.toNat - u.depth generalizing u j with
  | zero =>
    cases hparent : j.parentJobId with
    | none => exact ⟨u, hu, ⟨j, hj, hid, hparent⟩, .refl⟩
    | some p =>
      have hedge : IsEdge table .parent u.jobId p := ⟨j, hj, hid, hparent⟩
      have hrefused := hup _ (reaches_hop hup hu hedge)
      simp only [UpRow.hop, Bool.not_eq_eq_eq_not, Bool.not_false, decide_eq_true_eq]
        at hrefused
      omega
  | succ n ih =>
    cases hparent : j.parentJobId with
    | none => exact ⟨u, hu, ⟨j, hj, hid, hparent⟩, .refl⟩
    | some p =>
      have hedge : IsEdge table .parent u.jobId p := ⟨j, hj, hid, hparent⟩
      obtain ⟨k, hk, hkid⟩ := table.parents j hj p hparent
      obtain ⟨r, hr, hroot, habove⟩ := ih (reaches_hop hup hu hedge) k hk
        (by simpa using hkid) (by simp only [UpRow.hop]; omega)
      rw [UpRow.hop_jobId] at habove
      exact ⟨r, hr, hroot, .head hedge habove⟩

end Unrefused

/-! ## The walk down -/

theorem levelsBelow_of_reaches {start : List TreeRow}
    (hstart : ∀ t ∈ start, t.depth = 0 ∧ t.refused = false) {t : TreeRow}
    (h : Reaches (treeNext table b) start t) :
    ∃ r ∈ start, LevelsBelow table r.jobId t.depth t.jobId ∧
      (t.refused = true → b.taskDepth.toNat < t.depth) := by
  refine h.invariant (fun t => ∃ r ∈ start, LevelsBelow table r.jobId t.depth t.jobId ∧
      (t.refused = true → b.taskDepth.toNat < t.depth)) ?_ ?_
  · intro s hs
    obtain ⟨hdepth, hrefused⟩ := hstart s hs
    refine ⟨s, hs, ?_, fun h => by simp [hrefused] at h⟩
    rw [hdepth]
    exact .zero
  · rintro t - ⟨r, hr, hlevels, -⟩ v hv
    obtain ⟨-, c, hedge, rfl⟩ := mem_treeNext.mp hv
    refine ⟨r, hr, hlevels.succ hedge, fun hrefused => ?_⟩
    simp only [decide_eq_true_eq] at hrefused
    simp only
    omega

theorem above_of_levelsBelow {r k : Uuid} {n : Nat} (h : LevelsBelow table r n k) :
    Above table k r := by
  induction h with
  | zero => exact .refl
  | succ _ hedge ih => exact .head hedge ih

theorem exists_reaches_of_above {start : List TreeRow}
    (htree : ∀ t, Reaches (treeNext table b) start t → t.refused = false) {r : TreeRow}
    (hr : r ∈ start) {k : Uuid} (habove : Above table k r.jobId) :
    ∃ t, Reaches (treeNext table b) start t ∧ t.jobId = k := by
  induction habove using Relation.ReflTransGen.head_induction_on with
  | refl => exact ⟨r, .of_mem hr, rfl⟩
  | head hedge _ ih =>
    obtain ⟨t, ht, rfl⟩ := ih
    exact ⟨_, ht.tail (mem_treeNext.mpr ⟨htree t ht, _, hedge, rfl⟩), rfl⟩

theorem mem_treeStart {upCapped : List UpRow} {t : TreeRow} :
    t ∈ treeStart table upCapped ↔
      ∃ u ∈ upCapped, u.refused = false ∧ IsRoot table u.jobId ∧ t = { jobId := u.jobId } := by
  simp only [treeStart, List.mem_map, List.mem_dedup, List.mem_filterMap, List.mem_filter,
    Bool.not_eq_eq_eq_not, Bool.not_true, Option.filter_eq_some_iff, JobTable.get_eq_some_iff]
  constructor
  · rintro ⟨_, ⟨j, ⟨u, ⟨hu, hrefused⟩, ⟨hj, hid⟩, hroot⟩, rfl⟩, rfl⟩
    exact ⟨u, hu, hrefused, ⟨j, hj, hid, by simpa using hroot⟩, by rw [hid]⟩
  · rintro ⟨u, hu, hrefused, ⟨j, hj, hid, hroot⟩, rfl⟩
    exact ⟨_, ⟨j, ⟨u, ⟨hu, hrefused⟩, ⟨hj, hid⟩, by simp [hroot]⟩, rfl⟩, by rw [hid]⟩

theorem treeStart_fresh {upCapped : List UpRow} :
    ∀ t ∈ treeStart table upCapped, t.depth = 0 ∧ t.refused = false := by
  intro t ht
  obtain ⟨u, -, -, -, rfl⟩ := mem_treeStart.mp ht
  exact ⟨rfl, rfl⟩

/-! ## Trees -/

theorem isEdge_parent_unique : Relator.RightUnique (IsEdge table .parent) := by
  rintro a p q ⟨j, hj, hid, hp⟩ ⟨k, hk, hkid, hq⟩
  obtain rfl := table.keyed.eq_of_key hj hk (hid.trans hkid.symm)
  exact Option.some.inj (hp.symm.trans hq)

theorem Above.eq_of_isRoot {r a : Uuid} (hroot : IsRoot table r) (h : Above table r a) :
    a = r := by
  rcases Relation.ReflTransGen.cases_head h with rfl | ⟨p, ⟨j, hj, hid, hparent⟩, -⟩
  · rfl
  · obtain ⟨k, hk, hkid, hnone⟩ := hroot
    obtain rfl := table.keyed.eq_of_key hj hk (hid.trans hkid.symm)
    simp [EdgeKind.targetOf, hnone] at hparent

theorem SameTree.above_root {j k r : Uuid} (h : SameTree table j k) (hroot : IsRoot table r)
    (hr : Above table j r) : Above table k r := by
  obtain ⟨a, hja, hka⟩ := h
  rcases Relation.ReflTransGen.total_of_right_unique isEdge_parent_unique hja hr with har | hra
  · exact hka.trans har
  · exact Above.eq_of_isRoot hroot hra ▸ hka

/-! ## The answer of the query -/

section Answer

variable {table : JobTable} {b : ClosureBounds} {id : Uuid}

structure Unrefused (table : JobTable) (b : ClosureBounds) (id : Uuid) : Prop where
  upLength : ((upCapped table b id).length : Int) ≤ b.maxJobs
  treeLength : ((treeCapped table b id).length : Int) ≤ b.maxJobs
  up : ∀ u ∈ upCapped table b id, u.refused = false
  tree : ∀ t ∈ treeCapped table b id, t.refused = false

theorem unrefused_of_not_isTruncated
    (h : isTruncated table b id = false) : Unrefused table b id := by
  simp only [isTruncated, Bool.or_eq_false_iff, decide_eq_false_iff_not, List.any_eq_false,
    Int.not_lt] at h
  obtain ⟨⟨⟨hup, htree⟩, hupLength⟩, htreeLength⟩ := h
  exact ⟨hupLength, htreeLength, by simpa using hup, by simpa using htree⟩

namespace Unrefused

theorem mem_upCapped (h : Unrefused table b id) {u : UpRow} :
    u ∈ upCapped table b id ↔ Reaches (upNext table b) (upStart id) u := by
  have hlen := h.upLength
  refine mem_firstRows_iff ?_
  unfold upCapped at hlen
  omega

theorem mem_treeCapped (h : Unrefused table b id) {t : TreeRow} :
    t ∈ treeCapped table b id ↔
      Reaches (treeNext table b) (treeStart table (upCapped table b id)) t := by
  have hlen := h.treeLength
  refine mem_firstRows_iff ?_
  unfold treeCapped at hlen
  omega

theorem reaches_up (h : Unrefused table b id) :
    ∀ u, Reaches (upNext table b) (upStart id) u → u.refused = false :=
  fun u hu => h.up u (h.mem_upCapped.mpr hu)

theorem mem_treeStart_iff (h : Unrefused table b id) {t : TreeRow} :
    t ∈ treeStart table (upCapped table b id) ↔
      Lineage table id t.jobId ∧ IsRoot table t.jobId ∧ t = { jobId := t.jobId } := by
  rw [mem_treeStart]
  constructor
  · rintro ⟨u, hu, -, hroot, rfl⟩
    exact ⟨(exists_reaches_iff_lineage h.reaches_up).mp ⟨u, h.mem_upCapped.mp hu, rfl⟩, hroot, rfl⟩
  · rintro ⟨hlineage, hroot, heq⟩
    obtain ⟨u, hu, hid⟩ := (exists_reaches_iff_lineage h.reaches_up).mpr hlineage
    exact ⟨u, h.mem_upCapped.mpr hu, h.reaches_up u hu, hid ▸ hroot, hid ▸ heq⟩

theorem mem_closureIds_iff (h : Unrefused table b id) {k : Uuid} :
    k ∈ closureIds table b id ↔
      Lineage table id k ∨ ∃ r, Lineage table id r ∧ IsRoot table r ∧ Above table k r := by
  simp only [closureIds, List.mem_dedup, List.mem_append, List.mem_map, List.mem_filter,
    Bool.not_eq_eq_eq_not, Bool.not_true]
  refine or_congr ?_ ?_
  · rw [← exists_reaches_iff_lineage h.reaches_up]
    constructor
    · rintro ⟨u, ⟨hu, -⟩, rfl⟩
      exact ⟨u, h.mem_upCapped.mp hu, rfl⟩
    · rintro ⟨u, hu, rfl⟩
      exact ⟨u, ⟨h.mem_upCapped.mpr hu, h.reaches_up u hu⟩, rfl⟩
  · constructor
    · rintro ⟨t, ⟨ht, -⟩, rfl⟩
      obtain ⟨r, hr, hlevels, -⟩ := levelsBelow_of_reaches treeStart_fresh (h.mem_treeCapped.mp ht)
      obtain ⟨hlineage, hroot, -⟩ := h.mem_treeStart_iff.mp hr
      exact ⟨r.jobId, hlineage, hroot, above_of_levelsBelow hlevels⟩
    · rintro ⟨r, hlineage, hroot, habove⟩
      have hr : ({ jobId := r } : TreeRow) ∈ treeStart table (upCapped table b id) :=
        h.mem_treeStart_iff.mpr ⟨hlineage, hroot, rfl⟩
      have htree := fun t ht => h.tree t (h.mem_treeCapped.mpr ht)
      obtain ⟨t, ht, rfl⟩ := exists_reaches_of_above htree hr habove
      exact ⟨t, ⟨h.mem_treeCapped.mpr ht, htree t ht⟩, rfl⟩

theorem mem_closureIds (h : Unrefused table b id) {k : ClosureJob} (hk : k ∈ table.rows) :
    k.jobId ∈ closureIds table b id ↔
      ∃ j ∈ table.rows, Lineage table id j.jobId ∧ SameTree table j.jobId k.jobId := by
  rw [h.mem_closureIds_iff]
  constructor
  · rintro (hlineage | ⟨r, hlineage, ⟨j, hj, rfl, -⟩, habove⟩)
    · exact ⟨k, hk, hlineage, k.jobId, .refl, .refl⟩
    · exact ⟨j, hj, hlineage, j.jobId, .refl, habove⟩
  · rintro ⟨j, hj, hlineage, htree⟩
    obtain ⟨u, hu, hid⟩ := (exists_reaches_iff_lineage h.reaches_up).mpr hlineage
    obtain ⟨r, hr, hroot, habove⟩ := exists_root h.reaches_up hu ⟨j, hj, hid.symm⟩
    refine .inr ⟨r.jobId, ?_, hroot, htree.above_root hroot (hid ▸ habove)⟩
    exact (exists_reaches_iff_lineage h.reaches_up).mp ⟨r, hr, rfl⟩

theorem mem_closurePinRows (h : Unrefused table b id) (collate : String → String → Ordering)
    {p : ClosurePinRow} :
    p ∈ closurePinRows collate table b id ↔ ReachablePin table id p := by
  simp only [closurePinRows, List.mem_insertionSort, List.mem_dedup, List.mem_flatMap,
    List.mem_filter, List.contains_iff_mem]
  constructor
  · rintro ⟨k, ⟨hk, hid⟩, hp⟩
    obtain ⟨j, hj, hlineage, htree⟩ := (h.mem_closureIds hk).mp hid
    exact ⟨j, hj, k, hk, hlineage, htree, hp⟩
  · rintro ⟨j, hj, k, hk, hlineage, htree, hp⟩
    exact ⟨k, ⟨hk, (h.mem_closureIds hk).mpr ⟨j, hj, hlineage, htree⟩⟩, hp⟩

end Unrefused

theorem nodup_closurePinRows (collate : String → String → Ordering) :
    (closurePinRows collate table b id).Nodup :=
  (List.perm_insertionSort _ _).nodup_iff.mpr (List.nodup_dedup _)

theorem redactionClosurePins_eq (collate : String → String → Ordering)
    (hlimit : legalLimit b = true) :
    redactionClosurePins collate table b id =
      .ok (if isTruncated table b id then .truncated
        else .pins (closurePinRows collate table b id)) := by
  unfold redactionClosurePins queryRows
  rw [if_pos hlimit]
  cases htrunc : isTruncated table b id with
  | true => rfl
  | false =>
    cases hpins : closurePinRows collate table b id with
    | nil => rfl
    | cons p pins => simp [List.filterMap_map]

theorem not_isTruncated (hpaths : PathsWithin table b id) (hwalks : WalksWithin table b id) :
    isTruncated table b id = false := by
  obtain ⟨max, hmax, hupWithin, htreeWithin⟩ := hwalks
  have hupLength : (upCapped table b id).length ≤ max := length_firstRows_le hupWithin
  have htreeLength : (treeCapped table b id).length ≤ max := length_firstRows_le htreeWithin
  have hup : ∀ u, Reaches (upNext table b) (upStart id) u → u.refused = false := by
    intro u hu
    obtain ⟨kinds, hpath, htracks⟩ := tracks_of_reaches hu
    by_contra hrefused
    exact htracks.refused (by simpa using hrefused) (hpaths.1 kinds u.jobId hpath)
  have htree : ∀ t ∈ treeCapped table b id, t.refused = false := by
    intro t ht
    obtain ⟨r, hr, hlevels, hrefused⟩ :=
      levelsBelow_of_reaches treeStart_fresh (reaches_of_mem_rounds (List.mem_of_mem_take ht))
    obtain ⟨u, hu, -, hroot, rfl⟩ := mem_treeStart.mp hr
    have hreach := reaches_of_mem_rounds (List.mem_of_mem_take hu)
    have hlineage := (exists_reaches_iff_lineage hup).mp ⟨u, hreach, rfl⟩
    have hle := hpaths.2 u.jobId hlineage hroot t.depth t.jobId hlevels
    by_contra h
    have hlt := hrefused (by simpa using h)
    omega
  simp only [isTruncated, Bool.or_eq_false_iff, decide_eq_false_iff_not, List.any_eq_false,
    Int.not_lt]
  refine ⟨⟨⟨fun u hu => ?_, fun t ht => by simp [htree t ht]⟩, by omega⟩, by omega⟩
  simp [hup u (reaches_of_mem_rounds (List.mem_of_mem_take hu))]

end Answer

def IsComplete (table : JobTable) (id : Uuid) (pins : List ClosurePinRow) : Prop :=
  pins.Nodup ∧ ∀ p, p ∈ pins ↔ ReachablePin table id p

/--
Without a legal limit the statement is refused; otherwise the answer is `Truncated` or complete,
and not `Truncated` if no path exceeds a bound and the walks have `max_jobs` rows at most.
-/
theorem redaction_closure_complete_or_refused (collate : String → String → Ordering)
    (table : JobTable) (b : ClosureBounds) (id : Uuid) :
    (legalLimit b = false ∧ ∃ e, redactionClosurePins collate table b id = .error e) ∨
      ∃ answer, redactionClosurePins collate table b id = .ok answer ∧
        (answer = .truncated ∨ ∃ pins, answer = .pins pins ∧ IsComplete table id pins) ∧
        (PathsWithin table b id → WalksWithin table b id → answer ≠ .truncated) := by
  cases hlimit : legalLimit b with
  | false => exact .inl ⟨rfl, _, by simp [redactionClosurePins, hlimit]; rfl⟩
  | true =>
    refine .inr ⟨_, redactionClosurePins_eq collate hlimit, ?_, ?_⟩
    · cases htrunc : isTruncated table b id with
      | true => exact .inl rfl
      | false =>
        have h := unrefused_of_not_isTruncated htrunc
        exact .inr ⟨_, rfl, nodup_closurePinRows collate, fun p => h.mem_closurePinRows collate⟩
    · intro hpaths hwalks
      rw [not_isTruncated hpaths hwalks]
      simp

def hookOfChild : JobTable where
  rows :=
    [{ jobId := 1, workspace := "main", gitRef := some "v1", revision := some "c1" },
      { jobId := 2, parentJobId := some 1, sourceType := .task },
      { jobId := 3, sourceType := .hook,
        sourceId := some "00000000-0000-0000-0000-000000000002/notify" }]
  keyed := by
    unfold Keyed
    decide
  parents := by decide

private theorem isEdge_hookOfChild {kind : EdgeKind} {a b : Uuid}
    (h : IsEdge hookOfChild kind a b) :
    kind = .parent ∧ a = 2 ∧ b = 1 ∨ kind = .hook ∧ a = 3 ∧ b = 2 := by
  obtain ⟨j, hj, rfl, htarget⟩ := h
  have hprefix : uuidPrefix "00000000-0000-0000-0000-000000000002/notify" = some 2 := by
    decide +kernel
  simp only [hookOfChild, List.mem_cons, List.not_mem_nil, or_false] at hj
  rcases hj with rfl | rfl | rfl <;> cases kind <;>
    simp_all [EdgeKind.targetOf, sourceOf]

private theorem path_hookOfChild {kinds : List EdgeKind} {k : Uuid}
    (h : Path hookOfChild 3 kinds k) :
    kinds = [] ∧ k = 3 ∨ kinds = [.hook] ∧ k = 2 ∨ kinds = [.parent, .hook] ∧ k = 1 := by
  induction h with
  | nil => exact .inl ⟨rfl, rfl⟩
  | step _ hedge ih =>
    rcases isEdge_hookOfChild hedge with ⟨rfl, rfl, rfl⟩ | ⟨rfl, rfl, rfl⟩ <;> simp_all

private theorem levelsBelow_hookOfChild {r k : Uuid} {n : Nat}
    (h : LevelsBelow hookOfChild r n k) : n = 0 ∨ n = 1 ∧ k = 2 := by
  induction h with
  | zero => exact .inl rfl
  | succ _ hedge ih =>
    rcases isEdge_hookOfChild hedge with ⟨-, rfl, rfl⟩ | ⟨hkind, -⟩
    · rcases ih with rfl | ⟨-, hk⟩
      · exact .inr ⟨rfl, rfl⟩
      · simp at hk
    · simp at hkind

def threeJobs : ClosureBounds :=
  { closureBounds with maxJobs := 3 }

theorem redaction_closure_hookOfChild :
    PathsWithin hookOfChild threeJobs 3 ∧ WalksWithin hookOfChild threeJobs 3 ∧
      ∃ pins, redactionClosurePins compare hookOfChild threeJobs 3 = .ok (.pins pins) ∧
        IsComplete hookOfChild 3 pins := by
  have hpaths : PathsWithin hookOfChild threeJobs 3 := by
    refine ⟨fun kinds k h => ?_, fun r _ _ n k h => ?_⟩
    · rcases path_hookOfChild h with ⟨rfl, -⟩ | ⟨rfl, -⟩ | ⟨rfl, -⟩ <;>
        · unfold WithinBounds
          decide
    · rcases levelsBelow_hookOfChild h with rfl | ⟨rfl, -⟩ <;> decide
  have hwalks : WalksWithin hookOfChild threeJobs 3 := by
    refine ⟨3, by decide, ?_, ?_⟩
    · exact rowsWithin_of_working_eq_nil (k := 3) (by decide +kernel)
    · exact rowsWithin_of_working_eq_nil (k := 2) (by decide +kernel)
  refine ⟨hpaths, hwalks, ?_⟩
  rcases redaction_closure_complete_or_refused compare hookOfChild threeJobs 3 with
    ⟨hlimit, -⟩ | ⟨answer, hanswer, hcomplete, hreturns⟩
  · exact absurd hlimit (by decide)
  · rcases hcomplete with htrunc | ⟨pins, rfl, hpins⟩
    · exact absurd htrunc (hreturns hpaths hwalks)
    · exact ⟨pins, hanswer, hpins⟩

/-! ## The pins of a response -/

theorem samePin_refl (p : ClosurePinRow) : samePin p p = true := by
  simp [samePin]

theorem any_foldl_pushPin {p : ClosurePinRow} (rows : List ClosurePinRow)
    {pins : List ClosurePinRow}
    (h : p ∈ rows ∨ pins.any (samePin p) = true) :
    (rows.foldl pushPin pins).any (samePin p) = true := by
  induction rows generalizing pins with
  | nil => simpa using h
  | cons row rows ih =>
    refine ih ?_
    rcases h with h | h
    · rcases List.mem_cons.mp h with rfl | h
      · refine .inr ?_
        unfold pushPin
        split
        case isTrue hany => exact hany
        case isFalse => simp [samePin_refl]
      · exact .inl h
    · refine .inr ?_
      unfold pushPin
      split
      · exact h
      · rw [List.any_append, h, Bool.true_or]

theorem anyPinnedRows_of_mem_pinsOf {k : ClosureJob} (hk : k ∈ table.rows) {p : ClosurePinRow}
    (hp : p ∈ pinsOf k) : anyPinnedRows table = true := by
  refine List.any_eq_true.mpr ⟨k, hk, ?_⟩
  simp only [pinsOf, List.mem_append, List.mem_filterMap, Option.mem_toList] at hp
  rcases hp with (hp | ⟨s, hs, hp⟩) | ⟨s, hs, hp⟩
  · cases href : k.gitRef with
    | none => simp [jobPin, href] at hp
    | some ref => rfl
  · rw [Bool.or_eq_true]
    refine .inr (List.any_eq_true.mpr ⟨s, hs, ?_⟩)
    cases href : s.actionRef with
    | none => simp [actionPin, href] at hp
    | some ref => rfl
  · rw [Bool.or_eq_true]
    refine .inr (List.any_eq_true.mpr ⟨s, hs, ?_⟩)
    cases href : s.taskRef with
    | none => simp [taskPin, href] at hp
    | some ref => simp

theorem closurePins_covers {collate : String → String → Ordering} {table : JobTable}
    {j : ClosureJob} {pins : List ClosurePinRow} (h : closurePins collate table j = .ok pins)
    {p : ClosurePinRow} (hp : ReachablePin table j.jobId p) : pins.any (samePin p) = true := by
  obtain ⟨i, hi, k, hk, hlineage, htree, hmem⟩ := hp
  have hlimit : legalLimit closureBounds = true := by decide
  rw [closurePins, if_pos (anyPinnedRows_of_mem_pinsOf hk hmem),
    redactionClosurePins_eq collate hlimit] at h
  cases htrunc : isTruncated table closureBounds j.jobId with
  | true => simp [htrunc] at h
  | false =>
    simp only [htrunc, Bool.false_eq_true, if_false, Except.ok.injEq] at h
    rw [← h]
    refine any_foldl_pushPin _ (.inl ?_)
    exact ((unrefused_of_not_isTruncated htrunc).mem_closurePinRows collate).mpr
      ⟨i, hi, k, hk, hlineage, htree, hmem⟩

theorem closurePins_covers_hookOfChild :
    ∃ j pins, closurePins compare hookOfChild j = .ok pins ∧ j.jobId = 3 ∧
      pins.any (samePin ⟨"main", "v1", "c1"⟩) = true := by
  let hook : ClosureJob :=
    { jobId := 3, sourceType := .hook,
      sourceId := some "00000000-0000-0000-0000-000000000002/notify" }
  let child : ClosureJob := { jobId := 2, parentJobId := some 1, sourceType := .task }
  have hprefix : uuidPrefix "00000000-0000-0000-0000-000000000002/notify" = some 2 := by
    decide +kernel
  have hlineage : Lineage hookOfChild 3 1 := by
    refine ⟨[.parent, .hook], .step (.step .nil ⟨hook, ?_, rfl, hprefix⟩) ⟨child, ?_, rfl, rfl⟩⟩
    · exact List.mem_of_getElem? (show hookOfChild.rows[2]? = some _ from rfl)
    · exact List.mem_of_getElem? (show hookOfChild.rows[1]? = some _ from rfl)
  have hpinned : ReachablePin hookOfChild 3 ⟨"main", "v1", "c1"⟩ :=
    ⟨_, List.mem_cons_self, _, List.mem_cons_self, hlineage, ⟨1, .refl, .refl⟩, by decide⟩
  -- the walks end after a few rounds, well before the limit of the query
  have hup : upCapped hookOfChild closureBounds 3 =
      rounds (upNext hookOfChild closureBounds) 3 (upStart 3) :=
    firstRows_eq_rounds (by decide +kernel) (by decide) (by decide +kernel)
  have htree : treeCapped hookOfChild closureBounds 3 =
      rounds (treeNext hookOfChild closureBounds) 2
        (treeStart hookOfChild (rounds (upNext hookOfChild closureBounds) 3 (upStart 3))) := by
    rw [treeCapped, hup]
    exact firstRows_eq_rounds (by decide +kernel) (by decide) (by decide +kernel)
  have htrunc : isTruncated hookOfChild closureBounds hook.jobId = false := by
    change isTruncated hookOfChild closureBounds 3 = false
    rw [isTruncated, hup, htree]
    decide +kernel
  have hanswer : ∃ pins, closurePins compare hookOfChild hook = .ok pins := by
    rw [closurePins, if_pos (by decide), redactionClosurePins_eq compare (by decide), htrunc]
    exact ⟨_, rfl⟩
  obtain ⟨pins, hpins⟩ := hanswer
  exact ⟨hook, pins, hpins, rfl, closurePins_covers hpins hpinned⟩

end Stroem.Redaction
