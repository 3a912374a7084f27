import Mathlib.Data.Fintype.Card
import Mathlib.Data.List.Basic
import Mathlib.Data.List.Count
import Mathlib.Data.List.Nodup
import Mathlib.Data.List.Perm.Subperm
import Mathlib.Data.Set.Finite.Basic
import Mathlib.Logic.Function.Basic
import Mathlib.Logic.Relation
import Mathlib.Tactic.Common

/-!
# Kahn's algorithm

A topological sort of `nodes` under `deps`, with a queue of the nodes all of whose dependencies
are sorted and a count, for every node, of the dependency edges still open.  When the sort
covers every node, the position in it ranks each node above its dependencies; it covers every
node exactly when the dependencies have no cycle.
-/

namespace Stroem.Foundation.Kahn

variable {α : Type*} [DecidableEq α]

def dependents (nodes : List α) (deps : α → List α) (x : α) : List α :=
  nodes.flatMap fun s => ((deps s).filter (· = x)).map fun _ => s

def relax : (α → Nat) → List α → List α → (α → Nat) × List α
  | degree, queue, [] => (degree, queue)
  | degree, queue, s :: rest =>
    relax (Function.update degree s (degree s - 1))
      (if degree s - 1 = 0 then queue ++ [s] else queue) rest

def loop (nodes : List α) (deps : α → List α) :
    Nat → (α → Nat) → List α → List α → Option (List α)
  | 0, _, _, _ => none
  | _ + 1, _, [], result => some result
  | fuel + 1, degree, x :: queue, result =>
    let relaxed := relax degree queue (dependents nodes deps x)
    loop nodes deps fuel relaxed.1 relaxed.2 (result ++ [x])

def sort (nodes : List α) (deps : α → List α) (order : List α) : Option (List α) :=
  loop nodes deps (nodes.length + 1) (fun s => (deps s).length)
    (order.filter fun s => (deps s).length = 0) []

/-! ## One round -/

variable {degree : α → Nat}

theorem relax_spec (queue : List α) {listed : List α} (hcount : ∀ s, listed.count s ≤ degree s) :
    (∀ s, (relax degree queue listed).1 s = degree s - listed.count s) ∧
    (∀ s, s ∈ (relax degree queue listed).2 ↔
      s ∈ queue ∨ s ∈ listed ∧ degree s = listed.count s) ∧
    (queue.Nodup → (∀ s ∈ queue, s ∉ listed) → (relax degree queue listed).2.Nodup) := by
  induction listed generalizing degree queue with
  | nil => simp [relax]
  | cons x rest ih =>
    have hx := hcount x
    rw [List.count_cons_self] at hx
    have hcount' : ∀ s, rest.count s ≤ Function.update degree x (degree x - 1) s := by
      intro s
      by_cases hs : s = x
      · subst hs
        rw [Function.update_self]
        omega
      · rw [Function.update_of_ne hs]
        have := hcount s
        rwa [List.count_cons_of_ne (Ne.symm hs)] at this
    obtain ⟨hdegree, hmem, hnodup⟩ := ih (if degree x - 1 = 0 then queue ++ [x] else queue) hcount'
    refine ⟨fun s => ?_, fun s => ?_, fun hq hdisj => ?_⟩
    · rw [relax, hdegree]
      by_cases hs : s = x
      · subst hs
        rw [Function.update_self, List.count_cons_self]
        omega
      · rw [Function.update_of_ne hs, List.count_cons_of_ne (Ne.symm hs)]
    · rw [relax, hmem]
      by_cases hs : s = x
      · subst hs
        rw [Function.update_self, List.count_cons_self]
        by_cases hzero : degree s - 1 = 0
        · have hrest : rest.count s = 0 := by omega
          have : s ∉ rest := List.count_eq_zero.mp hrest
          simp [hzero, this]
          right
          omega
        · have hiff : s ∈ rest ∧ degree s - 1 = rest.count s ↔ degree s = rest.count s + 1 := by
            constructor
            · rintro ⟨-, heq⟩
              omega
            · intro heq
              refine ⟨List.count_pos_iff.mp (by omega), by omega⟩
          simp [hzero, hiff]
      · rw [Function.update_of_ne hs, List.count_cons_of_ne (Ne.symm hs)]
        have hq : s ∈ (if degree x - 1 = 0 then queue ++ [x] else queue) ↔ s ∈ queue := by
          split <;> simp [hs]
        simp [hq, hs]
    · rw [relax]
      have hxq : x ∉ queue := fun h => hdisj x h List.mem_cons_self
      apply hnodup
      · split
        · exact List.nodup_append.mpr ⟨hq, List.nodup_singleton x, by
            rintro a ha b hb rfl
            exact hxq (List.mem_singleton.mp hb ▸ ha)⟩
        · exact hq
      · intro s hs hrest
        split at hs
        case isTrue hzero =>
          rcases List.mem_append.mp hs with hs | hs
          · exact hdisj s hs (List.mem_cons_of_mem _ hrest)
          · obtain rfl := List.mem_singleton.mp hs
            have := List.count_pos_iff.mpr hrest
            omega
        case isFalse => exact hdisj s hs (List.mem_cons_of_mem _ hrest)

theorem count_dependents {nodes : List α} {deps : α → List α} (hnodes : nodes.Nodup)
    (x s : α) :
    (dependents nodes deps x).count s = if s ∈ nodes then (deps s).count x else 0 := by
  have hblock : ∀ t, (((deps t).filter (· = x)).map fun _ => t).count s =
      if t = s then (deps t).count x else 0 := by
    intro t
    rw [List.map_const', List.count_replicate]
    by_cases ht : t = s
    · simp [ht, List.count_eq_length_filter]
      rfl
    · simp [ht]
  induction nodes with
  | nil => simp [dependents]
  | cons t nodes ih =>
    obtain ⟨hnot, hnodes⟩ := List.nodup_cons.mp hnodes
    have hrec := ih hnodes
    unfold dependents at hrec ⊢
    rw [List.flatMap_cons, List.count_append, hblock, hrec]
    by_cases ht : t = s
    · subst ht
      simp [hnot]
    · simp [ht, Ne.symm ht]

/-! ## The loop -/

def Sorted (deps : α → List α) (result : List α) : Prop :=
  ∀ before x after, result = before ++ x :: after → ∀ d ∈ deps x, d ∈ before

structure Inv (nodes : List α) (deps : α → List α) (degree : α → Nat)
    (queue result : List α) : Prop where
  degree_eq : ∀ s ∈ nodes, degree s = (deps s).countP fun d => decide (d ∉ result)
  nodup : (result ++ queue).Nodup
  mem_iff : ∀ s, s ∈ result ++ queue ↔ s ∈ nodes ∧ degree s = 0
  sorted : Sorted deps result

variable {result : List α}

private theorem countP_notMem_append {l : List α} {x : α} (hx : x ∉ result) :
    l.countP (fun d => decide (d ∉ result)) =
      l.countP (fun d => decide (d ∉ result ++ [x])) + l.count x := by
  induction l with
  | nil => rfl
  | cons d l ih =>
    by_cases hd : d = x
    · subst hd
      rw [List.countP_cons_of_pos (by simpa using hx), List.countP_cons_of_neg (by simp),
        List.count_cons_self, ih]
      omega
    · simp only [List.countP_cons, ih, List.count_cons_of_ne hd, List.mem_append,
        List.mem_singleton, hd, or_false]
      omega

variable {nodes : List α} {deps : α → List α}

theorem Inv.count_le {queue : List α} {x : α} (hnodes : nodes.Nodup)
    (h : Inv nodes deps degree (x :: queue) result) (s : α) :
    (dependents nodes deps x).count s ≤ degree s := by
  have hx : x ∉ result := by
    have := h.nodup
    rw [List.nodup_append] at this
    exact fun hr => this.2.2 x hr x List.mem_cons_self rfl
  rw [count_dependents hnodes]
  split
  case isTrue hs =>
    rw [h.degree_eq s hs, countP_notMem_append hx]
    omega
  case isFalse => omega

theorem Inv.next {queue : List α} {x : α} (hnodes : nodes.Nodup)
    (h : Inv nodes deps degree (x :: queue) result) :
    Inv nodes deps (relax degree queue (dependents nodes deps x)).1
      (relax degree queue (dependents nodes deps x)).2 (result ++ [x]) := by
  have hcount := h.count_le hnodes
  obtain ⟨hdegree, hmem, hqueue⟩ := relax_spec queue hcount
  obtain ⟨hresult, hxqueue, hdisj⟩ := List.nodup_append.mp h.nodup
  obtain ⟨hxq, hq⟩ := List.nodup_cons.mp hxqueue
  have hx : x ∉ result := fun hr => hdisj x hr x List.mem_cons_self rfl
  -- a node that is queued or sorted has no edge left to close
  have hclosed : ∀ s ∈ result ++ x :: queue, degree s = 0 ∧ s ∉ dependents nodes deps x := by
    intro s hs
    have hzero := ((h.mem_iff s).mp hs).2
    refine ⟨hzero, fun hdep => ?_⟩
    have := List.count_pos_iff.mpr hdep
    have := hcount s
    omega
  refine ⟨fun s hs => ?_, ?_, fun s => ?_, ?_⟩
  · rw [hdegree, count_dependents hnodes, if_pos hs, h.degree_eq s hs, countP_notMem_append hx]
    omega
  · rw [List.nodup_append]
    refine ⟨?_, hqueue hq fun s hs => (hclosed s (by simp [hs])).2, ?_⟩
    · rw [List.nodup_append]
      refine ⟨hresult, List.nodup_singleton x, ?_⟩
      rintro a ha b hb rfl
      exact hx (List.mem_singleton.mp hb ▸ ha)
    · rintro a ha b hb rfl
      rcases (hmem a).mp hb with hbq | ⟨hdep, -⟩
      · rcases List.mem_append.mp ha with ha | ha
        · exact hdisj a ha a (List.mem_cons_of_mem _ hbq) rfl
        · exact hxq (List.mem_singleton.mp ha ▸ hbq)
      · refine (hclosed a ?_).2 hdep
        rcases List.mem_append.mp ha with ha | ha
        · exact List.mem_append_left _ ha
        · rw [List.mem_singleton.mp ha]
          simp
  · rw [List.append_assoc, List.mem_append, List.mem_append, hmem, hdegree]
    have hiff := h.mem_iff s
    rw [List.mem_append, List.mem_cons] at hiff
    constructor
    · rintro (hs | hs | hs | ⟨hdep, heq⟩)
      · obtain ⟨hn, hz⟩ := hiff.mp (.inl hs)
        exact ⟨hn, by omega⟩
      · obtain ⟨hn, hz⟩ := hiff.mp (.inr (.inl (List.mem_singleton.mp hs)))
        exact ⟨hn, by omega⟩
      · obtain ⟨hn, hz⟩ := hiff.mp (.inr (.inr hs))
        exact ⟨hn, by omega⟩
      · refine ⟨?_, by omega⟩
        obtain ⟨t, ht, hst⟩ := List.mem_flatMap.mp hdep
        obtain ⟨d, -, rfl⟩ := List.mem_map.mp hst
        exact ht
    · rintro ⟨hn, hz⟩
      have hle := hcount s
      by_cases hdep : s ∈ dependents nodes deps x
      · exact .inr (.inr (.inr ⟨hdep, by omega⟩))
      · have hzero : (dependents nodes deps x).count s = 0 := List.count_eq_zero.mpr hdep
        rcases hiff.mpr ⟨hn, by omega⟩ with hs | hs | hs
        · exact .inl hs
        · exact .inr (.inl (List.mem_singleton.mpr hs))
        · exact .inr (.inr (.inl hs))
  · intro before y after heq d hd
    rcases List.append_eq_append_iff.mp heq with ⟨mid, rfl, hmid⟩ | ⟨mid, rfl, hmid⟩
    · -- `y` is the node just sorted, and its degree is zero
      cases mid with
      | nil =>
        obtain ⟨rfl, -⟩ := List.cons.inj hmid
        obtain ⟨hn, hz⟩ := (h.mem_iff x).mp (by simp)
        rw [h.degree_eq x hn, List.countP_eq_zero] at hz
        simpa using hz d hd
      | cons z mid => simp at hmid
    · cases mid with
      | nil =>
        obtain ⟨rfl, -⟩ := List.cons.inj hmid
        obtain ⟨hn, hz⟩ := (h.mem_iff y).mp (by simp)
        rw [h.degree_eq y hn, List.countP_eq_zero] at hz
        simpa using hz d hd
      | cons z mid =>
        obtain ⟨rfl, -⟩ := List.cons.inj hmid
        exact h.sorted before y mid rfl d hd

theorem Inv.result_subset {queue : List α} (h : Inv nodes deps degree queue result) :
    result ⊆ nodes :=
  fun s hs => ((h.mem_iff s).mp (List.mem_append_left _ hs)).1

theorem loop_ends {fuel : Nat} {queue : List α} (hnodes : nodes.Nodup)
    (h : Inv nodes deps degree queue result) (hfuel : nodes.length < fuel + result.length) :
    ∃ out last, loop nodes deps fuel degree queue result = some out ∧
      Inv nodes deps last [] out := by
  induction fuel generalizing degree queue result with
  | zero =>
    have hresult : result.Nodup := (List.nodup_append.mp h.nodup).1
    have hle := (List.subperm_of_subset hresult h.result_subset).length_le
    omega
  | succ fuel ih =>
    cases queue with
    | nil => exact ⟨result, degree, rfl, h⟩
    | cons x queue =>
      rw [loop]
      refine ih (h.next hnodes) ?_
      rw [List.length_append, List.length_singleton]
      omega

theorem Inv.waits (h : Inv nodes deps degree [] result) {s : α} (hs : s ∈ nodes)
    (hnot : s ∉ result) : ∃ d ∈ deps s, d ∉ result := by
  have hpos : degree s ≠ 0 := fun hzero =>
    hnot (by simpa using (h.mem_iff s).mpr ⟨hs, hzero⟩)
  rw [h.degree_eq s hs] at hpos
  obtain ⟨d, hd, hopen⟩ := List.countP_pos_iff.mp (Nat.pos_of_ne_zero hpos)
  exact ⟨d, hd, by simpa using hopen⟩

variable (deps) in
theorem sort_ends {order : List α} (hnodes : nodes.Nodup) (horder : order.Perm nodes) :
    ∃ out last, sort nodes deps order = some out ∧ Inv nodes deps last [] out := by
  refine loop_ends hnodes ⟨fun s _ => by simp, ?_, fun s => ?_, ?_⟩ (by simp)
  · rw [List.nil_append]
    exact List.Nodup.sublist List.filter_sublist (horder.nodup_iff.mpr hnodes)
  · simp [horder.mem_iff]
  · intro before x after heq
    simp at heq

section Sorted

variable {order out : List α} (hnodes : nodes.Nodup) (horder : order.Perm nodes)
  (hout : sort nodes deps order = some out)

include hnodes horder hout

theorem sort_inv : ∃ last, Inv nodes deps last [] out := by
  obtain ⟨out', last, hout', h⟩ := sort_ends deps hnodes horder
  obtain rfl : out' = out := Option.some.inj (hout'.symm.trans hout)
  exact ⟨last, h⟩

theorem sort_sorted : Sorted deps out := by
  obtain ⟨last, h⟩ := sort_inv hnodes horder hout
  exact h.sorted

theorem sort_perm (hlen : out.length = nodes.length) : out.Perm nodes := by
  obtain ⟨last, h⟩ := sort_inv hnodes horder hout
  have hnodup : out.Nodup := by simpa using h.nodup
  exact (List.subperm_of_subset hnodup h.result_subset).perm_of_length_le (by omega)

theorem sort_rank (hlen : out.length = nodes.length) :
    ∀ s ∈ nodes, ∀ d ∈ deps s, d ∈ nodes ∧ out.idxOf d < out.idxOf s := by
  have hperm := sort_perm hnodes horder hout hlen
  intro s hs d hd
  obtain ⟨before, after, rfl⟩ := List.append_of_mem (hperm.mem_iff.mpr hs)
  have hbefore := sort_sorted hnodes horder hout before s after rfl d hd
  refine ⟨hperm.subset (List.mem_append_left _ hbefore), ?_⟩
  have hsnot : s ∉ before := by
    have hnodup := hperm.nodup_iff.mpr hnodes
    rw [List.nodup_append] at hnodup
    exact fun h => hnodup.2.2 s h s List.mem_cons_self rfl
  rw [List.idxOf_append_of_mem hbefore, List.idxOf_append_of_notMem hsnot, List.idxOf_cons_self]
  have := List.idxOf_lt_length_of_mem hbefore
  omega

end Sorted

/-! ## Cycles -/

def Edge (nodes : List α) (deps : α → List α) (d s : α) : Prop :=
  s ∈ nodes ∧ d ∈ deps s

def Acyclic (nodes : List α) (deps : α → List α) : Prop :=
  ∀ s, ¬ Relation.TransGen (Edge nodes deps) s s

omit [DecidableEq α] in
theorem acyclic_of_rank (rank : α → Nat)
    (hrank : ∀ s ∈ nodes, ∀ d ∈ deps s, rank d < rank s) : Acyclic nodes deps := by
  have hlt : ∀ d s, Relation.TransGen (Edge nodes deps) d s → rank d < rank s := by
    intro d s h
    induction h with
    | single h => exact hrank _ h.1 _ h.2
    | tail _ h ih => exact ih.trans (hrank _ h.1 _ h.2)
  exact fun s h => Nat.lt_irrefl _ (hlt s s h)

omit [DecidableEq α] in
theorem Acyclic.induction (h : Acyclic nodes deps)
    (hclosed : ∀ s ∈ nodes, ∀ d ∈ deps s, d ∈ nodes)
    (P : α → Prop) (hstep : ∀ s ∈ nodes, (∀ d ∈ deps s, P d) → P s) : ∀ s ∈ nodes, P s := by
  let below : {s // s ∈ nodes} → {s // s ∈ nodes} → Prop :=
    fun d s => Relation.TransGen (Edge nodes deps) d.1 s.1
  have : IsTrans {s // s ∈ nodes} below := ⟨fun _ _ _ hab hbc => hab.trans hbc⟩
  have : Std.Irrefl below := ⟨fun s => h s.1⟩
  have : Finite {s // s ∈ nodes} := (List.finite_toSet nodes).to_subtype
  have hwf : WellFounded below := Finite.wellFounded_of_trans_of_irrefl below
  intro s hs
  refine hwf.induction (C := fun s => P s.1) ⟨s, hs⟩ fun s ih => ?_
  exact hstep s.1 s.2 fun d hd => ih ⟨d, hclosed s.1 s.2 d hd⟩ (.single ⟨s.2, hd⟩)

theorem sort_covers_iff {order out : List α} (hnodes : nodes.Nodup) (horder : order.Perm nodes)
    (hout : sort nodes deps order = some out)
    (hclosed : ∀ s ∈ nodes, ∀ d ∈ deps s, d ∈ nodes) :
    out.length = nodes.length ↔ Acyclic nodes deps := by
  constructor
  · intro hlen
    exact acyclic_of_rank out.idxOf fun s hs d hd =>
      (sort_rank hnodes horder hout hlen s hs d hd).2
  · intro hacyclic
    obtain ⟨last, h⟩ := sort_inv hnodes horder hout
    have hnodup : out.Nodup := by simpa using h.nodup
    have hall : ∀ s ∈ nodes, s ∈ out := by
      refine hacyclic.induction hclosed (· ∈ out) fun s hs hdeps => ?_
      by_contra hnot
      obtain ⟨d, hd, hopen⟩ := h.waits hs hnot
      exact hopen (hdeps d hd)
    have hle := (List.subperm_of_subset hnodes hall).length_le
    have hge := (List.subperm_of_subset hnodup h.result_subset).length_le
    omega

end Stroem.Foundation.Kahn
