import Mathlib.Algebra.GroupWithZero.Nat
import Mathlib.Algebra.Group.Int.Defs
import Mathlib.Data.List.Basic
import Mathlib.Data.List.Forall2
import Mathlib.Data.List.Nodup
import Mathlib.Data.List.Perm.Subperm
import Mathlib.Tactic.Common

/-!
# Keyed tables

A table is a list of rows with a key.  Two views of it are developed together:

* the database view, where a statement updates every row that meets its `WHERE` clause and
  reports how many it met (`updateWhere`, `affected`), and where an insert fails on a key that
  is already present (`insertAll`);
* the in-memory view, where an index maps each key to the last row that carries it
  (`lookupLast`, `modifyLast`).

On rows with distinct keys the two views agree.
-/

namespace Stroem.Foundation

section Update

variable {ρ : Type*}

def updateWhere (p : ρ → Bool) (f : ρ → ρ) (rows : List ρ) : List ρ :=
  rows.map fun r => if p r then f r else r

def affected (p : ρ → Bool) (rows : List ρ) : Nat :=
  rows.countP p

structure Update (ρ : Type*) where
  guard : ρ → Bool
  set : ρ → ρ

def Update.run (u : Update ρ) (rows : List ρ) : List ρ :=
  updateWhere u.guard u.set rows

def Update.onRow (u : Update ρ) (r : ρ) : ρ :=
  if u.guard r then u.set r else r

def Update.rowsAffected (u : Update ρ) (rows : List ρ) : Nat :=
  affected u.guard rows

theorem Update.mem_run {u : Update ρ} {rows : List ρ} {r : ρ} :
    r ∈ u.run rows ↔ ∃ r₀ ∈ rows, (if u.guard r₀ then u.set r₀ else r₀) = r := by
  simp [Update.run, updateWhere]

@[simp] theorem updateWhere_append (p : ρ → Bool) (f : ρ → ρ) (xs ys : List ρ) :
    updateWhere p f (xs ++ ys) = updateWhere p f xs ++ updateWhere p f ys := by
  simp [updateWhere]

theorem mem_updateWhere {p : ρ → Bool} {f : ρ → ρ} {rows : List ρ} {r : ρ} :
    r ∈ updateWhere p f rows ↔ ∃ r₀ ∈ rows, (if p r₀ then f r₀ else r₀) = r := by
  simp [updateWhere]

theorem updateWhere_eq_self {p : ρ → Bool} {f : ρ → ρ} {rows : List ρ}
    (h : ∀ r ∈ rows, p r = true → f r = r) : updateWhere p f rows = rows := by
  unfold updateWhere
  conv_rhs => rw [← List.map_id rows]
  refine List.map_congr_left fun r hr => ?_
  by_cases hp : p r = true
  · simp [hp, h r hr hp]
  · simp [hp]

end Update

section Rowwise

variable {ρ ρ' : Type*}

theorem mem_of_forall₂_left {R : ρ → ρ' → Prop} {rows : List ρ} {rows' : List ρ'}
    (h : List.Forall₂ R rows rows') {r : ρ} (hr : r ∈ rows) :
    ∃ r' ∈ rows', R r r' := by
  induction h with
  | nil => simp at hr
  | cons hR _ ih =>
    rcases List.mem_cons.mp hr with rfl | hr
    · exact ⟨_, List.mem_cons_self, hR⟩
    · obtain ⟨r', hr', hR'⟩ := ih hr
      exact ⟨r', List.mem_cons_of_mem _ hr', hR'⟩

theorem mem_of_forall₂_right {R : ρ → ρ' → Prop} {rows : List ρ} {rows' : List ρ'}
    (h : List.Forall₂ R rows rows') {r' : ρ'} (hr' : r' ∈ rows') :
    ∃ r ∈ rows, R r r' :=
  mem_of_forall₂_left h.flip hr'

end Rowwise

theorem getElem?_set_cases {α : Type*} {l : List α} {i j : Nat} {a b : α}
    (h : (l.set i a)[j]? = some b) : j = i ∧ b = a ∨ j ≠ i ∧ l[j]? = some b := by
  rw [List.getElem?_set] at h
  split at h
  case isTrue hij =>
    split at h
    · exact .inl ⟨hij.symm, (Option.some.inj h).symm⟩
    · cases h
  case isFalse hij => exact .inr ⟨fun heq => hij heq.symm, h⟩

section Keyed

variable {ρ κ : Type*} {key : ρ → κ}

def Keyed (key : ρ → κ) (rows : List ρ) : Prop :=
  (rows.map key).Nodup

namespace Keyed

variable {rows : List ρ}

theorem of_cons {r : ρ} (h : Keyed key (r :: rows)) : Keyed key rows :=
  (List.nodup_cons.mp h).2

theorem key_ne {r : ρ} (h : Keyed key (r :: rows)) : ∀ a ∈ rows, key a ≠ key r := by
  intro a ha heq
  exact (List.nodup_cons.mp h).1 (List.mem_map.mpr ⟨a, ha, heq⟩)

theorem eq_of_key (h : Keyed key rows) {r r' : ρ} (hr : r ∈ rows) (hr' : r' ∈ rows)
    (hk : key r = key r') : r = r' :=
  List.inj_on_of_nodup_map h hr hr' hk

theorem updateWhere {p : ρ → Bool} {f : ρ → ρ} (hf : ∀ r, key (f r) = key r) (h : Keyed key rows) :
    Keyed key (Foundation.updateWhere p f rows) := by
  have hkeys : (Foundation.updateWhere p f rows).map key = rows.map key := by
    simp only [Foundation.updateWhere, List.map_map]
    refine List.map_congr_left fun r _ => ?_
    by_cases hp : p r = true <;> simp [hp, hf]
  unfold Keyed
  rwa [hkeys]

theorem of_forall₂ {rows' : List ρ}
    (hkeys : List.Forall₂ (fun r r' => key r' = key r) rows rows') (h : Keyed key rows) :
    Keyed key rows' := by
  have heq : rows'.map key = rows.map key := by
    induction hkeys with
    | nil => rfl
    | cons hkey _ ih => rw [List.map_cons, List.map_cons, hkey, ih h.of_cons]
  unfold Keyed
  rwa [heq]

theorem append {new : List ρ} (h : Keyed key rows) (hnew : Keyed key new)
    (hdisj : ∀ r ∈ rows, ∀ a ∈ new, key r ≠ key a) : Keyed key (rows ++ new) := by
  unfold Keyed
  rw [List.map_append, List.nodup_append]
  refine ⟨h, hnew, ?_⟩
  simp only [List.mem_map]
  rintro _ ⟨r, hr, rfl⟩ _ ⟨a, ha, rfl⟩
  exact hdisj r hr a ha

theorem mem_eraseP [DecidableEq κ] (h : Keyed key rows) {p q : ρ} (hp : p ∈ rows) :
    q ∈ rows.eraseP (fun r => key r == key p) ↔ q ∈ rows ∧ q ≠ p := by
  induction rows with
  | nil => simp at hp
  | cons r rows ih =>
    by_cases hr : key r = key p
    · obtain rfl : r = p := h.eq_of_key List.mem_cons_self hp hr
      rw [List.eraseP_cons_of_pos (by simp), List.mem_cons]
      constructor
      · intro hq
        exact ⟨.inr hq, fun heq => h.key_ne q hq (congrArg key heq)⟩
      · rintro ⟨rfl | hq, hne⟩
        · exact absurd rfl hne
        · exact hq
    · have hne : r ≠ p := fun heq => hr (congrArg key heq)
      have hp' : p ∈ rows := (List.mem_cons.mp hp).resolve_left (Ne.symm hne)
      rw [List.eraseP_cons_of_neg (by simpa using hr), List.mem_cons, List.mem_cons,
        ih h.of_cons hp']
      constructor
      · rintro (rfl | ⟨hq, hqp⟩)
        · exact ⟨.inl rfl, hne⟩
        · exact ⟨.inr hq, hqp⟩
      · rintro ⟨rfl | hq, hqp⟩
        · exact .inl rfl
        · exact .inr ⟨hq, hqp⟩

theorem perm_eraseP [DecidableEq κ] (h : Keyed key rows) {p : ρ} (hp : p ∈ rows) :
    rows.Perm (p :: rows.eraseP fun r => key r == key p) := by
  obtain ⟨r, before, after, -, hr, hrows, herase⟩ :=
    List.exists_of_eraseP hp (p := fun r => key r == key p) (by simp)
  have hmem : r ∈ rows := by
    rw [hrows]
    exact List.mem_append_right _ List.mem_cons_self
  obtain rfl : r = p := h.eq_of_key hmem hp (by simpa using hr)
  rw [herase, hrows]
  exact List.perm_middle

theorem mem_run_iff {u : Update ρ} {r : ρ} (h : Keyed key rows)
    (hguard : ∀ a, u.guard a = true → key a = key r) (hr : r ∈ rows) (hmeets : u.guard r = true)
    (a : ρ) : a ∈ u.run rows ↔ a = u.set r ∨ a ∈ rows ∧ key a ≠ key r := by
  rw [Update.mem_run]
  constructor
  · rintro ⟨b, hb, rfl⟩
    split
    case isTrue hg =>
      rw [h.eq_of_key hb hr (hguard b hg)]
      exact .inl rfl
    case isFalse hg =>
      refine .inr ⟨hb, fun hkey => hg ?_⟩
      rwa [h.eq_of_key hb hr hkey]
  · rintro (rfl | ⟨ha, hne⟩)
    · exact ⟨r, hr, by rw [if_pos hmeets]⟩
    · exact ⟨a, ha, by rw [if_neg fun hg => hne (hguard a hg)]⟩

end Keyed

end Keyed

section Lookup

variable {ρ κ : Type*} [DecidableEq κ] (key : ρ → κ)

def lookupLast (k : κ) : List ρ → Option ρ
  | [] => none
  | r :: rows => (lookupLast k rows).or (if key r = k then some r else none)

def modifyLast (k : κ) (f : ρ → ρ) : List ρ → List ρ
  | [] => []
  | r :: rows =>
    if (lookupLast key k rows).isSome then r :: modifyLast k f rows
    else if key r = k then f r :: rows
    else r :: rows

def insertAll (rows new : List ρ) : Option (List ρ) :=
  if ((rows ++ new).map key).Nodup then some (rows ++ new) else none

variable {key}

theorem lookupLast_eq_none_iff {k : κ} {rows : List ρ} :
    lookupLast key k rows = none ↔ ∀ r ∈ rows, key r ≠ k := by
  induction rows with
  | nil => simp [lookupLast]
  | cons r rows ih =>
    simp only [lookupLast, Option.or_eq_none_iff, ih, List.forall_mem_cons]
    by_cases hr : key r = k <;> simp [hr]

theorem mem_of_lookupLast {k : κ} {rows : List ρ} {r : ρ}
    (h : lookupLast key k rows = some r) : r ∈ rows ∧ key r = k := by
  induction rows with
  | nil => simp [lookupLast] at h
  | cons a rows ih =>
    simp only [lookupLast, Option.or_eq_some_iff] at h
    rcases h with h | ⟨-, h⟩
    · exact ⟨List.mem_cons_of_mem _ (ih h).1, (ih h).2⟩
    · by_cases ha : key a = k
      · obtain rfl : a = r := by simpa [ha] using h
        exact ⟨List.mem_cons_self, ha⟩
      · simp [ha] at h

theorem mem_modifyLast {k : κ} {f : ρ → ρ} {rows : List ρ} {r : ρ}
    (h : r ∈ modifyLast key k f rows) : r ∈ rows ∨ ∃ r₀ ∈ rows, r = f r₀ := by
  induction rows with
  | nil => simp [modifyLast] at h
  | cons a rows ih =>
    simp only [modifyLast] at h
    split at h
    · rcases List.mem_cons.mp h with rfl | h
      · exact .inl List.mem_cons_self
      · rcases ih h with hr | ⟨r₀, hr₀, rfl⟩
        · exact .inl (List.mem_cons_of_mem a hr)
        · exact .inr ⟨r₀, List.mem_cons_of_mem a hr₀, rfl⟩
    · split at h
      · rcases List.mem_cons.mp h with rfl | h
        · exact .inr ⟨a, List.mem_cons_self, rfl⟩
        · exact .inl (List.mem_cons_of_mem a h)
      · exact .inl h

theorem lookupLast_isSome_iff {k : κ} {rows : List ρ} :
    (lookupLast key k rows).isSome ↔ ∃ r ∈ rows, key r = k := by
  rw [Option.isSome_iff_ne_none, Ne, lookupLast_eq_none_iff]
  simp

theorem lookupLast_map (key : ρ → κ) {v : ρ → ρ} (hv : ∀ r, key (v r) = key r) (k : κ)
    (rows : List ρ) :
    lookupLast key k (rows.map v) = (lookupLast key k rows).map v := by
  induction rows with
  | nil => rfl
  | cons r rows ih =>
    simp only [List.map_cons, lookupLast, ih, hv]
    cases lookupLast key k rows <;> by_cases hr : key r = k <;> simp [hr]

theorem modifyLast_map (key : ρ → κ) {v f g : ρ → ρ} (hv : ∀ r, key (v r) = key r)
    (hfg : ∀ r, v (f r) = g (v r)) (k : κ) (rows : List ρ) :
    (modifyLast key k f rows).map v = modifyLast key k g (rows.map v) := by
  induction rows with
  | nil => rfl
  | cons r rows ih =>
    simp only [List.map_cons, modifyLast, lookupLast_map key hv, Option.isSome_map, hv]
    split
    · simp [ih]
    · split <;> simp [hfg]

namespace Keyed

variable {rows : List ρ}

theorem lookupLast_eq_some_iff {k : κ} {r : ρ} (h : Keyed key rows) :
    lookupLast key k rows = some r ↔ r ∈ rows ∧ key r = k := by
  refine ⟨mem_of_lookupLast, fun ⟨hr, hk⟩ => ?_⟩
  cases hl : lookupLast key k rows with
  | none => exact absurd hk (lookupLast_eq_none_iff.mp hl r hr)
  | some r' =>
    obtain ⟨hr', hk'⟩ := mem_of_lookupLast hl
    rw [h.eq_of_key hr hr' (hk.trans hk'.symm)]

theorem modifyLast_eq_updateWhere {k : κ} {f : ρ → ρ} (h : Keyed key rows) :
    modifyLast key k f rows = Foundation.updateWhere (fun r => decide (key r = k)) f rows := by
  induction rows with
  | nil => rfl
  | cons r rows ih =>
    have hrows := ih h.of_cons
    by_cases hsome : (lookupLast key k rows).isSome
    · obtain ⟨a, ha, hak⟩ := lookupLast_isSome_iff.mp hsome
      have hne : key r ≠ k := fun hrk => h.key_ne a ha (hak.trans hrk.symm)
      simp [modifyLast, hsome, hrows, Foundation.updateWhere, hne]
    · have hnone : ∀ a ∈ rows, key a ≠ k := by
        apply lookupLast_eq_none_iff.mp
        simpa using hsome
      have hself : Foundation.updateWhere (fun r => decide (key r = k)) f rows = rows :=
        updateWhere_eq_self fun a ha hp => absurd (by simpa using hp) (hnone a ha)
      by_cases hr : key r = k
      · simp only [modifyLast, hsome, hr, if_true]
        simpa [Foundation.updateWhere, hr] using hself.symm
      · simp only [modifyLast, hsome, hr, if_false]
        simpa [Foundation.updateWhere, hr] using hself.symm

theorem sum_updateWhere {k : κ} {f : ρ → ρ} {w : ρ → Nat} {r : ρ} (h : Keyed key rows)
    (hr : r ∈ rows) (hk : key r = k) :
    ((Foundation.updateWhere (fun a => decide (key a = k)) f rows).map w).sum + w r =
      (rows.map w).sum + w (f r) := by
  induction rows with
  | nil => simp at hr
  | cons a rows ih =>
    rcases List.mem_cons.mp hr with rfl | hr
    · have hself : Foundation.updateWhere (fun a => decide (key a = k)) f rows = rows :=
        updateWhere_eq_self fun b hb hp =>
          absurd ((of_decide_eq_true hp).trans hk.symm) (h.key_ne b hb)
      simp only [Foundation.updateWhere] at hself ⊢
      simp only [List.map_cons, List.sum_cons, hk, decide_true, if_true, hself]
      omega
    · have hne : key a ≠ k := fun hak => h.key_ne r hr (hk.trans hak.symm)
      have hrec := ih h.of_cons hr
      simp only [Foundation.updateWhere] at hrec ⊢
      simp only [List.map_cons, List.sum_cons, hne, decide_false, Bool.false_eq_true, if_false]
      omega

variable {q : ρ → Bool} {names : List κ}

theorem affected_eq_length (h : Keyed key rows) (hnames : names.Nodup)
    (hall : ∀ n ∈ names, ∃ r ∈ rows, key r = n ∧ q r = true) :
    affected (fun r => decide (key r ∈ names) && q r) rows = names.length := by
  have hperm : ((rows.filter fun r => decide (key r ∈ names) && q r).map key).Perm names := by
    refine (List.perm_ext_iff_of_nodup ?_ hnames).mpr fun n => ?_
    · exact List.Nodup.sublist (List.filter_sublist.map key) h
    · simp only [List.mem_map, List.mem_filter, Bool.and_eq_true, decide_eq_true_eq]
      constructor
      · rintro ⟨r, ⟨-, hmem, -⟩, rfl⟩
        exact hmem
      · intro hn
        obtain ⟨r, hr, hk, hq⟩ := hall n hn
        exact ⟨r, ⟨hr, hk ▸ hn, hq⟩, hk⟩
  unfold affected
  rw [List.countP_eq_length_filter, ← hperm.length_eq, List.length_map]

theorem perm_of_affected (h : Keyed key rows)
    (hcount : affected (fun r => decide (key r ∈ names) && q r) rows = names.length) :
    ((rows.filter fun r => decide (key r ∈ names) && q r).map key).Perm names := by
  have hnodup : ((rows.filter fun r => decide (key r ∈ names) && q r).map key).Nodup :=
    List.Nodup.sublist (List.filter_sublist.map key) h
  have hsub : ((rows.filter fun r => decide (key r ∈ names) && q r).map key) ⊆ names := by
    intro k hk
    simp only [List.mem_map, List.mem_filter, Bool.and_eq_true, decide_eq_true_eq] at hk
    obtain ⟨r, ⟨-, hmem, -⟩, rfl⟩ := hk
    exact hmem
  unfold affected at hcount
  rw [List.countP_eq_length_filter, ← List.length_map key] at hcount
  exact (List.subperm_of_subset hnodup hsub).perm_of_length_le (Nat.le_of_eq hcount.symm)

theorem exists_of_affected (h : Keyed key rows)
    (hcount : affected (fun r => decide (key r ∈ names) && q r) rows = names.length) :
    ∀ n ∈ names, ∃ r ∈ rows, key r = n ∧ q r = true := by
  intro n hn
  obtain ⟨r, hr, hkey⟩ := List.mem_map.mp ((h.perm_of_affected hcount).mem_iff.mpr hn)
  simp only [List.mem_filter, Bool.and_eq_true] at hr
  exact ⟨r, hr.1, hkey, hr.2.2⟩

theorem nodup_of_affected (h : Keyed key rows)
    (hcount : affected (fun r => decide (key r ∈ names) && q r) rows = names.length) :
    names.Nodup :=
  (h.perm_of_affected hcount).nodup_iff.mp
    (List.Nodup.sublist (List.filter_sublist.map key) h)

theorem rowsAffected_eq_one {u : Update ρ} {r : ρ} (h : Keyed key rows)
    (hguard : ∀ a, u.guard a = true → key a = key r) (hr : r ∈ rows) (hmeets : u.guard r = true) :
    u.rowsAffected rows = 1 := by
  have hlen := h.affected_eq_length (q := u.guard) (List.nodup_singleton (key r))
    (by simpa using ⟨r, hr, rfl, hmeets⟩)
  rw [← List.length_singleton (a := key r), ← hlen]
  unfold Update.rowsAffected affected
  refine List.countP_congr fun a _ => ?_
  simpa using hguard a

end Keyed

end Lookup

end Stroem.Foundation
