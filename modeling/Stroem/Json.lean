import Mathlib.Data.List.Basic
import Mathlib.Data.List.Nodup
import Mathlib.Tactic.Common

/-!
JSON values as the repository's `serde_json` build holds them.

Objects are key-sorted association lists (the build does not enable `preserve_order`, so
`serde_json::Map` is a `BTreeMap`); `Fields.insert` keeps them sorted and replaces in place.
-/

namespace Stroem

/-- `serde_json::Number`: an integer, or the bits of a double. -/
inductive JsonNumber where
  | int (n : Int)
  | float (bits : UInt64)
  deriving DecidableEq

inductive Json where
  | null
  | bool (b : Bool)
  | num (n : JsonNumber)
  | str (s : String)
  | arr (items : List Json)
  | obj (fields : List (String × Json))

namespace Json

mutual

def decEq : (a b : Json) → Decidable (a = b)
  | .null, .null => isTrue rfl
  | .bool a, .bool b => decidable_of_iff (a = b) (by simp)
  | .num a, .num b => decidable_of_iff (a = b) (by simp)
  | .str a, .str b => decidable_of_iff (a = b) (by simp)
  | .arr a, .arr b =>
    match decEqList a b with
    | isTrue h => isTrue (h ▸ rfl)
    | isFalse h => isFalse fun heq => h (by simpa using heq)
  | .obj a, .obj b =>
    match decEqFields a b with
    | isTrue h => isTrue (h ▸ rfl)
    | isFalse h => isFalse fun heq => h (by simpa using heq)
  | .null, .bool _ | .null, .num _ | .null, .str _ | .null, .arr _ | .null, .obj _
  | .bool _, .null | .bool _, .num _ | .bool _, .str _ | .bool _, .arr _ | .bool _, .obj _
  | .num _, .null | .num _, .bool _ | .num _, .str _ | .num _, .arr _ | .num _, .obj _
  | .str _, .null | .str _, .bool _ | .str _, .num _ | .str _, .arr _ | .str _, .obj _
  | .arr _, .null | .arr _, .bool _ | .arr _, .num _ | .arr _, .str _ | .arr _, .obj _
  | .obj _, .null | .obj _, .bool _ | .obj _, .num _ | .obj _, .str _ | .obj _, .arr _ =>
    isFalse (by simp)

def decEqList : (a b : List Json) → Decidable (a = b)
  | [], [] => isTrue rfl
  | [], _ :: _ => isFalse (by simp)
  | _ :: _, [] => isFalse (by simp)
  | a :: as, b :: bs =>
    match decEq a b, decEqList as bs with
    | isTrue h, isTrue hs => isTrue (by rw [h, hs])
    | isFalse h, _ => isFalse fun heq => h (List.cons.inj heq).1
    | _, isFalse hs => isFalse fun heq => hs (List.cons.inj heq).2

def decEqFields : (a b : List (String × Json)) → Decidable (a = b)
  | [], [] => isTrue rfl
  | [], _ :: _ => isFalse (by simp)
  | _ :: _, [] => isFalse (by simp)
  | (k, a) :: as, (l, b) :: bs =>
    match decEq a b, decEqFields as bs with
    | isTrue h, isTrue hs => decidable_of_iff (k = l) (by simp [h, hs])
    | isFalse h, _ => isFalse fun heq => h (by simp_all)
    | _, isFalse hs => isFalse fun heq => hs (List.cons.inj heq).2

end

instance : DecidableEq Json := decEq

def asStr : Json → Option String
  | .str s => some s
  | _ => none

def typeName : Json → String
  | .null => "null"
  | .bool _ => "boolean"
  | .num _ => "number"
  | .str _ => "string"
  | .arr _ => "array"
  | .obj _ => "object"

mutual

def collectStrings : Json → List String
  | .str s => [s]
  | .arr items => collectStringsList items
  | .obj fields => collectStringsFields fields
  | .null | .bool _ | .num _ => []

def collectStringsList : List Json → List String
  | [] => []
  | v :: vs => collectStrings v ++ collectStringsList vs

def collectStringsFields : List (String × Json) → List String
  | [] => []
  | (_, v) :: fields => collectStrings v ++ collectStringsFields fields

end

def ofOptStr : Option String → Json
  | none => .null
  | some s => .str s

def ofStrings (xs : List String) : Json :=
  .arr (xs.map .str)

/--
`serde_json::from_value::<Vec<String>>(..).unwrap_or_default()`: the list when the value is an
array of strings, and the empty list otherwise.
-/
def toStringsOrDefault : Json → List String
  | .arr items => (items.mapM asStr).getD []
  | _ => []

end Json

abbrev Fields := List (String × Json)

namespace Fields

def get (key : String) : Fields → Option Json
  | [] => none
  | (k, v) :: rest => if k = key then some v else get key rest

def insert (key : String) (value : Json) : Fields → Fields
  | [] => [(key, value)]
  | (k, v) :: rest =>
    if key = k then (key, value) :: rest
    else if key < k then (key, value) :: (k, v) :: rest
    else (k, v) :: insert key value rest

def collect (entries : List (String × Json)) : Fields :=
  entries.foldl (fun m e => insert e.1 e.2 m) []

theorem insert_insert (key : String) (value value' : Json) (m : Fields) :
    insert key value (insert key value' m) = insert key value m := by
  induction m with
  | nil => simp [insert]
  | cons e m ih =>
    obtain ⟨k, v⟩ := e
    by_cases hk : key = k
    · simp [insert, hk]
    · by_cases hlt : key < k
      · simp [insert, hk, hlt]
      · simp [insert, hk, hlt, ih]

variable {key : String}

private theorem insert_comm_of_lt {key' : String} (hlt : key < key') (value value' : Json)
    (m : Fields) :
    insert key value (insert key' value' m) = insert key' value' (insert key value m) := by
  have hnlt : ¬key' < key := String.lt_asymm hlt
  have hne : key ≠ key' := by
    rintro rfl
    exact hnlt hlt
  induction m with
  | nil => simp [insert, hne, hne.symm, hlt, hnlt]
  | cons e m ih =>
    obtain ⟨k, v⟩ := e
    by_cases hk' : key' = k
    · subst hk'
      simp [insert, hne, hne.symm, hlt, hnlt]
    · by_cases hk : key = k
      · subst hk
        simp [insert, hne.symm, hnlt]
      · by_cases hlt' : key' < k
        · have hltk : key < k := String.lt_trans hlt hlt'
          simp [insert, hk, hk', hne, hne.symm, hlt, hnlt, hlt', hltk]
        · by_cases hltk : key < k
          · simp [insert, hk, hk', hne.symm, hnlt, hlt', hltk]
          · simp [insert, hk, hk', hlt', hltk, ih]

theorem insert_comm {key' : String} (hne : key ≠ key') (value value' : Json) (m : Fields) :
    insert key value (insert key' value' m) = insert key' value' (insert key value m) := by
  by_cases hlt : key < key'
  · exact insert_comm_of_lt hlt value value' m
  · by_cases hgt : key' < key
    · exact (insert_comm_of_lt hgt value' value m).symm
    · exact absurd (String.le_antisymm hgt hlt) hne

theorem get_insert_self (key : String) (value : Json) (m : Fields) :
    get key (insert key value m) = some value := by
  induction m with
  | nil => simp [insert, get]
  | cons e m ih =>
    obtain ⟨k, v⟩ := e
    by_cases hk : key = k
    · simp [insert, get, hk]
    · by_cases hlt : key < k
      · simp [insert, get, hk, hlt]
      · simp [insert, get, hk, hlt, Ne.symm hk, ih]

theorem get_insert_of_ne {key' : String} (hne : key' ≠ key) (value : Json) (m : Fields) :
    get key' (insert key value m) = get key' m := by
  induction m with
  | nil => simp [insert, get, hne.symm]
  | cons e m ih =>
    obtain ⟨k, v⟩ := e
    by_cases hk : key = k
    · subst hk
      simp [insert, get, hne.symm]
    · by_cases hlt : key < k
      · simp [insert, get, hk, hlt, hne.symm]
      · simp [insert, get, hk, hlt, ih]

variable {m : Fields}

theorem mem_of_get {value : Json} (h : get key m = some value) : (key, value) ∈ m := by
  induction m with
  | nil => cases h
  | cons e m ih =>
    obtain ⟨k, v⟩ := e
    rw [get] at h
    split at h
    · next hk =>
        cases h
        rw [hk]
        exact List.mem_cons_self
    · exact List.mem_cons_of_mem _ (ih h)

theorem get_eq_none (h : ∀ e ∈ m, e.1 ≠ key) : get key m = none := by
  cases hget : get key m with
  | none => rfl
  | some value => exact absurd rfl (h _ (mem_of_get hget))

theorem get_of_mem {value : Json} (hkeys : (m.map Prod.fst).Nodup) (h : (key, value) ∈ m) :
    get key m = some value := by
  induction m with
  | nil => cases h
  | cons e m ih =>
    obtain ⟨k, v⟩ := e
    obtain ⟨hfirst, hrest⟩ := List.nodup_cons.mp hkeys
    rw [get]
    obtain heq | hmem := List.mem_cons.mp h
    · obtain ⟨rfl, rfl⟩ := Prod.mk.inj heq
      rw [if_pos rfl]
    · have hkey : key ∈ m.map Prod.fst := List.mem_map.mpr ⟨_, hmem, rfl⟩
      have hne : k ≠ key := fun hk => hfirst (hk ▸ hkey)
      rw [if_neg hne]
      exact ih hrest hmem

theorem eq_nil_iff : m = [] ↔ ∀ key, get key m = none := by
  constructor
  · rintro rfl key
    rfl
  · intro h
    cases m with
    | nil => rfl
    | cons e m =>
      have hget := h e.1
      rw [get, if_pos rfl] at hget
      cases hget

variable {entries : List (String × Json)}

theorem get_foldl_insert (hkeys : (entries.map Prod.fst).Nodup) (m : Fields) (key : String) :
    get key (entries.foldl (fun m e => insert e.1 e.2 m) m) =
      (get key entries).or (get key m) := by
  induction entries generalizing m with
  | nil => rfl
  | cons e entries ih =>
    obtain ⟨hnot, hkeys⟩ := List.nodup_cons.mp hkeys
    rw [List.foldl_cons, ih hkeys, get]
    by_cases hkey : e.1 = key
    · subst hkey
      have hnone : get e.1 entries = none :=
        get_eq_none fun e' he' heq => hnot (heq ▸ List.mem_map_of_mem he')
      rw [hnone, Option.none_or, get_insert_self, if_pos rfl, Option.some_or]
    · rw [get_insert_of_ne (Ne.symm hkey), if_neg hkey]

theorem get_collect (hkeys : (entries.map Prod.fst).Nodup) (key : String) :
    get key (collect entries) = get key entries := by
  rw [collect, get_foldl_insert hkeys, get, Option.or_none]

/-! ### Key-sorted maps -/

def Sorted (m : Fields) : Prop :=
  m.Pairwise fun e e' => e.1 < e'.1

theorem Sorted.nodup_keys (h : m.Sorted) : (m.map Prod.fst).Nodup :=
  List.Pairwise.map Prod.fst (fun _ _ hlt heq => String.lt_irrefl _ (heq ▸ hlt)) h

theorem mem_insert_iff {value : Json} (h : m.Sorted) {e : String × Json} :
    e ∈ insert key value m ↔ e = (key, value) ∨ e ∈ m ∧ e.1 ≠ key := by
  induction m with
  | nil => simp [insert]
  | cons e' m ih =>
    obtain ⟨k, v⟩ := e'
    obtain ⟨hfirst, hrest⟩ := List.pairwise_cons.mp h
    unfold insert
    by_cases hk : key = k
    · subst hk
      have hne : ∀ e'' ∈ m, e''.1 ≠ key := fun e'' he'' heq =>
        String.lt_irrefl key (heq ▸ hfirst e'' he'')
      rw [if_pos rfl, List.mem_cons, List.mem_cons]
      constructor
      · rintro (rfl | he)
        · exact .inl rfl
        · exact .inr ⟨.inr he, hne e he⟩
      · rintro (rfl | ⟨rfl | he, hne'⟩)
        · exact .inl rfl
        · exact absurd rfl hne'
        · exact .inr he
    · rw [if_neg hk]
      by_cases hlt : key < k
      · have hne : ∀ e'' ∈ (k, v) :: m, e''.1 ≠ key := by
          intro e'' he'' heq
          rcases List.mem_cons.mp he'' with rfl | hmem
          · exact hk heq.symm
          · exact String.lt_asymm hlt (heq ▸ hfirst e'' hmem)
        rw [if_pos hlt, List.mem_cons]
        refine or_congr_right ⟨fun he => ⟨he, hne e he⟩, fun he => he.1⟩
      · rw [if_neg hlt, List.mem_cons, List.mem_cons, ih hrest]
        constructor
        · rintro (rfl | rfl | ⟨he, hne⟩)
          · exact .inr ⟨.inl rfl, fun heq => hk heq.symm⟩
          · exact .inl rfl
          · exact .inr ⟨.inr he, hne⟩
        · rintro (rfl | ⟨rfl | he, hne⟩)
          · exact .inr (.inl rfl)
          · exact .inl rfl
          · exact .inr (.inr ⟨he, hne⟩)

theorem Sorted.insert (h : m.Sorted) (key : String) (value : Json) :
    Sorted (Fields.insert key value m) := by
  induction m with
  | nil => exact List.pairwise_singleton _ _
  | cons e m ih =>
    obtain ⟨k, v⟩ := e
    obtain ⟨hfirst, hrest⟩ := List.pairwise_cons.mp h
    unfold Fields.insert
    by_cases hk : key = k
    · subst hk
      rw [if_pos rfl]
      exact List.pairwise_cons.mpr ⟨hfirst, hrest⟩
    · rw [if_neg hk]
      by_cases hlt : key < k
      · rw [if_pos hlt]
        refine List.pairwise_cons.mpr ⟨fun e he => ?_, h⟩
        rcases List.mem_cons.mp he with rfl | he
        · exact hlt
        · exact String.lt_trans hlt (hfirst e he)
      · rw [if_neg hlt]
        refine List.pairwise_cons.mpr ⟨fun e he => ?_, ih hrest⟩
        rcases (mem_insert_iff hrest).mp he with rfl | ⟨he, -⟩
        · refine Decidable.byContradiction fun hnlt => hk ?_
          exact String.le_antisymm hnlt hlt
        · exact hfirst e he

theorem Sorted.foldl_insert (h : m.Sorted) :
    Sorted (entries.foldl (fun m e => Fields.insert e.1 e.2 m) m) := by
  induction entries generalizing m with
  | nil => exact h
  | cons e entries ih => exact ih (h.insert e.1 e.2)

theorem sorted_collect (entries : List (String × Json)) : Sorted (collect entries) :=
  Sorted.foldl_insert List.Pairwise.nil

private theorem mem_foldl_insert (h : m.Sorted) (hkeys : (entries.map Prod.fst).Nodup)
    (hfresh : ∀ e ∈ entries, ∀ e' ∈ m, e'.1 ≠ e.1) {e : String × Json} :
    e ∈ entries.foldl (fun m e => Fields.insert e.1 e.2 m) m ↔ e ∈ m ∨ e ∈ entries := by
  induction entries generalizing m with
  | nil => simp
  | cons first entries ih =>
    obtain ⟨hnot, hkeys⟩ := List.nodup_cons.mp hkeys
    have hother : ∀ e' ∈ entries, first.1 ≠ e'.1 := fun e' he' heq =>
      hnot (heq ▸ List.mem_map_of_mem he')
    rw [List.foldl_cons, ih (h.insert _ _) hkeys, mem_insert_iff h, List.mem_cons]
    · constructor
      · rintro ((rfl | ⟨he, -⟩) | he)
        · exact .inr (.inl rfl)
        · exact .inl he
        · exact .inr (.inr he)
      · rintro (he | rfl | he)
        · exact .inl (.inr ⟨he, hfresh first List.mem_cons_self e he⟩)
        · exact .inl (.inl rfl)
        · exact .inr he
    · intro e' he' e'' he''
      rcases (mem_insert_iff h).mp he'' with rfl | ⟨he'', -⟩
      · exact hother e' he'
      · exact hfresh e' (List.mem_cons_of_mem _ he') e'' he''

theorem mem_collect_iff (hkeys : (entries.map Prod.fst).Nodup) {e : String × Json} :
    e ∈ collect entries ↔ e ∈ entries := by
  unfold collect
  rw [mem_foldl_insert List.Pairwise.nil hkeys (fun _ _ _ h => absurd h List.not_mem_nil)]
  simp

theorem collect_perm {entries' : List (String × Json)} (h : entries.Perm entries')
    (hkeys : (entries.map Prod.fst).Nodup) : collect entries = collect entries' := by
  refine h.foldl_eq' (fun e he e' he' m => ?_) []
  by_cases hkey : e.1 = e'.1
  · rw [List.inj_on_of_nodup_map hkeys he he' hkey]
  · exact insert_comm (Ne.symm hkey) _ _ _

end Fields

end Stroem
