import Stroem.Kubernetes

/-!
# What a merge can make

`mergeJson` walks two values together.  A property that no merge can break is built from rules:
one for the value of a key, one for the elements of an array, one for a scalar that must not occur.
-/

namespace Stroem.Kubernetes

/-! ## Values whose objects are maps -/

inductive Ordered : Json → Prop
  | null : Ordered .null
  | bool (b : Bool) : Ordered (.bool b)
  | num (n : JsonNumber) : Ordered (.num n)
  | str (s : String) : Ordered (.str s)
  | arr {items : List Json} (h : ∀ item ∈ items, Ordered item) : Ordered (.arr items)
  | obj {fields : Fields} (hkeys : fields.Sorted) (h : ∀ e ∈ fields, Ordered e.2) :
      Ordered (.obj fields)

theorem Ordered.item {items : List Json} (h : Ordered (.arr items)) {item : Json}
    (hitem : item ∈ items) : Ordered item := by
  cases h with
  | arr h => exact h item hitem

theorem Ordered.sorted {fields : Fields} (h : Ordered (.obj fields)) : fields.Sorted := by
  cases h with
  | obj hkeys _ => exact hkeys

theorem Ordered.value {fields : Fields} (h : Ordered (.obj fields)) {key : String} {value : Json}
    (hget : Fields.get key fields = some value) : Ordered value := by
  cases h with
  | obj _ h => exact h (key, value) (Fields.mem_of_get hget)

/-! ## One level of a merge -/

theorem mergeJson_null (overrides : Json) : mergeJson .null overrides = overrides := by
  cases overrides <;> rfl

theorem get_mergeFields {base overrides : Fields} (h : overrides.Sorted) (key : String) :
    Fields.get key (mergeFields base overrides) =
      match Fields.get key overrides with
      | some val => some (mergeJson ((Fields.get key base).getD .null) val)
      | none => Fields.get key base := by
  induction overrides generalizing base with
  | nil => rfl
  | cons e overrides ih =>
    obtain ⟨k, val⟩ := e
    obtain ⟨hfirst, hrest⟩ := List.pairwise_cons.mp h
    rw [mergeFields, ih hrest, Fields.get]
    by_cases hk : k = key
    · subst hk
      have hnone : Fields.get k overrides = none :=
        Fields.get_eq_none fun e he heq => String.lt_irrefl k (heq ▸ hfirst e he)
      rw [hnone, if_pos rfl]
      exact Fields.get_insert_self _ _ _
    · rw [if_neg hk, Fields.get_insert_of_ne (Ne.symm hk)]

theorem mem_mergeFirst {name : String} {merge : Json → Json} {item : Json} {entries : List Json}
    {e : Json} (h : e ∈ mergeFirst name merge item entries) :
    e = item ∨ (∃ entry ∈ entries, e = merge entry) ∨ e ∈ entries := by
  induction entries with
  | nil => exact Or.inl (List.mem_singleton.mp h)
  | cons entry entries ih =>
    rw [mergeFirst] at h
    split at h
    · obtain rfl | hmem := List.mem_cons.mp h
      · exact Or.inr (Or.inl ⟨entry, List.mem_cons_self, rfl⟩)
      · exact Or.inr (Or.inr (List.mem_cons_of_mem _ hmem))
    · obtain rfl | hmem := List.mem_cons.mp h
      · exact Or.inr (Or.inr List.mem_cons_self)
      · obtain hitem | ⟨entry', hentry', heq⟩ | hmem := ih hmem
        · exact Or.inl hitem
        · exact Or.inr (Or.inl ⟨entry', List.mem_cons_of_mem _ hentry', heq⟩)
        · exact Or.inr (Or.inr (List.mem_cons_of_mem _ hmem))

/-! ## Properties that merges keep -/

def MergeClosed (P : Json → Prop) : Prop :=
  ∀ base overrides, Ordered overrides → P base → P overrides → P (mergeJson base overrides)

def OnField (key : String) (P : Json → Prop) (value : Json) : Prop :=
  ∀ w, field key value = some w → P w

def OnItems (P : Json → Prop) (value : Json) : Prop :=
  ∀ items, value = .arr items → ∀ item ∈ items, P item

variable {P Q : Json → Prop}

theorem MergeClosed.and (hP : MergeClosed P) (hQ : MergeClosed Q) :
    MergeClosed fun value => P value ∧ Q value :=
  fun base overrides hordered hbase hoverrides =>
    ⟨hP base overrides hordered hbase.1 hoverrides.1,
      hQ base overrides hordered hbase.2 hoverrides.2⟩

theorem mergeClosed_ne {scalar : Json} (hobj : ∀ fields, scalar ≠ .obj fields)
    (harr : ∀ items, scalar ≠ .arr items) : MergeClosed fun value => value ≠ scalar := by
  intro base overrides _ _ hoverrides
  unfold mergeJson
  split
  · exact Ne.symm (hobj _)
  · split
    · exact Ne.symm (harr _)
    · exact Ne.symm (harr _)
  · exact hoverrides

theorem MergeClosed.onField (key : String) (hP : MergeClosed P) : MergeClosed (OnField key P) := by
  intro base overrides hordered hbase hoverrides
  unfold mergeJson
  split
  · next base overrides =>
      intro w hw
      rw [field, get_mergeFields hordered.sorted] at hw
      cases hget : Fields.get key overrides with
      | none =>
        rw [hget] at hw
        exact hbase w hw
      | some val =>
        rw [hget] at hw
        cases hw
        have hval : P val := hoverrides val hget
        cases hold : Fields.get key base with
        | none =>
          rw [Option.getD_none, mergeJson_null]
          exact hval
        | some old => exact hP old val (hordered.value hget) (hbase old hold) hval
  · split
    · intro w hw
      cases hw
    · intro w hw
      cases hw
  · exact hoverrides

theorem mergeClosed_absent (key : String) : MergeClosed fun value => field key value = none := by
  intro base overrides hordered hbase hoverrides
  unfold mergeJson
  split
  · rw [field, get_mergeFields hordered.sorted]
    rw [field] at hbase hoverrides
    rw [hoverrides]
    exact hbase
  · split
    · rfl
    · rfl
  · exact hoverrides

theorem MergeClosed.mergeItems (hP : MergeClosed P) {base overrides : List Json}
    (hordered : ∀ v ∈ overrides, Ordered v) (hbase : ∀ e ∈ base, P e)
    (hoverrides : ∀ v ∈ overrides, P v) : ∀ e ∈ mergeItems base overrides, P e := by
  induction overrides generalizing base with
  | nil => exact hbase
  | cons item overrides ih =>
    rw [Kubernetes.mergeItems]
    have hitem := hoverrides item List.mem_cons_self
    refine ih (fun v hv => hordered v (List.mem_cons_of_mem _ hv)) ?_
      fun v hv => hoverrides v (List.mem_cons_of_mem _ hv)
    split
    · intro e he
      obtain rfl | ⟨entry, hentry, rfl⟩ | hmem := mem_mergeFirst he
      · exact hitem
      · exact hP entry item (hordered item List.mem_cons_self) (hbase entry hentry) hitem
      · exact hbase e hmem
    · exact hbase

theorem MergeClosed.onItems (hP : MergeClosed P) : MergeClosed (OnItems P) := by
  intro base overrides hordered hbase hoverrides
  unfold mergeJson
  split
  · intro items hitems
    cases hitems
  · next base overrides =>
      split
      · intro items hitems
        obtain rfl := Json.arr.inj hitems
        exact hP.mergeItems (fun v hv => hordered.item hv) (hbase base rfl)
          (hoverrides overrides rfl)
      · exact hoverrides
  · exact hoverrides

end Stroem.Kubernetes
