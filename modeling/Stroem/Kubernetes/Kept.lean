import Stroem.Kubernetes.Merge

/-!
# What a merge keeps

Two laws of a merge that loses nothing: every value of the overrides is in the result, and what
they do not mention is as it was.  They hold where the overrides name an entry once; the entries of
one name end in one entry of the result.
-/

namespace Stroem.Kubernetes

def isScalar : Json → Bool
  | .arr _ | .obj _ => false
  | _ => true

def named (name : Option String) (entries : List Json) : Option Json :=
  entries.find? fun entry => decide (itemName entry = name)

/-! ## The laws -/

mutual

def Sets : Json → Json → Json → Prop
  | .obj base, .obj overrides, result =>
    ∃ fields, result = .obj fields ∧ SetsFields base overrides fields
  | .arr base, .arr overrides, result =>
    if isNamedArray base && isNamedArray overrides then
      ∃ items, result = .arr items ∧ SetsItems base overrides items
    else result = .arr overrides
  | _, overrides, result => result = overrides

def SetsFields : Fields → Fields → Fields → Prop
  | _, [], _ => True
  | base, (key, val) :: overrides, fields =>
    (∃ value, Fields.get key fields = some value ∧
      Sets ((Fields.get key base).getD .null) val value) ∧
    SetsFields base overrides fields

def SetsItems : List Json → List Json → List Json → Prop
  | _, [], _ => True
  | base, item :: overrides, items =>
    (∃ entry ∈ items,
      match named (itemName item) base with
      | some old => Sets old item entry
      | none => entry = item) ∧
    SetsItems base overrides items

end

mutual

def Kept : Json → Json → Json → Prop
  | .obj base, .obj overrides, result =>
    ∃ fields, result = .obj fields ∧
      (∀ key, Fields.get key overrides = none → Fields.get key fields = Fields.get key base) ∧
      KeptFields base overrides fields
  | .arr base, .arr overrides, result =>
    if isNamedArray base && isNamedArray overrides then
      ∃ items, result = .arr items ∧
        ∀ (i : Nat) (entry : Json), base[i]? = some entry →
          ∃ now, items[i]? = some now ∧ KeptEntry overrides entry now
    else True
  | _, _, _ => True

def KeptFields : Fields → Fields → Fields → Prop
  | _, [], _ => True
  | base, (key, val) :: overrides, fields =>
    (∃ value, Fields.get key fields = some value ∧
      Kept ((Fields.get key base).getD .null) val value) ∧
    KeptFields base overrides fields

def KeptEntry : List Json → Json → Json → Prop
  | [], entry, now => now = entry
  | item :: overrides, entry, now =>
    if itemName item = itemName entry then now = entry ∨ Kept entry item now
    else KeptEntry overrides entry now

end

mutual

def NamesOnce : Json → Json → Prop
  | .obj base, .obj overrides => NamesOnceFields base overrides
  | .arr base, .arr overrides =>
    if isNamedArray base && isNamedArray overrides then
      (overrides.map itemName).Nodup ∧ NamesOnceItems base overrides
    else True
  | _, _ => True

def NamesOnceFields : Fields → Fields → Prop
  | _, [] => True
  | base, (key, val) :: overrides =>
    NamesOnce ((Fields.get key base).getD .null) val ∧ NamesOnceFields base overrides

def NamesOnceItems : List Json → List Json → Prop
  | _, [] => True
  | base, item :: overrides =>
    (match named (itemName item) base with
      | some old => NamesOnce old item
      | none => True) ∧
    NamesOnceItems base overrides

end

inductive Overwrites : Json → Json → Prop
  | field {base overrides : Fields} {key : String} {val : Json}
      (hget : Fields.get key overrides = some val)
      (h : Overwrites ((Fields.get key base).getD .null) val) :
      Overwrites (.obj base) (.obj overrides)
  | entry {base overrides : List Json} {old item : Json}
      (hnamed : isNamedArray base && isNamedArray overrides)
      (hbase : (base.map itemName).Nodup) (honce : (overrides.map itemName).Nodup)
      (hmem : item ∈ overrides) (hold : named (itemName item) base = some old)
      (h : Overwrites old item) : Overwrites (.arr base) (.arr overrides)
  | twice {base overrides : List Json} {item item' value value' : Json} {key : String}
      (hnamed : isNamedArray base && isNamedArray overrides)
      (hbase : (base.map itemName).Nodup) (hmem : item ∈ overrides) (hmem' : item' ∈ overrides)
      (hname : itemName item = itemName item') (hvalue : field key item = some value)
      (hvalue' : field key item' = some value') (hscalar : isScalar value)
      (hscalar' : isScalar value') (hne : value ≠ value') :
      Overwrites (.arr base) (.arr overrides)

theorem setsFields_iff {base overrides fields : Fields} :
    SetsFields base overrides fields ↔
      ∀ e ∈ overrides, ∃ value, Fields.get e.1 fields = some value ∧
        Sets ((Fields.get e.1 base).getD .null) e.2 value := by
  induction overrides with
  | nil => simp [SetsFields]
  | cons e overrides ih =>
    obtain ⟨key, val⟩ := e
    rw [SetsFields, ih, List.forall_mem_cons]

theorem setsItems_iff {base overrides items : List Json} :
    SetsItems base overrides items ↔
      ∀ item ∈ overrides, ∃ entry ∈ items,
        (∀ old, named (itemName item) base = some old → Sets old item entry) ∧
        (named (itemName item) base = none → entry = item) := by
  induction overrides with
  | nil => simp [SetsItems]
  | cons item overrides ih =>
    rw [SetsItems, ih, List.forall_mem_cons]
    cases named (itemName item) base with
    | none => simp
    | some old => simp

theorem keptFields_iff {base overrides fields : Fields} :
    KeptFields base overrides fields ↔
      ∀ e ∈ overrides, ∃ value, Fields.get e.1 fields = some value ∧
        Kept ((Fields.get e.1 base).getD .null) e.2 value := by
  induction overrides with
  | nil => simp [KeptFields]
  | cons e overrides ih =>
    obtain ⟨key, val⟩ := e
    rw [KeptFields, ih, List.forall_mem_cons]

theorem namesOnceFields_iff {base overrides : Fields} :
    NamesOnceFields base overrides ↔
      ∀ e ∈ overrides, NamesOnce ((Fields.get e.1 base).getD .null) e.2 := by
  induction overrides with
  | nil => simp [NamesOnceFields]
  | cons e overrides ih =>
    obtain ⟨key, val⟩ := e
    rw [NamesOnceFields, ih, List.forall_mem_cons]

theorem namesOnceItems_iff {base overrides : List Json} :
    NamesOnceItems base overrides ↔
      ∀ item ∈ overrides, ∀ old, named (itemName item) base = some old → NamesOnce old item := by
  induction overrides with
  | nil => simp [NamesOnceItems]
  | cons item overrides ih =>
    rw [NamesOnceItems, ih, List.forall_mem_cons]
    cases named (itemName item) base with
    | none => simp
    | some old => simp

/-! ## The entry that is found -/

theorem itemName_of_named {name : Option String} {entries : List Json} {entry : Json}
    (h : named name entries = some entry) : itemName entry = name :=
  of_decide_eq_true (List.find?_some (p := fun entry => decide (itemName entry = name)) h)

theorem named_cons {name : Option String} {entry : Json} {entries : List Json} :
    named name (entry :: entries) =
      if itemName entry = name then some entry else named name entries := by
  unfold named
  rw [List.find?_cons]
  by_cases h : itemName entry = name
  · simp [h]
  · simp [h]

variable {name : String} {merge : Json → Json} {item : Json} {base overrides : List Json}

theorem mergeFirst_cons {entry : Json} :
    mergeFirst name merge item (entry :: base) =
      if itemName entry = some name then merge entry :: base
      else entry :: mergeFirst name merge item base := rfl

theorem mem_mergeFirst_self :
    (∀ old, named (some name) base = some old → merge old ∈ mergeFirst name merge item base) ∧
      (named (some name) base = none → item ∈ mergeFirst name merge item base) := by
  induction base with
  | nil => exact ⟨fun old h => (by cases h), fun _ => List.mem_singleton.mpr rfl⟩
  | cons entry base ih =>
    rw [named_cons, mergeFirst_cons]
    by_cases h : itemName entry = some name
    · rw [if_pos h, if_pos h]
      refine ⟨fun old hold => ?_, fun hnone => (by cases hnone)⟩
      rw [Option.some.inj hold]
      exact List.mem_cons_self
    · rw [if_neg h, if_neg h]
      exact ⟨fun old hold => List.mem_cons_of_mem _ (ih.1 old hold),
        fun hnone => List.mem_cons_of_mem _ (ih.2 hnone)⟩

theorem mem_mergeFirst_of_ne {entry : Json} (hmem : entry ∈ base)
    (hne : itemName entry ≠ some name) : entry ∈ mergeFirst name merge item base := by
  induction base with
  | nil => exact absurd hmem List.not_mem_nil
  | cons first base ih =>
    rw [mergeFirst_cons]
    split
    · next hfirst =>
        obtain rfl | hmem := List.mem_cons.mp hmem
        · exact absurd hfirst hne
        · exact List.mem_cons_of_mem _ hmem
    · obtain rfl | hmem := List.mem_cons.mp hmem
      · exact List.mem_cons_self
      · exact List.mem_cons_of_mem _ (ih hmem)

theorem getElem?_mergeFirst {i : Nat} {entry : Json} (hentry : base[i]? = some entry) :
    ∃ now, (mergeFirst name merge item base)[i]? = some now ∧
      (now = entry ∨ named (some name) base = some entry ∧ now = merge entry) := by
  induction base generalizing i with
  | nil => simp at hentry
  | cons first base ih =>
    rw [mergeFirst_cons, named_cons]
    by_cases h : itemName first = some name
    · rw [if_pos h, if_pos h]
      cases i with
      | zero =>
        obtain rfl := Option.some.inj hentry
        exact ⟨merge first, rfl, .inr ⟨rfl, rfl⟩⟩
      | succ i => exact ⟨entry, hentry, .inl rfl⟩
    · rw [if_neg h, if_neg h]
      cases i with
      | zero => exact ⟨first, rfl, .inl (Option.some.inj hentry)⟩
      | succ i => exact ih hentry

theorem named_mergeFirst {other : Option String} (hne : other ≠ some name)
    (hitem : itemName item = some name)
    (hmerge : ∀ entry ∈ base, itemName entry = some name → itemName (merge entry) = some name) :
    named other (mergeFirst name merge item base) = named other base := by
  induction base with
  | nil =>
    rw [mergeFirst, named_cons, if_neg]
    rw [hitem]
    exact Ne.symm hne
  | cons first base ih =>
    rw [mergeFirst_cons]
    split
    · next hfirst =>
        rw [named_cons, named_cons, if_neg, if_neg]
        · rw [hfirst]
          exact Ne.symm hne
        · rw [hmerge first List.mem_cons_self hfirst]
          exact Ne.symm hne
    · rw [named_cons, named_cons, ih fun entry hentry =>
        hmerge entry (List.mem_cons_of_mem _ hentry)]

theorem names_mergeFirst (hitem : itemName item = some name)
    (hmerge : ∀ entry ∈ base, itemName entry = some name → itemName (merge entry) = some name) :
    (mergeFirst name merge item base).map itemName =
      if some name ∈ base.map itemName then base.map itemName
      else base.map itemName ++ [some name] := by
  induction base with
  | nil => simp [mergeFirst, hitem]
  | cons first base ih =>
    have ih := ih fun entry hentry => hmerge entry (List.mem_cons_of_mem _ hentry)
    rw [mergeFirst_cons]
    by_cases h : itemName first = some name
    · rw [if_pos h, List.map_cons, hmerge first List.mem_cons_self h, List.map_cons, h,
        if_pos List.mem_cons_self]
    · rw [if_neg h, List.map_cons, ih, List.map_cons]
      by_cases hmem : some name ∈ base.map itemName
      · rw [if_pos hmem, if_pos (List.mem_cons_of_mem _ hmem)]
      · rw [if_neg hmem, if_neg, List.cons_append]
        rw [List.mem_cons, not_or]
        exact ⟨Ne.symm h, hmem⟩

/-! ## The run over the overrides -/

theorem mergeJson_scalar {base value : Json} (h : isScalar value) :
    mergeJson base value = value := by
  cases value with
  | arr items => cases h
  | obj fields => cases h
  | _ => cases base <;> rfl

theorem itemName_mergeJson {name : Option String} {entry item : Json} (hitem : itemName item = name)
    (hentry : itemName entry = name) (hname : name.isSome) (hordered : Ordered item) :
    itemName (mergeJson entry item) = name := by
  obtain ⟨text, rfl⟩ := Option.isSome_iff_exists.mp hname
  cases entry with
  | obj base =>
    cases item with
    | obj fields =>
      have hfield : (Fields.get "name" fields).bind Json.asStr = some text := hitem
      unfold itemName
      rw [mergeJson, field, get_mergeFields hordered.sorted]
      cases hget : Fields.get "name" fields with
      | none =>
        rw [hget] at hfield
        cases hfield
      | some val =>
        rw [hget] at hfield
        cases val with
        | str s =>
          dsimp only
          rw [mergeJson_scalar rfl]
          exact hfield
        | _ => cases hfield
    | _ => cases hitem
  | _ => cases hentry

def Entries (overrides : List Json) : Prop :=
  ∀ item ∈ overrides, (itemName item).isSome ∧ Ordered item

theorem Entries.tail {item : Json} {overrides : List Json} (h : Entries (item :: overrides)) :
    Entries overrides :=
  fun item hmem => h item (List.mem_cons_of_mem _ hmem)

theorem entries_of_isNamedArray {overrides : List Json} (h : isNamedArray overrides)
    (hordered : ∀ item ∈ overrides, Ordered item) : Entries overrides := by
  unfold isNamedArray at h
  rw [Bool.and_eq_true, List.all_eq_true] at h
  exact fun item hmem => ⟨h.2 item hmem, hordered item hmem⟩

def mergeItem (base : List Json) (item : Json) : List Json :=
  mergeFirst ((itemName item).getD "") (fun entry => mergeJson entry item) item base

theorem mergeItems_cons {item : Json} (h : (itemName item).isSome) :
    mergeItems base (item :: overrides) = mergeItems (mergeItem base item) overrides := by
  obtain ⟨name, hname⟩ := Option.isSome_iff_exists.mp h
  rw [mergeItems, mergeItem, hname]
  rfl

structure MergedItem (base : List Json) (item : Json) (merged : List Json) : Prop where
  found : ∀ old, named (itemName item) base = some old → mergeJson old item ∈ merged
  pushed : named (itemName item) base = none → item ∈ merged
  other : ∀ entry ∈ base, itemName entry ≠ itemName item → entry ∈ merged
  place : ∀ (i : Nat) (entry : Json), base[i]? = some entry → ∃ now, merged[i]? = some now ∧
    (now = entry ∨ named (itemName item) base = some entry ∧ now = mergeJson entry item)
  names : ∀ name, name ≠ itemName item → named name merged = named name base
  once : (base.map itemName).Nodup → (merged.map itemName).Nodup

theorem mergeItem_merged {item : Json} (hname : (itemName item).isSome) (hordered : Ordered item) :
    MergedItem base item (mergeItem base item) := by
  obtain ⟨name, heq⟩ := Option.isSome_iff_exists.mp hname
  have hmerge : ∀ entry ∈ base, itemName entry = some name →
      itemName (mergeJson entry item) = some name :=
    fun entry _ hentry => itemName_mergeJson heq hentry rfl hordered
  unfold mergeItem
  rw [heq, Option.getD_some]
  refine ⟨?_, ?_, ?_, ?_, ?_, ?_⟩
  · rw [heq]
    exact mem_mergeFirst_self.1
  · rw [heq]
    exact mem_mergeFirst_self.2
  · rw [heq]
    exact fun entry => mem_mergeFirst_of_ne
  · rw [heq]
    exact fun i entry => getElem?_mergeFirst
  · rw [heq]
    exact fun other hne => named_mergeFirst hne heq hmerge
  · intro hnodup
    rw [names_mergeFirst heq hmerge]
    split
    · exact hnodup
    · next hmem =>
        refine List.nodup_append.mpr ⟨hnodup, List.nodup_singleton _, fun a ha b hb => ?_⟩
        rw [List.mem_singleton.mp hb]
        exact fun h => hmem (h ▸ ha)

theorem mem_mergeItems_of_not_mem {entry : Json} (hentries : Entries overrides)
    (hmem : entry ∈ base) (hname : itemName entry ∉ overrides.map itemName) :
    entry ∈ mergeItems base overrides := by
  induction overrides generalizing base with
  | nil => exact hmem
  | cons item overrides ih =>
    obtain ⟨hitem, hordered⟩ := hentries item List.mem_cons_self
    rw [List.map_cons, List.mem_cons, not_or] at hname
    rw [mergeItems_cons hitem]
    exact ih hentries.tail ((mergeItem_merged hitem hordered).other entry hmem hname.1) hname.2

theorem mem_mergeItems {item : Json} (hentries : Entries overrides)
    (hnodup : (overrides.map itemName).Nodup) (hmem : item ∈ overrides) :
    (∀ old, named (itemName item) base = some old →
        mergeJson old item ∈ mergeItems base overrides) ∧
      (named (itemName item) base = none → item ∈ mergeItems base overrides) := by
  induction overrides generalizing base with
  | nil => exact absurd hmem List.not_mem_nil
  | cons first overrides ih =>
    obtain ⟨hfirst, hordered⟩ := hentries first List.mem_cons_self
    obtain ⟨hnot, hnodup⟩ := List.nodup_cons.mp hnodup
    have hmerged := @mergeItem_merged base first hfirst hordered
    rw [mergeItems_cons hfirst]
    obtain rfl | hmem := List.mem_cons.mp hmem
    · refine ⟨fun old hold => ?_, fun hnone => ?_⟩
      · refine mem_mergeItems_of_not_mem hentries.tail (hmerged.found old hold) ?_
        rw [itemName_mergeJson rfl (itemName_of_named hold) hfirst hordered]
        exact hnot
      · exact mem_mergeItems_of_not_mem hentries.tail (hmerged.pushed hnone) hnot
    · have hne : itemName item ≠ itemName first := fun heq =>
        hnot (heq ▸ List.mem_map_of_mem hmem)
      rw [← hmerged.names _ hne]
      exact ih hentries.tail hnodup hmem

theorem getElem?_mergeItems {i : Nat} {entry : Json} (hentries : Entries overrides)
    (hnodup : (overrides.map itemName).Nodup) (hentry : base[i]? = some entry) :
    ∃ now, (mergeItems base overrides)[i]? = some now ∧
      (now = entry ∨ ∃ item ∈ overrides, named (itemName item) base = some entry ∧
        now = mergeJson entry item) := by
  induction overrides generalizing base entry with
  | nil => exact ⟨entry, hentry, .inl rfl⟩
  | cons first overrides ih =>
    obtain ⟨hfirst, hordered⟩ := hentries first List.mem_cons_self
    obtain ⟨hnot, hnodup⟩ := List.nodup_cons.mp hnodup
    have hmerged := @mergeItem_merged base first hfirst hordered
    have hne : ∀ item ∈ overrides, itemName item ≠ itemName first := fun item hmem heq =>
      hnot (heq ▸ List.mem_map_of_mem hmem)
    obtain ⟨now, hnow, hfrom⟩ := hmerged.place i entry hentry
    obtain ⟨last, hlast, hstep⟩ := ih hentries.tail hnodup hnow
    rw [mergeItems_cons hfirst]
    refine ⟨last, hlast, ?_⟩
    obtain rfl | ⟨item, hmem, hnamed, rfl⟩ := hstep
    · obtain rfl | ⟨hnamed, rfl⟩ := hfrom
      · exact .inl rfl
      · exact .inr ⟨first, List.mem_cons_self, hnamed, rfl⟩
    · rw [hmerged.names _ (hne item hmem)] at hnamed
      obtain rfl | ⟨hold, rfl⟩ := hfrom
      · exact .inr ⟨item, List.mem_cons_of_mem _ hmem, hnamed, rfl⟩
      · have hname := itemName_of_named hnamed
        rw [itemName_mergeJson rfl (itemName_of_named hold) hfirst hordered] at hname
        exact absurd hname.symm (hne item hmem)

theorem names_mergeItems (hentries : Entries overrides) (hnodup : (base.map itemName).Nodup) :
    ((mergeItems base overrides).map itemName).Nodup := by
  induction overrides generalizing base with
  | nil => exact hnodup
  | cons item overrides ih =>
    obtain ⟨hitem, hordered⟩ := hentries item List.mem_cons_self
    rw [mergeItems_cons hitem]
    exact ih hentries.tail ((mergeItem_merged hitem hordered).once hnodup)

/-! ## The two laws -/

theorem keptEntry_self (overrides : List Json) (entry : Json) :
    KeptEntry overrides entry entry := by
  induction overrides with
  | nil => rw [KeptEntry]
  | cons item overrides ih =>
    rw [KeptEntry]
    split
    · exact .inl rfl
    · exact ih

theorem keptEntry_of_mem {item entry now : Json} (hnodup : (overrides.map itemName).Nodup)
    (hmem : item ∈ overrides) (hname : itemName entry = itemName item) (h : Kept entry item now) :
    KeptEntry overrides entry now := by
  induction overrides with
  | nil => exact absurd hmem List.not_mem_nil
  | cons first overrides ih =>
    obtain ⟨hnot, hnodup⟩ := List.nodup_cons.mp hnodup
    rw [KeptEntry, hname]
    obtain rfl | hmem := List.mem_cons.mp hmem
    · rw [if_pos rfl]
      exact .inr h
    · have hne : itemName first ≠ itemName item := fun heq =>
        hnot (heq ▸ List.mem_map_of_mem hmem)
      rw [if_neg hne]
      exact ih hnodup hmem

theorem sets_scalar_iff {base value result : Json} (h : isScalar value) :
    Sets base value result ↔ result = value := by
  cases value with
  | arr items => cases h
  | obj fields => cases h
  | _ => cases base <;> simp only [Sets]

theorem kept_scalar {base value result : Json} (h : isScalar value) : Kept base value result := by
  cases value with
  | arr items => cases h
  | obj fields => cases h
  | _ => cases base <;> simp only [Kept]

private theorem scalar_sets_kept {base value : Json} (h : isScalar value) :
    Sets base value (mergeJson base value) ∧ Kept base value (mergeJson base value) :=
  ⟨(sets_scalar_iff h).mpr (mergeJson_scalar h), kept_scalar h⟩

theorem mergeJson_sets_kept {base overrides : Json} (hordered : Ordered overrides)
    (honce : NamesOnce base overrides) :
    Sets base overrides (mergeJson base overrides) ∧
      Kept base overrides (mergeJson base overrides) := by
  induction hordered generalizing base with
  | null => exact scalar_sets_kept rfl
  | bool b => exact scalar_sets_kept rfl
  | num n => exact scalar_sets_kept rfl
  | str s => exact scalar_sets_kept rfl
  | @arr overrides h ih =>
    cases base with
    | arr base =>
      rw [NamesOnce] at honce
      rw [mergeJson, Sets, Kept]
      split
      · next hnamed =>
          rw [if_pos hnamed] at honce
          obtain ⟨hnodup, hitems⟩ := honce
          rw [namesOnceItems_iff] at hitems
          have hentries := entries_of_isNamedArray (Bool.and_eq_true_iff.mp hnamed).2 h
          refine ⟨⟨_, rfl, setsItems_iff.mpr fun item hmem => ?_⟩, _, rfl,
            fun i entry hentry => ?_⟩
          · have hresult := @mem_mergeItems base _ _ hentries hnodup hmem
            cases hold : named (itemName item) base with
            | none => exact ⟨item, hresult.2 hold, fun old h => (by cases h), fun _ => rfl⟩
            | some old =>
              refine ⟨_, hresult.1 old hold, fun old' h => ?_, fun h => (by cases h)⟩
              obtain rfl := Option.some.inj h
              exact (ih item hmem (hitems item hmem old hold)).1
          · obtain ⟨now, hnow, hfrom⟩ := getElem?_mergeItems hentries hnodup hentry
            refine ⟨now, hnow, ?_⟩
            obtain rfl | ⟨item, hmem, hold, rfl⟩ := hfrom
            · exact keptEntry_self _ _
            · exact keptEntry_of_mem hnodup hmem (itemName_of_named hold)
                (ih item hmem (hitems item hmem entry hold)).2
      · exact ⟨rfl, trivial⟩
    | _ => simp only [mergeJson, Sets, Kept, and_self]
  | @obj overrides hkeys h ih =>
    cases base with
    | obj base =>
      rw [NamesOnce, namesOnceFields_iff] at honce
      rw [mergeJson, Sets, Kept]
      refine ⟨⟨_, rfl, setsFields_iff.mpr fun e he => ?_⟩, _, rfl, fun key hkey => ?_,
        keptFields_iff.mpr fun e he => ?_⟩
      · refine ⟨_, ?_, (ih e he (honce e he)).1⟩
        rw [get_mergeFields hkeys, Fields.get_of_mem hkeys.nodup_keys he]
      · rw [get_mergeFields hkeys, hkey]
      · refine ⟨_, ?_, (ih e he (honce e he)).2⟩
        rw [get_mergeFields hkeys, Fields.get_of_mem hkeys.nodup_keys he]
    | _ => simp only [mergeJson, Sets, Kept, and_self]

/-! ## Where a value is lost -/

theorem Sets.field {old item entry value : Json} {key : String} (h : Sets old item entry)
    (hold : (itemName old).isSome) (hvalue : field key item = some value)
    (hscalar : isScalar value) : field key entry = some value := by
  cases old with
  | obj base =>
    cases item with
    | obj overrides =>
      rw [Sets] at h
      obtain ⟨fields, rfl, hfields⟩ := h
      obtain ⟨now, hnow, hsets⟩ := setsFields_iff.mp hfields _ (Fields.mem_of_get hvalue)
      rw [(sets_scalar_iff hscalar).mp hsets] at hnow
      exact hnow
    | _ => cases hvalue
  | _ => cases hold

theorem field_name_of_itemName {item : Json} {name : String} (h : itemName item = some name) :
    field "name" item = some (.str name) := by
  unfold itemName at h
  cases hfield : field "name" item with
  | none =>
    rw [hfield] at h
    cases h
  | some value =>
    rw [hfield] at h
    cases value with
    | str s =>
      obtain rfl := Option.some.inj h
      rfl
    | _ => cases h

theorem itemName_of_field_name {item : Json} {name : String}
    (h : field "name" item = some (.str name)) : itemName item = some name := by
  unfold itemName
  rw [h]
  rfl

theorem SetsItems.entry {items : List Json} {item : Json} (h : SetsItems base overrides items)
    (hentries : Entries overrides) (hmem : item ∈ overrides) :
    ∃ entry ∈ items, itemName entry = itemName item ∧
      (∀ old, named (itemName item) base = some old → Sets old item entry) ∧
      ∀ key value, field key item = some value → isScalar value →
        field key entry = some value := by
  obtain ⟨entry, hentry, hsets, hpushed⟩ := setsItems_iff.mp h item hmem
  have hkept : ∀ key value, field key item = some value → isScalar value →
      field key entry = some value := by
    intro key value hvalue hscalar
    cases hold : named (itemName item) base with
    | none =>
      rw [hpushed hold]
      exact hvalue
    | some old =>
      refine (hsets old hold).field ?_ hvalue hscalar
      rw [itemName_of_named hold]
      exact (hentries item hmem).1
  refine ⟨entry, hentry, ?_, hsets, hkept⟩
  obtain ⟨name, hname⟩ := Option.isSome_iff_exists.mp (hentries item hmem).1
  rw [hname]
  exact itemName_of_field_name (hkept _ _ (field_name_of_itemName hname) rfl)

theorem not_sets_of_overwrites {base overrides : Json} (hordered : Ordered overrides)
    (h : Overwrites base overrides) : ¬ Sets base overrides (mergeJson base overrides) := by
  induction h with
  | @field base overrides key val hget h ih =>
    rw [mergeJson, Sets]
    rintro ⟨fields, heq, hsets⟩
    obtain rfl := Json.obj.inj heq
    obtain ⟨value, hvalue, hsets⟩ := setsFields_iff.mp hsets _ (Fields.mem_of_get hget)
    rw [get_mergeFields hordered.sorted, hget] at hvalue
    obtain rfl := Option.some.inj hvalue
    exact ih (hordered.value hget) hsets
  | @entry base overrides old item hnamed hbase honce hmem hold h ih =>
    have hentries := entries_of_isNamedArray (Bool.and_eq_true_iff.mp hnamed).2
      fun item hitem => hordered.item hitem
    rw [mergeJson, Sets, if_pos hnamed, if_pos hnamed]
    rintro ⟨items, heq, hsets⟩
    obtain rfl := Json.arr.inj heq
    obtain ⟨entry, hentry, hname, hsets, _⟩ := hsets.entry hentries hmem
    have hmerged := (mem_mergeItems hentries honce hmem).1 old hold
    have hsame : entry = mergeJson old item := by
      refine List.inj_on_of_nodup_map (names_mergeItems hentries hbase) hentry hmerged ?_
      rw [hname]
      exact (itemName_mergeJson rfl (itemName_of_named hold) (hentries item hmem).1
        (hentries item hmem).2).symm
    rw [hsame] at hsets
    exact ih (hordered.item hmem) (hsets old hold)
  | @twice base overrides item item' value value' key hnamed hbase hmem hmem' hname hvalue hvalue'
      hscalar hscalar' hne =>
      have hentries := entries_of_isNamedArray (Bool.and_eq_true_iff.mp hnamed).2
        fun item hitem => hordered.item hitem
      rw [mergeJson, Sets, if_pos hnamed, if_pos hnamed]
      rintro ⟨items, heq, hsets⟩
      obtain rfl := Json.arr.inj heq
      obtain ⟨entry, hentry, hfirst, _, hkept⟩ := hsets.entry hentries hmem
      obtain ⟨entry', hentry', hsecond, _, hkept'⟩ := hsets.entry hentries hmem'
      have hsame : entry = entry' := by
        refine List.inj_on_of_nodup_map (names_mergeItems hentries hbase) hentry hentry' ?_
        rw [hfirst, hsecond, hname]
      have hread := hkept key value hvalue hscalar
      rw [hsame, hkept' key value' hvalue' hscalar'] at hread
      exact hne (Option.some.inj hread).symm

/-! ## A merge loses nothing where names are given once -/

theorem mergeJson_loses_nothing (base overrides : Json) (hordered : Ordered overrides) :
    (NamesOnce base overrides →
      Sets base overrides (mergeJson base overrides) ∧
        Kept base overrides (mergeJson base overrides)) ∧
      (Overwrites base overrides → ¬ Sets base overrides (mergeJson base overrides)) :=
  ⟨mergeJson_sets_kept hordered, not_sets_of_overwrites hordered⟩

/-! ### One volume mounted twice -/

def workspaceStep : Json :=
  .obj [("containers", .arr [.obj [("name", .str "step"),
    ("volumeMounts", .arr [.obj [("mountPath", .str "/workspace"), ("name", .str "workspace")]])]])]

def dataMount (mountPath : String) : Json :=
  .obj [("mountPath", .str mountPath), ("name", .str "data")]

def stepMounts (mounts : List Json) : Json :=
  .obj [("containers", .arr [.obj [("name", .str "step"), ("volumeMounts", .arr mounts)]])]

private theorem sorted_pair {first second : String} {x y : Json} (h : first < second) :
    Fields.Sorted [(first, x), (second, y)] :=
  List.pairwise_pair.mpr h

theorem ordered_stepMounts {mounts : List Json} (h : ∀ mount ∈ mounts, Ordered mount) :
    Ordered (stepMounts mounts) := by
  refine .obj (List.pairwise_singleton _ _) (List.forall_mem_singleton.mpr (.arr ?_))
  refine List.forall_mem_singleton.mpr (.obj (sorted_pair (by decide +kernel)) ?_)
  exact List.forall_mem_cons.mpr ⟨.str _, List.forall_mem_singleton.mpr (.arr h)⟩

theorem ordered_dataMount (mountPath : String) : Ordered (dataMount mountPath) :=
  .obj (sorted_pair (by decide +kernel))
    (List.forall_mem_cons.mpr ⟨.str _, List.forall_mem_singleton.mpr (.str _)⟩)

theorem ordered_twoMounts : Ordered (stepMounts [dataMount "/a", dataMount "/b"]) :=
  ordered_stepMounts (List.forall_mem_cons.mpr
    ⟨ordered_dataMount "/a", List.forall_mem_singleton.mpr (ordered_dataMount "/b")⟩)

theorem overwrites_twoMounts :
    Overwrites workspaceStep (stepMounts [dataMount "/a", dataMount "/b"]) := by
  refine @Overwrites.field _ _ "containers" _ rfl ?_
  refine @Overwrites.entry _ _ _ _ (by decide) (by decide) (by decide) List.mem_cons_self rfl ?_
  refine @Overwrites.field _ _ "volumeMounts" _ rfl ?_
  exact @Overwrites.twice _ _ (dataMount "/a") (dataMount "/b") (.str "/a") (.str "/b") "mountPath"
    (by decide) (by decide) (by simp) (by simp) rfl rfl rfl rfl rfl (by simp)

theorem mount_lost :
    ¬ Sets workspaceStep (stepMounts [dataMount "/a", dataMount "/b"])
      (mergeJson workspaceStep (stepMounts [dataMount "/a", dataMount "/b"])) :=
  not_sets_of_overwrites ordered_twoMounts overwrites_twoMounts

theorem mergeJson_loses_nothing_mount :
    (Sets workspaceStep (stepMounts [dataMount "/a"])
        (mergeJson workspaceStep (stepMounts [dataMount "/a"])) ∧
      Kept workspaceStep (stepMounts [dataMount "/a"])
        (mergeJson workspaceStep (stepMounts [dataMount "/a"]))) ∧
      ¬ Sets workspaceStep (stepMounts [dataMount "/a", dataMount "/b"])
        (mergeJson workspaceStep (stepMounts [dataMount "/a", dataMount "/b"])) := by
  have hordered : Ordered (stepMounts [dataMount "/a"]) :=
    ordered_stepMounts (List.forall_mem_singleton.mpr (ordered_dataMount "/a"))
  refine ⟨(mergeJson_loses_nothing _ _ hordered).1 ?_,
    (mergeJson_loses_nothing _ _ ordered_twoMounts).2 overwrites_twoMounts⟩
  simp [workspaceStep, stepMounts, dataMount, NamesOnce, NamesOnceFields, NamesOnceItems,
    Fields.get, named, itemName, field, Json.asStr, isNamedArray]

end Stroem.Kubernetes
