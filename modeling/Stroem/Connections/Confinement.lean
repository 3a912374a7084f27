import Stroem.Connections

/-!
# Confinement of connections and secrets

A value that the caller supplied is resolved in the caller's bucket alone; what is merged and
resolved afterwards does not touch it.  In that bucket a connection is the caller's own or shared,
and nothing private of another workspace decides which.
-/

namespace Stroem

variable {key : String} {value input out : Json} {schema : InputSchema} {field : InputFieldDef}
  {roles : RoleScope}

namespace Connections

open Foundation RefPins

/-! ## One bucket, field by field -/

def Becomes (scope : ResolveScope) (key : String) (field : InputFieldDef) (value value' : Json) :
    Prop :=
  (value' = value ∧
    (primitiveTypes.contains field.fieldType = true ∨ ∃ fields, value = .obj fields)) ∨
    (primitiveTypes.contains field.fieldType = false ∧
      ∃ connName, value = .str connName ∧ resolveName scope key field connName = .ok value')

section Bucket

variable {scope : ResolveScope}

private theorem resolveField_get {result result' : Fields} {entry : String × InputFieldDef}
    (h : resolveField scope result entry = .ok result') :
    (∀ key, key ≠ entry.1 → Fields.get key result' = Fields.get key result) ∧
      (Fields.get entry.1 result = none → Fields.get entry.1 result' = none) ∧
      ∀ value, Fields.get entry.1 result = some value →
        ∃ value', Fields.get entry.1 result' = some value' ∧
          Becomes scope entry.1 entry.2 value value' := by
  unfold resolveField at h
  split at h
  · rename_i hprim
    cases h
    exact ⟨fun _ _ => rfl, id, fun value hv => ⟨value, hv, Or.inl ⟨rfl, Or.inl hprim⟩⟩⟩
  · rename_i hprim
    split at h
    · rename_i hnone
      cases h
      refine ⟨fun _ _ => rfl, id, fun value hv => ?_⟩
      rw [hnone] at hv
      cases hv
    · rename_i connName hstr
      cases hname : resolveName scope entry.1 entry.2 connName with
      | error e =>
        rw [hname] at h
        cases h
      | ok value' =>
        rw [hname] at h
        cases h
        refine ⟨fun key hkey => Fields.get_insert_of_ne hkey value' result, ?_, ?_⟩
        · intro hnone
          rw [hstr] at hnone
          cases hnone
        · intro value hv
          obtain rfl := Option.some.inj (hstr.symm.trans hv)
          exact ⟨value', Fields.get_insert_self entry.1 value' result,
            Or.inr ⟨by simpa using hprim, connName, rfl, hname⟩⟩
    · rename_i fields hobj
      cases h
      refine ⟨fun _ _ => rfl, id, fun value hv => ⟨value, hv, Or.inl ⟨rfl, Or.inr ⟨fields, ?_⟩⟩⟩⟩
      exact Option.some.inj (hv.symm.trans hobj)
    · cases h

private theorem foldlM_cons_ok {α β : Type} {f : β → α → Except String β} {b b' : β} {a : α}
    {as : List α} (h : (a :: as).foldlM f b = .ok b') :
    ∃ mid, f b a = .ok mid ∧ as.foldlM f mid = .ok b' := by
  rw [List.foldlM_cons] at h
  cases hf : f b a with
  | error e =>
    rw [hf] at h
    cases h
  | ok mid =>
    rw [hf] at h
    exact ⟨mid, rfl, h⟩

private theorem resolveFields_get {entries : List (String × InputFieldDef)} {result out : Fields}
    (hnodup : (entries.map Prod.fst).Nodup)
    (h : entries.foldlM (resolveField scope) result = .ok out)
    (hv : Fields.get key result = some value) :
    ∃ value', Fields.get key out = some value' ∧
      (((∀ field, (key, field) ∉ entries) ∧ value' = value) ∨
        ∃ field, (key, field) ∈ entries ∧ Becomes scope key field value value') := by
  induction entries generalizing result value with
  | nil =>
    cases h
    exact ⟨value, hv, Or.inl ⟨by simp, rfl⟩⟩
  | cons entry entries ih =>
    obtain ⟨mid, hmid, hrest⟩ := foldlM_cons_ok h
    obtain ⟨hothers, -, hthis⟩ := resolveField_get hmid
    obtain ⟨hnot, hnodup⟩ := List.nodup_cons.mp hnodup
    by_cases hkey : key = entry.1
    · subst hkey
      obtain ⟨value', hv', hbecomes⟩ := hthis value hv
      obtain ⟨value'', hv'', hlast⟩ := ih hnodup hrest hv'
      rcases hlast with ⟨-, rfl⟩ | ⟨field, hmem, -⟩
      · exact ⟨value'', hv'', Or.inr ⟨entry.2, List.mem_cons_self, hbecomes⟩⟩
      · exact absurd (List.mem_map.mpr ⟨_, hmem, rfl⟩) hnot
    · rw [← hothers key hkey] at hv
      obtain ⟨value', hv', hlast⟩ := ih hnodup hrest hv
      refine ⟨value', hv', ?_⟩
      rcases hlast with ⟨hnone, heq⟩ | ⟨field, hmem, hbecomes⟩
      · refine Or.inl ⟨fun field hmem => ?_, heq⟩
        rcases List.mem_cons.mp hmem with rfl | hmem
        · exact hkey rfl
        · exact hnone field hmem
      · exact Or.inr ⟨field, List.mem_cons_of_mem entry hmem, hbecomes⟩

theorem resolveConnectionInputsScoped_get
    (h : resolveConnectionInputsScoped input schema scope = .ok out)
    (hv : Fields.get key (asMap input) = some value) :
    ∃ value', Fields.get key (asMap out) = some value' ∧
      (((∀ field, (key, field) ∉ schema.entries) ∧ value' = value) ∨
        ∃ field, (key, field) ∈ schema.entries ∧ Becomes scope key field value value') := by
  unfold resolveConnectionInputsScoped at h
  cases hfold : schema.entries.foldlM (resolveField scope) (asMap input) with
  | error e =>
    rw [hfold] at h
    cases h
  | ok result =>
    rw [hfold] at h
    cases h
    exact resolveFields_get schema.nodup hfold hv

theorem resolveName_obj {connName : String}
    (h : resolveName scope key field connName = .ok value) : ∃ fields, value = .obj fields := by
  unfold resolveName at h
  dsimp only [bind, Except.bind] at h
  split at h
  · cases h
  · split at h
    · cases h
    · split at h
      · cases h
      · exact ⟨_, (Except.ok.inj h).symm⟩

private theorem Becomes.again {scope' : ResolveScope}
    {value' value'' : Json} (h : Becomes scope key field value value')
    (h' : Becomes scope' key field value' value'') : value'' = value' := by
  rcases h' with ⟨heq, -⟩ | ⟨hprim, connName, hstr, -⟩
  · exact heq
  · rcases h with ⟨rfl, hprim' | ⟨fields, hobj⟩⟩ | ⟨-, name, -, hname⟩
    · rw [hprim] at hprim'
      cases hprim'
    · rw [hobj] at hstr
      cases hstr
    · obtain ⟨fields, hobj⟩ := resolveName_obj hname
      rw [hobj] at hstr
      cases hstr

end Bucket

/-! ## Merging defaults -/

private theorem get_insert_of_absent {fields : Fields} {key other : String} {value new : Json}
    (hv : Fields.get key fields = some value)
    (habsent : ¬(Fields.get other fields).isSome = true) :
    Fields.get key (Fields.insert other new fields) = some value := by
  have hne : key ≠ other := by
    rintro rfl
    rw [hv] at habsent
    exact habsent rfl
  rw [Fields.get_insert_of_ne hne]
  exact hv

private theorem field_unique {schema : InputSchema} {key : String} {field field' : InputFieldDef}
    (hmem : (key, field) ∈ schema.entries) (hmem' : (key, field') ∈ schema.entries) :
    field = field' :=
  (Prod.mk.inj (List.inj_on_of_nodup_map schema.nodup hmem hmem' rfl)).2

private theorem mergeDefault_get {env : TemplateEnv} {context : Json} {merged merged' : Fields}
    {entry : String × InputFieldDef} (h : mergeDefault env context merged entry = .ok merged')
    (hv : Fields.get key merged = some value) :
    Fields.get key merged' = some value := by
  unfold mergeDefault at h
  split at h
  · cases h
    exact hv
  · rename_i habsent
    split at h
    · cases h
      exact hv
    · dsimp only [bind, Except.bind] at h
      split at h
      · cases h
      · cases h
        exact get_insert_of_absent hv habsent

theorem mergeActionDefaults_get {env : TemplateEnv} {context : Json}
    (h : mergeActionDefaults env input schema context = .ok out)
    (hv : Fields.get key (asMap input) = some value) :
    Fields.get key (asMap out) = some value := by
  have hfold : ∀ (entries : List (String × InputFieldDef)) (merged result : Fields),
      entries.foldlM (mergeDefault env context) merged = .ok result →
      Fields.get key merged = some value → Fields.get key result = some value := by
    intro entries
    induction entries with
    | nil =>
      intro merged result hrun hm
      cases hrun
      exact hm
    | cons entry entries ih =>
      intro merged result hrun hm
      obtain ⟨mid, hmid, hrest⟩ := foldlM_cons_ok hrun
      exact ih mid result hrest (mergeDefault_get hmid hm)
  unfold mergeActionDefaults at h
  cases hrun : schema.entries.foldlM (mergeDefault env context) (asMap input) with
  | error e =>
    rw [hrun] at h
    cases h
  | ok result =>
    rw [hrun] at h
    cases h
    exact hfold schema.entries (asMap input) result hrun hv

/-! ## What decides a caller's field -/

private theorem tagged_ok {α : Type} {bucket : ProvenanceBucket} {x : Except String α} {a : α}
    (h : tagged bucket x = .ok a) : x = .ok a := by
  cases x with
  | error e => cases h
  | ok b =>
    cases h
    rfl

private theorem withContext_ok {α : Type} {context : String} {x : Except ProvenanceError α} {a : α}
    (h : ProvenanceError.withContext context x = .ok a) : x = .ok a := by
  cases x with
  | error e => cases h
  | ok b =>
    cases h
    rfl

def FromCallerBucket (roles : RoleScope) (schemaRole : RoleConfig) (schema : InputSchema)
    (input out : Json) : Prop :=
  ∃ bucket, resolveBucketByRole input schema roles.caller schemaRole roles.others = .ok bucket ∧
    ∀ key value, Fields.get key (asMap input) = some value →
      Fields.get key (asMap out) = Fields.get key (asMap bucket)

theorem prepareActionInputRoles_fromCallerBucket {env : TemplateEnv}
    (h : prepareActionInputRoles env input schema roles = .ok out) :
    FromCallerBucket roles (roles.actionOwner.getD roles.caller) schema input out := by
  unfold prepareActionInputRoles at h
  dsimp only [bind, Except.bind] at h
  split at h
  · cases h
  · rename_i bucket hbucket
    split at h
    · cases h
    · rename_i merged hmerged
      have hbucket := tagged_ok (withContext_ok hbucket)
      have hmerged := tagged_ok (withContext_ok hmerged)
      have hlast := tagged_ok (withContext_ok h)
      refine ⟨bucket, hbucket, fun key value hv => ?_⟩
      obtain ⟨value', hv', hfirst⟩ := resolveConnectionInputsScoped_get hbucket hv
      have hm := mergeActionDefaults_get hmerged hv'
      obtain ⟨value'', hv'', hagain⟩ := resolveConnectionInputsScoped_get hlast hm
      rw [hv', hv'']
      rcases hagain with ⟨-, rfl⟩ | ⟨field, hmem, hbecomes⟩
      · rfl
      · rcases hfirst with ⟨hnone, -⟩ | ⟨field', hmem', hbecomes'⟩
        · exact absurd hmem (hnone field)
        · obtain rfl := field_unique hmem hmem'
          rw [hbecomes'.again hbecomes]

theorem resolveTaskInputByProvenanceRoles_fromCallerBucket {defaults : Json}
    (h : resolveTaskInputByProvenanceRoles input defaults schema roles = .ok out) :
    FromCallerBucket roles (roles.taskOwner.getD roles.caller) schema input out := by
  have hkept : ∀ (defaults merged : Fields) (key : String) (value : Json),
      Fields.get key merged = some value →
      Fields.get key (defaults.foldl (fun out field =>
        if (Fields.get field.1 out).isSome then out else Fields.insert field.1 field.2 out)
        merged) = some value := by
    intro defaults
    induction defaults with
    | nil => exact fun _ _ _ h => h
    | cons field defaults ih =>
      intro merged key value hv
      refine ih _ key value ?_
      show Fields.get key (if (Fields.get field.1 merged).isSome then merged
        else Fields.insert field.1 field.2 merged) = some value
      split
      · exact hv
      · rename_i habsent
        exact get_insert_of_absent hv habsent
  unfold resolveTaskInputByProvenanceRoles at h
  dsimp only [bind, Except.bind] at h
  split at h
  · cases h
  · rename_i caller hcaller
    split at h
    · cases h
    · rename_i bucket hdefaults
      cases h
      have hcaller := tagged_ok hcaller
      unfold resolveProvenanceBucket at hcaller
      have hbucket : resolveBucketByRole input schema roles.caller
          (roles.taskOwner.getD roles.caller) roles.others = .ok caller := by
        dsimp only [bind, Except.bind] at hcaller
        split at hcaller
        · split at hcaller
          · cases hcaller
          · exact hcaller
        · exact hcaller
      refine ⟨caller, hbucket, fun key value hv => ?_⟩
      obtain ⟨value', hv', -⟩ := resolveConnectionInputsScoped_get hbucket hv
      rw [hv']
      exact hkept _ _ key value' hv'

/-! ## Confinement -/

structure Permitted (lookup : WorkspaceLookup) (callerWs : String)
    (resolved : ResolvedConnection) : Prop where
  found : ∃ config name, lookup.get resolved.workspace = .found config ∧
    config.connections.lookup name = some resolved.def
  ownOrShared : resolved.workspace = callerWs ∨ resolved.def.shared = true

def TypeFits (scope : ResolveScope) (field : InputFieldDef) (resolved : ResolvedConnection) :
    Prop :=
  ∀ declared, resolved.def.connectionType = some declared →
    ∃ ct, canonicalTypeRef field.fieldType scope.schemaWs scope.lookup = .ok ct ∧
      canonicalTypeRef declared resolved.workspace scope.lookup = .ok ct

def IsTypeOf (lookup : WorkspaceLookup) (resolved : ResolvedConnection)
    (typeDef : ConnectionTypeDef) : Prop :=
  ∃ declared ct config, resolved.def.connectionType = some declared ∧
    canonicalTypeRef declared resolved.workspace lookup = .ok ct ∧
    lookup.get ct.workspace = .found config ∧
    config.connectionTypes.lookup ct.name = some typeDef

def IsValueOf (lookup : WorkspaceLookup) (resolved : ResolvedConnection) (value : Json) : Prop :=
  value = .obj (Fields.collect resolved.def.values) ∨
    ∃ typeDef, IsTypeOf lookup resolved typeDef ∧
      value = .obj (Fields.collect (valuesWithTypeDefaults resolved.def typeDef))

/-- Every caller's field is kept, or a permitted connection of the field's type is put in its
place. -/
def Confined (roles : RoleScope) (schemaRole : RoleConfig) (schema : InputSchema)
    (input out : Json) : Prop :=
  let scope := bucketScope roles.caller schemaRole roles.others
  ∀ key value, Fields.get key (asMap input) = some value →
    Fields.get key (asMap out) = some value ∨
      ∃ field resolved value', (key, field) ∈ schema.entries ∧
        Fields.get key (asMap out) = some value' ∧ IsValueOf scope.lookup resolved value' ∧
        Permitted scope.lookup roles.caller.workspace resolved ∧ TypeFits scope field resolved

section Resolve

variable {scope : ResolveScope}

theorem resolveConnectionRef_permitted {connRef : String} {resolved : ResolvedConnection}
    (h : resolveConnectionRef connRef scope = .ok resolved) :
    Permitted scope.lookup scope.valueWs resolved := by
  unfold resolveConnectionRef at h
  split at h
  · cases h
  · cases h
  · rename_i valueCfg hvalue
    split at h
    · rename_i conn hconn
      cases h
      exact ⟨⟨valueCfg, connRef, hvalue, hconn⟩, Or.inl rfl⟩
    · split at h
      · rename_i ws item _
        split at h
        · rename_i cfg hcfg
          split at h
          · rename_i conn hconn
            split at h
            · rename_i hgate
              cases h
              exact ⟨⟨cfg, item, hcfg, hconn⟩, hgate⟩
            · cases h
          · cases h
        · split at h <;> cases h
        · cases h
      · unfold resolveFallback at h
        split at h
        · cases h
        · rename_i fb _
          split at h
          · rename_i cfg hcfg
            split at h
            · rename_i conn hconn
              split at h
              · rename_i hshared
                cases h
                exact ⟨⟨cfg, connRef, hcfg, hconn⟩, Or.inr hshared⟩
              · cases h
            · cases h
          · cases h

theorem foundConfig_eq_ok {lookup : WorkspaceLookup} {ws what : String}
    {config : WorkspaceConfig} (h : foundConfig lookup ws what = .ok config) :
    lookup.get ws = .found config := by
  unfold foundConfig at h
  split at h
  · next heq => rw [heq, Except.ok.inj h]
  · cases h
  · cases h

theorem connectionValues_ok {fieldCt : CanonicalType}
    {resolved : ResolvedConnection} {values : List (String × Json)}
    (h : connectionValues scope key fieldCt resolved = .ok values) :
    (values = resolved.def.values ∨ ∃ typeDef, IsTypeOf scope.lookup resolved typeDef ∧
        values = valuesWithTypeDefaults resolved.def typeDef) ∧
      ∀ declared, resolved.def.connectionType = some declared →
        canonicalTypeRef declared resolved.workspace scope.lookup = .ok fieldCt := by
  unfold connectionValues at h
  dsimp only [bind, Except.bind] at h
  split at h
  · rename_i huntyped
    cases h
    refine ⟨Or.inl rfl, fun declared hd => ?_⟩
    rw [huntyped] at hd
    cases hd
  · rename_i declared hdeclared
    split at h
    · cases h
    · rename_i connCt hconn
      split at h
      · cases h
      · rename_i heq
        have hct : connCt = fieldCt := not_not.mp heq
        have htype : ∀ declared', resolved.def.connectionType = some declared' →
            canonicalTypeRef declared' resolved.workspace scope.lookup = .ok fieldCt := by
          intro declared' hd
          obtain rfl := Option.some.inj (hdeclared.symm.trans hd)
          rw [hconn, hct]
        split at h
        · split at h
          · cases h
          · rename_i config hconfig
            split at h
            · cases h
            · rename_i typeDef htypeDef
              split at h
              · cases h
              · cases h
                exact ⟨Or.inr ⟨typeDef, ⟨declared, connCt, config, hdeclared, hconn,
                  foundConfig_eq_ok hconfig, htypeDef⟩, rfl⟩, htype⟩
        · cases h
          exact ⟨Or.inl rfl, htype⟩

theorem resolveName_ok {connName : String}
    (h : resolveName scope key field connName = .ok value) :
    ∃ resolved, IsValueOf scope.lookup resolved value ∧
      Permitted scope.lookup scope.valueWs resolved ∧
      TypeFits scope field resolved := by
  unfold resolveName at h
  dsimp only [bind, Except.bind] at h
  split at h
  · cases h
  · rename_i fieldCt hfieldCt
    split at h
    · cases h
    · rename_i resolved hresolved
      split at h
      · cases h
      · rename_i values hvalues
        cases h
        obtain ⟨hof, htype⟩ := connectionValues_ok hvalues
        refine ⟨resolved, ?_, resolveConnectionRef_permitted hresolved, ?_⟩
        · rcases hof with rfl | ⟨typeDef, htypeDef, rfl⟩
          · exact Or.inl rfl
          · exact Or.inr ⟨typeDef, htypeDef, rfl⟩
        · intro declared hd
          refine ⟨fieldCt, ?_, htype declared hd⟩
          cases hct : canonicalTypeRef field.fieldType scope.schemaWs scope.lookup with
          | error e =>
            rw [hct] at hfieldCt
            cases hfieldCt
          | ok ct =>
            rw [hct] at hfieldCt
            cases hfieldCt
            rfl

end Resolve

@[simp] private theorem bucketScope_valueWs (value schemaRole : RoleConfig)
    (others : WorkspaceLookup) :
    (bucketScope value schemaRole others).valueWs = value.workspace := by
  unfold bucketScope bucketScopeAt
  split <;> rfl

theorem FromCallerBucket.confined {schemaRole : RoleConfig}
    (h : FromCallerBucket roles schemaRole schema input out) :
    Confined roles schemaRole schema input out := by
  intro key value hv
  obtain ⟨bucket, hbucket, hfrom⟩ := h
  obtain ⟨value', hv', hfield⟩ := resolveConnectionInputsScoped_get hbucket hv
  rw [hfrom key value hv, hv']
  rcases hfield with ⟨-, rfl⟩ | ⟨field, hmem, ⟨rfl, -⟩ | ⟨-, connName, -, hname⟩⟩
  · exact Or.inl rfl
  · exact Or.inl rfl
  · obtain ⟨resolved, hof, hpermitted, hfits⟩ := resolveName_ok hname
    rw [bucketScope_valueWs] at hpermitted
    exact Or.inr ⟨field, resolved, value', hmem, rfl, hof, hpermitted, hfits⟩

/-! ## Two owners that differ in private -/

structure DifferInPrivate (a b : WorkspaceConfig) : Prop where
  connectionTypes : a.connectionTypes = b.connectionTypes
  shared : ∀ name conn, conn.shared = true →
    (a.connections.lookup name = some conn ↔ b.connections.lookup name = some conn)

def LookupsDiffer : Lookup → Lookup → Prop
  | .found a, .found b => DifferInPrivate a b
  | .unknown, .unknown => True
  | .unavailable, .unavailable => True
  | _, _ => False

def OwnersDiffer (callerWs : String) : Option RoleConfig → Option RoleConfig → Prop
  | none, none => True
  | some a, some b => a.workspace = b.workspace ∧
      (a.workspace = callerWs → a.config = b.config) ∧ DifferInPrivate a.config b.config
  | _, _ => False

structure RolesDiffer (a b : RoleScope) : Prop where
  caller : a.caller = b.caller
  actionOwner : OwnersDiffer a.caller.workspace a.actionOwner b.actionOwner
  taskOwner : OwnersDiffer a.caller.workspace a.taskOwner b.taskOwner
  others : ∀ ws, ws ≠ a.caller.workspace → LookupsDiffer (a.others.get ws) (b.others.get ws)

def SameCallerFields (input out out' : Json) : Prop :=
  ∀ key value, Fields.get key (asMap input) = some value →
    Fields.get key (asMap out) = Fields.get key (asMap out')

theorem DifferInPrivate.refl (a : WorkspaceConfig) : DifferInPrivate a a :=
  ⟨rfl, fun _ _ _ => Iff.rfl⟩

private theorem LookupsDiffer.refl (x : Lookup) : LookupsDiffer x x := by
  cases x with
  | found config => exact DifferInPrivate.refl config
  | unknown => trivial
  | unavailable => trivial

private theorem LookupsDiffer.cases {x y : Lookup} (h : LookupsDiffer x y) :
    (∃ a b, x = .found a ∧ y = .found b ∧ DifferInPrivate a b) ∨
      (x = .unknown ∧ y = .unknown) ∨ x = .unavailable ∧ y = .unavailable := by
  cases x <;> cases y
  case found.found a b => exact Or.inl ⟨a, b, rfl, rfl, h⟩
  case unknown.unknown => exact Or.inr (Or.inl ⟨rfl, rfl⟩)
  case unavailable.unavailable => exact Or.inr (Or.inr ⟨rfl, rfl⟩)
  all_goals cases h

structure ScopesDiffer (a b : ResolveScope) : Prop where
  schemaWs : a.schemaWs = b.schemaWs
  valueWs : a.valueWs = b.valueWs
  fallbackWs : a.fallbackWs = b.fallbackWs
  own : a.lookup.get a.valueWs = b.lookup.get a.valueWs
  others : ∀ ws, LookupsDiffer (a.lookup.get ws) (b.lookup.get ws)

section NonInterference

variable {a b : ResolveScope}

private theorem ScopesDiffer.bucketScope {value schema schema' : RoleConfig}
    {others others' : WorkspaceLookup} (hws : schema.workspace = schema'.workspace)
    (hown : schema.workspace = value.workspace → schema.config = schema'.config)
    (hdiffer : DifferInPrivate schema.config schema'.config)
    (hothers : ∀ ws, ws ≠ value.workspace → LookupsDiffer (others.get ws) (others'.get ws)) :
    ScopesDiffer (bucketScope value schema others) (bucketScope value schema' others') := by
  unfold Connections.bucketScope bucketScopeAt
  by_cases hsame : value.workspace = schema.workspace
  · have hconfig := hown hsame.symm
    rw [if_pos hsame, if_pos (hsame.trans hws), ← hconfig]
    refine ⟨hws, rfl, rfl, by simp [roleLookup], fun ws => ?_⟩
    simp only [roleLookup]
    split
    · exact LookupsDiffer.refl _
    · rename_i hne
      exact hothers ws hne
  · rw [if_neg hsame, if_neg (by rwa [← hws])]
    refine ⟨hws, rfl, congrArg some hws, by simp [roleLookup], fun ws => ?_⟩
    simp only [roleLookup]
    split
    · exact LookupsDiffer.refl _
    · rename_i hne
      rw [← hws]
      split
      · exact hdiffer
      · exact hothers ws hne

private theorem ScopesDiffer.canonicalTypeRef (h : ScopesDiffer a b) (typeRef ws : String) :
    canonicalTypeRef typeRef ws a.lookup = canonicalTypeRef typeRef ws b.lookup := by
  unfold Connections.canonicalTypeRef foundConfig
  rcases (h.others ws).cases with ⟨ca, cb, hca, hcb, hdiffer⟩ | ⟨hca, hcb⟩ | ⟨hca, hcb⟩
  · simp only [hca, hcb, bind, Except.bind, hdiffer.connectionTypes]
    cases hq : parseQualifiedRef typeRef with
    | mk qualifier item =>
      cases qualifier with
      | none => rfl
      | some other =>
        rcases (h.others other).cases with ⟨da, db, hda, hdb, hdiffer'⟩ |
            ⟨hda, hdb⟩ | ⟨hda, hdb⟩
        · simp only [hda, hdb, hdiffer'.connectionTypes]
        · simp only [hda, hdb]
        · simp only [hda, hdb]
  · simp only [hca, hcb, bind, Except.bind]
  · simp only [hca, hcb, bind, Except.bind]

private theorem eq_of_shared {ca cb : WorkspaceConfig} (h : DifferInPrivate ca cb) {name : String}
    {x y : ConnectionDef} (hx : ca.connections.lookup name = some x) (hshared : x.shared = true)
    (hy : cb.connections.lookup name = some y) : x = y :=
  Option.some.inj (((h.shared name x hshared).mp hx).symm.trans hy)

private theorem ScopesDiffer.resolveFallback (h : ScopesDiffer a b) {connRef : String}
    {x y : ResolvedConnection} (hx : resolveFallback connRef a = .ok x)
    (hy : resolveFallback connRef b = .ok y) : x = y := by
  unfold Connections.resolveFallback at hx hy
  rw [← h.fallbackWs, ← h.valueWs] at hy
  split at hx
  · cases hx
  · rename_i fb hfb
    rw [hfb] at hy
    dsimp only at hy
    split at hx
    · rename_i ca hca
      split at hx
      · rename_i conn hconn
        split at hx
        · rename_i hshared
          rcases (h.others fb).cases with ⟨ca', cb, hca', hcb, hdiffer⟩ | ⟨hca', -⟩ | ⟨hca', -⟩
          · obtain rfl : ca = ca' := by simpa [hca] using hca'
            have hconn' := (hdiffer.shared connRef conn hshared).mp hconn
            simp only [hcb, hconn', if_pos hshared] at hy
            exact (Except.ok.inj hx).symm.trans (Except.ok.inj hy)
          · rw [hca] at hca'
            cases hca'
          · rw [hca] at hca'
            cases hca'
        · cases hx
      · cases hx
    · cases hx

private theorem ScopesDiffer.resolveConnectionRef (h : ScopesDiffer a b) {connRef : String}
    {x y : ResolvedConnection} (hx : resolveConnectionRef connRef a = .ok x)
    (hy : resolveConnectionRef connRef b = .ok y) : x = y := by
  unfold Connections.resolveConnectionRef at hx hy
  rw [← h.valueWs, ← h.own] at hy
  cases hvalue : a.lookup.get a.valueWs with
  | unknown =>
    rw [hvalue] at hx
    cases hx
  | unavailable =>
    rw [hvalue] at hx
    cases hx
  | found valueCfg =>
    simp only [hvalue] at hx hy
    cases hlocal : valueCfg.connections.lookup connRef with
    | some conn =>
      simp only [hlocal] at hx hy
      exact (Except.ok.inj hx).symm.trans (Except.ok.inj hy)
    | none =>
      simp only [hlocal] at hx hy
      cases hq : parseQualifiedRef connRef with
      | mk qualifier item =>
        cases qualifier with
        | none =>
          simp only [hq] at hx hy
          exact h.resolveFallback hx hy
        | some ws =>
          simp only [hq] at hx hy
          rcases (h.others ws).cases with ⟨ca, cb, hca, hcb, hdiffer⟩ |
              ⟨hca, -⟩ | ⟨hca, -⟩
          · simp only [hca] at hx
            simp only [hcb] at hy
            split at hx
            · rename_i conn hconn
              split at hy
              · rename_i conn' hconn'
                split at hx
                · rename_i hgate
                  split at hy
                  · have hsame : conn = conn' := by
                      rcases hgate with hown | hshared
                      · have hcfg : ca = cb := by
                          have hget := h.own
                          rw [← hown, hca, hcb] at hget
                          injection hget
                        rw [← hcfg, hconn] at hconn'
                        exact Option.some.inj hconn'
                      · exact eq_of_shared hdiffer hconn hshared hconn'
                    rw [← hsame] at hy
                    exact (Except.ok.inj hx).symm.trans (Except.ok.inj hy)
                  · cases hy
                · cases hx
              · cases hy
            · cases hx
          · simp only [hca] at hx
            split at hx <;> cases hx
          · simp only [hca] at hx
            cases hx

private theorem ScopesDiffer.connectionValues (h : ScopesDiffer a b)
    {fieldCt : CanonicalType} {resolved : ResolvedConnection} :
    connectionValues a key fieldCt resolved = connectionValues b key fieldCt resolved := by
  unfold Connections.connectionValues
  cases hdeclared : resolved.def.connectionType with
  | none => rfl
  | some declared =>
    simp only [h.canonicalTypeRef]
    cases Connections.canonicalTypeRef declared resolved.workspace b.lookup with
    | error e => rfl
    | ok connCt =>
      unfold foundConfig
      rcases (h.others connCt.workspace).cases with ⟨ca, cb, hca, hcb, hdiffer⟩ |
          ⟨hca, hcb⟩ | ⟨hca, hcb⟩
      · simp only [hca, hcb, bind, Except.bind, hdiffer.connectionTypes]
      · simp only [hca, hcb, bind, Except.bind]
      · simp only [hca, hcb, bind, Except.bind]

private theorem ScopesDiffer.resolveName (h : ScopesDiffer a b) {connName : String}
    {x y : Json} (hx : resolveName a key field connName = .ok x)
    (hy : resolveName b key field connName = .ok y) : x = y := by
  unfold Connections.resolveName at hx hy
  rw [← h.canonicalTypeRef, ← h.schemaWs] at hy
  dsimp only [bind, Except.bind] at hx hy
  split at hx
  · cases hx
  · rename_i fieldCt hfieldCt
    rw [hfieldCt] at hy
    dsimp only at hy
    split at hx
    · cases hx
    · rename_i resolved hresolved
      split at hy
      · cases hy
      · rename_i resolved' hresolved'
        obtain rfl := h.resolveConnectionRef hresolved hresolved'
        rw [← h.connectionValues] at hy
        exact Except.ok.inj (hx.symm.trans hy)

private theorem ScopesDiffer.sameFields (h : ScopesDiffer a b) {out' : Json}
    (hout : resolveConnectionInputsScoped input schema a = .ok out)
    (hout' : resolveConnectionInputsScoped input schema b = .ok out') :
    SameCallerFields input out out' := by
  intro key value hv
  obtain ⟨x, hx, hfield⟩ := resolveConnectionInputsScoped_get hout hv
  obtain ⟨y, hy, hfield'⟩ := resolveConnectionInputsScoped_get hout' hv
  rw [hx, hy]
  rcases hfield with ⟨hnone, rfl⟩ | ⟨field, hmem, hbecomes⟩
  · rcases hfield' with ⟨-, rfl⟩ | ⟨field, hmem, -⟩
    · rfl
    · exact absurd hmem (hnone field)
  · rcases hfield' with ⟨hnone, -⟩ | ⟨field', hmem', hbecomes'⟩
    · exact absurd hmem (hnone field)
    · obtain rfl := field_unique hmem hmem'
      congr 1
      rcases hbecomes with ⟨rfl, hkept⟩ | ⟨hprim, connName, rfl, hname⟩
      · rcases hbecomes' with ⟨rfl, -⟩ | ⟨hprim, connName, rfl, -⟩
        · rfl
        · rcases hkept with hkept | ⟨fields, hobj⟩
          · rw [hprim] at hkept
            cases hkept
          · cases hobj
      · rcases hbecomes' with ⟨-, hkept⟩ | ⟨-, connName', hstr, hname'⟩
        · rcases hkept with hkept | ⟨fields, hobj⟩
          · rw [hprim] at hkept
            cases hkept
          · cases hobj
        · obtain rfl : connName = connName' := by simpa using hstr
          exact h.resolveName hname hname'

private theorem OwnersDiffer.getD {callerWs : String} {x y : Option RoleConfig}
    (h : OwnersDiffer callerWs x y) (caller : RoleConfig) :
    (x.getD caller).workspace = (y.getD caller).workspace ∧
      ((x.getD caller).workspace = callerWs → (x.getD caller).config = (y.getD caller).config) ∧
      DifferInPrivate (x.getD caller).config (y.getD caller).config := by
  cases x <;> cases y
  case none.none => exact ⟨rfl, fun _ => rfl, DifferInPrivate.refl _⟩
  case some.some => exact h
  all_goals cases h

private theorem sameCallerFields_of_owner {roles' : RoleScope} {x y : Option RoleConfig}
    (hroles : RolesDiffer roles roles') (howner : OwnersDiffer roles.caller.workspace x y)
    {out' : Json}
    (hout : FromCallerBucket roles (x.getD roles.caller) schema input out)
    (hout' : FromCallerBucket roles' (y.getD roles'.caller) schema input out') :
    SameCallerFields input out out' := by
  obtain ⟨bucket, hbucket, hfrom⟩ := hout
  obtain ⟨bucket', hbucket', hfrom'⟩ := hout'
  rw [← hroles.caller] at hbucket'
  obtain ⟨hws, hown, hdiffer⟩ := howner.getD roles.caller
  have hscopes := ScopesDiffer.bucketScope hws hown hdiffer hroles.others
  intro key value hv
  rw [hfrom key value hv, hfrom' key value hv]
  exact hscopes.sameFields hbucket hbucket' key value hv

end NonInterference

/--
Connections cross a workspace boundary only where they are shared, and what a caller gets says
nothing about secrets and unshared connections of others.
-/
theorem connections_confined (env : TemplateEnv) (schema : InputSchema) (input : Json) :
    (∀ roles out, prepareActionInputRoles env input schema roles = .ok out →
        Confined roles (roles.actionOwner.getD roles.caller) schema input out) ∧
      (∀ roles defaults out,
        resolveTaskInputByProvenanceRoles input defaults schema roles = .ok out →
        Confined roles (roles.taskOwner.getD roles.caller) schema input out) ∧
      ∀ roles roles', RolesDiffer roles roles' →
        (∀ out out', prepareActionInputRoles env input schema roles = .ok out →
          prepareActionInputRoles env input schema roles' = .ok out' →
          SameCallerFields input out out') ∧
        ∀ defaults defaults' out out',
          resolveTaskInputByProvenanceRoles input defaults schema roles = .ok out →
          resolveTaskInputByProvenanceRoles input defaults' schema roles' = .ok out' →
          SameCallerFields input out out' := by
  refine ⟨?_, ?_, fun roles roles' hroles => ⟨?_, ?_⟩⟩
  · intro roles out hout
    exact (prepareActionInputRoles_fromCallerBucket hout).confined
  · intro roles defaults out hout
    exact (resolveTaskInputByProvenanceRoles_fromCallerBucket hout).confined
  · intro out out' hout hout'
    exact sameCallerFields_of_owner hroles hroles.actionOwner
      (prepareActionInputRoles_fromCallerBucket hout)
      (prepareActionInputRoles_fromCallerBucket hout')
  · intro defaults defaults' out out' hout hout'
    exact sameCallerFields_of_owner hroles hroles.taskOwner
      (resolveTaskInputByProvenanceRoles_fromCallerBucket hout)
      (resolveTaskInputByProvenanceRoles_fromCallerBucket hout')

def ownerConfig (token vault : String) : WorkspaceConfig where
  secrets := [("token", .str token)]
  connections :=
    [("db", { shared := true, values := [("host", .str "db.internal")] }),
      ("vault", { values := [("password", .str vault)] })]

def twoTeams (token vault : String) : RoleScope where
  caller := ⟨"team", {}⟩
  actionOwner := some ⟨"infra", ownerConfig token vault⟩
  taskOwner := some ⟨"infra", ownerConfig token vault⟩
  others := { localName := "team", get := fun _ => .unknown }

def backupSchema : InputSchema where
  entries := [("db", { fieldType := "postgres" }),
    ("target", { fieldType := "postgres", default := some (.str "vault") })]
  nodup := by decide

private theorem twoTeams_differ : RolesDiffer (twoTeams "a" "b") (twoTeams "c" "d") := by
  have hdiffer : DifferInPrivate (ownerConfig "a" "b") (ownerConfig "c" "d") := by
    refine ⟨rfl, fun name conn hshared => ?_⟩
    simp only [ownerConfig, List.lookup_cons, List.lookup_nil]
    split
    · exact Iff.rfl
    · split
      · constructor
        · intro h
          rw [← Option.some.inj h] at hshared
          cases hshared
        · intro h
          rw [← Option.some.inj h] at hshared
          cases hshared
      · exact Iff.rfl
  have howner : OwnersDiffer "team" (some ⟨"infra", ownerConfig "a" "b"⟩)
      (some ⟨"infra", ownerConfig "c" "d"⟩) :=
    ⟨rfl, fun h => absurd h (by decide), hdiffer⟩
  exact ⟨rfl, howner, howner, fun _ _ => trivial⟩

theorem connections_confined_twoTeams :
    ∃ out out' task task',
      Confined (twoTeams "a" "b") ⟨"infra", ownerConfig "a" "b"⟩ backupSchema
        (.obj [("db", .str "db")]) out ∧
      Confined (twoTeams "a" "b") ⟨"infra", ownerConfig "a" "b"⟩ backupSchema
        (.obj [("db", .str "db")]) task ∧
      SameCallerFields (.obj [("db", .str "db")]) out out' ∧
      SameCallerFields (.obj [("db", .str "db")]) task task' ∧
      Fields.get "target" (asMap out) ≠ Fields.get "target" (asMap out') := by
  obtain ⟨hprepare, htask, hsame⟩ :=
    connections_confined literalEnv backupSchema (.obj [("db", .str "db")])
  obtain ⟨hsame, hsame'⟩ := hsame (twoTeams "a" "b") (twoTeams "c" "d") twoTeams_differ
  have hout : prepareActionInputRoles literalEnv (.obj [("db", .str "db")]) backupSchema
      (twoTeams "a" "b") = .ok (.obj [("db", .obj [("host", .str "db.internal")]),
        ("target", .obj [("password", .str "b")])]) := by decide +kernel
  have hout' : prepareActionInputRoles literalEnv (.obj [("db", .str "db")]) backupSchema
      (twoTeams "c" "d") = .ok (.obj [("db", .obj [("host", .str "db.internal")]),
        ("target", .obj [("password", .str "d")])]) := by decide +kernel
  have hchild : resolveTaskInputByProvenanceRoles (.obj [("db", .str "db")]) (.obj [])
      backupSchema (twoTeams "a" "b") =
        .ok (.obj [("db", .obj [("host", .str "db.internal")])]) := by decide +kernel
  have hchild' : resolveTaskInputByProvenanceRoles (.obj [("db", .str "db")]) (.obj [])
      backupSchema (twoTeams "c" "d") =
        .ok (.obj [("db", .obj [("host", .str "db.internal")])]) := by decide +kernel
  exact ⟨_, _, _, _, hprepare _ _ hout, htask _ _ _ hchild, hsame _ _ hout hout',
    hsame' _ _ _ _ hchild hchild', by decide⟩

end Connections

end Stroem
