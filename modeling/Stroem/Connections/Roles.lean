import Stroem.Connections

/-!
# Resolution by role

A role brings its own configuration, so that two commits of one workspace can take part in one
resolution.  Where the configurations are the ones that the lookup has, resolving by role is
resolving by name; between two commits the names of the value commit win.
-/

namespace Stroem.Connections

open RefPins

def namedScope (value schemaRole : RoleConfig) (lookup : WorkspaceLookup) : ResolveScope where
  lookup := lookup
  schemaWs := schemaRole.workspace
  valueWs := value.workspace
  fallbackWs := if value.workspace = schemaRole.workspace then none else some schemaRole.workspace

def PtrEq (samePtr : Bool) (value schemaRole : RoleConfig) : Prop :=
  samePtr = true → value.config = schemaRole.config

/-! ## What resolution reads -/

structure SameNames (a b : WorkspaceConfig) : Prop where
  connections : ∀ name, a.connections.lookup name = b.connections.lookup name
  connectionTypes : ∀ name, a.connectionTypes.lookup name = b.connectionTypes.lookup name

inductive SameView : Lookup → Lookup → Prop
  | found {a b : WorkspaceConfig} (h : SameNames a b) : SameView (.found a) (.found b)
  | unknown : SameView .unknown .unknown
  | unavailable : SameView .unavailable .unavailable

structure SameScope (a b : ResolveScope) : Prop where
  schemaWs : a.schemaWs = b.schemaWs
  valueWs : a.valueWs = b.valueWs
  fallbackWs : a.fallbackWs = b.fallbackWs
  offline : a.lookup.offline = b.lookup.offline
  view : ∀ ws, SameView (a.lookup.get ws) (b.lookup.get ws)

theorem SameNames.refl (a : WorkspaceConfig) : SameNames a a := ⟨fun _ => rfl, fun _ => rfl⟩

theorem SameView.refl (x : Lookup) : SameView x x := by
  cases x with
  | found config => exact .found (.refl config)
  | unknown => exact .unknown
  | unavailable => exact .unavailable

variable {a b : ResolveScope}

theorem SameScope.canonicalTypeRef (h : SameScope a b) (typeRef ws : String) :
    canonicalTypeRef typeRef ws a.lookup = canonicalTypeRef typeRef ws b.lookup := by
  unfold Connections.canonicalTypeRef foundConfig
  cases hqualified : parseQualifiedRef typeRef with
  | mk qualifier item =>
    have hview := h.view ws
    generalize a.lookup.get ws = x, b.lookup.get ws = y at hview
    cases hview with
    | unknown => rfl
    | unavailable => rfl
    | found hnames =>
      cases qualifier with
      | none => simp only [bind, Except.bind, hnames.connectionTypes]
      | some other =>
        have hview' := h.view other
        dsimp only [bind, Except.bind]
        generalize a.lookup.get other = x', b.lookup.get other = y' at hview'
        cases hview' with
        | found hnames' =>
          simp only [hnames.connectionTypes, hnames'.connectionTypes]
        | unknown => simp only [hnames.connectionTypes]
        | unavailable => simp only [hnames.connectionTypes]

theorem SameScope.resolveFallback (h : SameScope a b) (connRef : String) :
    resolveFallback connRef a = resolveFallback connRef b := by
  unfold Connections.resolveFallback
  rw [h.fallbackWs, h.valueWs]
  cases b.fallbackWs.filter (· ≠ b.valueWs) with
  | none => rfl
  | some fb =>
    have hview := h.view fb
    dsimp only
    generalize a.lookup.get fb = x, b.lookup.get fb = y at hview
    cases hview with
    | found hnames => simp only [hnames.connections]
    | unknown => rfl
    | unavailable => rfl

theorem SameScope.resolveConnectionRef (h : SameScope a b) (connRef : String) :
    resolveConnectionRef connRef a = resolveConnectionRef connRef b := by
  unfold Connections.resolveConnectionRef
  rw [h.valueWs, h.resolveFallback, h.offline]
  have hview := h.view b.valueWs
  generalize a.lookup.get b.valueWs = x, b.lookup.get b.valueWs = y at hview
  cases hview with
  | unknown => rfl
  | unavailable => rfl
  | found hnames =>
    simp only [hnames.connections]
    cases hqualified : parseQualifiedRef connRef with
    | mk qualifier item =>
      cases qualifier with
      | none => rfl
      | some ws =>
        have hview' := h.view ws
        dsimp only
        generalize a.lookup.get ws = x', b.lookup.get ws = y' at hview'
        cases hview' with
        | found hnames' => simp only [hnames'.connections]
        | unknown => rfl
        | unavailable => rfl

theorem SameScope.connectionValues (h : SameScope a b) (fieldName : String)
    (fieldCt : CanonicalType) (resolved : ResolvedConnection) :
    connectionValues a fieldName fieldCt resolved =
      connectionValues b fieldName fieldCt resolved := by
  unfold Connections.connectionValues
  cases resolved.def.connectionType with
  | none => rfl
  | some declared =>
    simp only [h.canonicalTypeRef]
    cases Connections.canonicalTypeRef declared resolved.workspace b.lookup with
    | error e => rfl
    | ok connCt =>
      unfold foundConfig
      have hview := h.view connCt.workspace
      dsimp only
      generalize a.lookup.get connCt.workspace = x, b.lookup.get connCt.workspace = y at hview
      cases hview with
      | found hnames => simp only [bind, Except.bind, hnames.connectionTypes]
      | unknown => rfl
      | unavailable => rfl

theorem SameScope.resolveName (h : SameScope a b) (fieldName : String) (field : InputFieldDef)
    (connName : String) :
    resolveName a fieldName field connName = resolveName b fieldName field connName := by
  unfold Connections.resolveName
  simp only [h.canonicalTypeRef, h.schemaWs, h.resolveConnectionRef, h.connectionValues]

theorem SameScope.resolveField (h : SameScope a b) (result : Fields)
    (entry : String × InputFieldDef) :
    resolveField a result entry = resolveField b result entry := by
  unfold Connections.resolveField
  simp only [h.resolveName]

theorem SameScope.resolveConnectionInputsScoped (h : SameScope a b) (input : Json)
    (schema : InputSchema) :
    resolveConnectionInputsScoped input schema a =
      resolveConnectionInputsScoped input schema b := by
  have hstep : Connections.resolveField a = Connections.resolveField b :=
    funext fun result => funext fun entry => h.resolveField result entry
  unfold Connections.resolveConnectionInputsScoped
  rw [hstep]

/-! ## Two commits of one workspace -/

theorem lookup_append_self {α : Type} (xs : List (String × α)) (name : String) :
    (xs ++ xs).lookup name = xs.lookup name := by
  rw [List.lookup_append]
  cases xs.lookup name <;> rfl

theorem sameNames_merged_self (config : WorkspaceConfig) :
    SameNames (mergedSameWorkspace config config) config :=
  ⟨lookup_append_self config.connections, lookup_append_self config.connectionTypes⟩

variable {samePtr : Bool} {value schemaRole : RoleConfig} {others : WorkspaceLookup}

theorem bucketScopeAt_get (hws : value.workspace = schemaRole.workspace)
    (hptr : PtrEq samePtr value schemaRole) :
    ∃ config,
      (bucketScopeAt samePtr value schemaRole others).lookup.get value.workspace = .found config ∧
      SameNames config (mergedSameWorkspace value.config schemaRole.config) := by
  unfold bucketScopeAt
  rw [if_pos hws]
  refine ⟨_, if_pos rfl, ?_⟩
  split
  · next hsame =>
      rw [← hptr hsame]
      exact ⟨fun name => ((sameNames_merged_self value.config).connections name).symm,
        fun name => ((sameNames_merged_self value.config).connectionTypes name).symm⟩
  · exact .refl _

theorem lookup_merged {α : Type} {xs ys : List (String × α)} {name : String} {found : α}
    (h : xs.lookup name = some found) : (xs ++ ys).lookup name = some found := by
  rw [List.lookup_append, h]
  rfl

theorem resolveConnectionRef_value (hws : value.workspace = schemaRole.workspace)
    (hptr : PtrEq samePtr value schemaRole) {name : String} {conn : ConnectionDef}
    (h : value.config.connections.lookup name = some conn) :
    resolveConnectionRef name (bucketScopeAt samePtr value schemaRole others) =
      .ok ⟨value.workspace, conn⟩ := by
  obtain ⟨config, hget, hnames⟩ := @bucketScopeAt_get samePtr value schemaRole others hws hptr
  have hvalueWs : (bucketScopeAt samePtr value schemaRole others).valueWs = value.workspace := by
    unfold bucketScopeAt
    split <;> rfl
  have hconn : config.connections.lookup name = some conn := by
    rw [hnames.connections]
    exact lookup_merged h
  unfold resolveConnectionRef
  rw [hvalueWs, hget]
  dsimp only
  rw [hconn]

theorem canonicalTypeRef_value (hws : value.workspace = schemaRole.workspace)
    (hptr : PtrEq samePtr value schemaRole) {name : String} {typeDef : ConnectionTypeDef}
    (h : value.config.connectionTypes.lookup name = some typeDef) :
    canonicalTypeRef name value.workspace (bucketScopeAt samePtr value schemaRole others).lookup =
        .ok ⟨value.workspace, name⟩ ∧
      ∃ config,
        (bucketScopeAt samePtr value schemaRole others).lookup.get value.workspace =
          .found config ∧
        config.connectionTypes.lookup name = some typeDef := by
  obtain ⟨config, hget, hnames⟩ := @bucketScopeAt_get samePtr value schemaRole others hws hptr
  have htype : config.connectionTypes.lookup name = some typeDef := by
    rw [hnames.connectionTypes]
    exact lookup_merged h
  refine ⟨?_, config, hget, htype⟩
  unfold canonicalTypeRef foundConfig
  rw [hget]
  dsimp only [bind, Except.bind]
  rw [htype]
  exact if_pos rfl

/-! ## Roles and names -/

structure Holds (lookup : WorkspaceLookup) (value schemaRole : RoleConfig) : Prop where
  value : lookup.get value.workspace = .found value.config
  schemaRole : lookup.get schemaRole.workspace = .found schemaRole.config

theorem Holds.config_eq (h : Holds others value schemaRole)
    (hws : value.workspace = schemaRole.workspace) : value.config = schemaRole.config := by
  have hget := h.value
  rw [hws, h.schemaRole] at hget
  exact (Lookup.found.inj hget).symm

theorem sameScope_namedScope (h : Holds others value schemaRole) :
    SameScope (bucketScopeAt samePtr value schemaRole others)
      (namedScope value schemaRole others) := by
  unfold bucketScopeAt namedScope
  by_cases hws : value.workspace = schemaRole.workspace
  · rw [if_pos hws, if_pos hws]
    refine ⟨rfl, rfl, rfl, rfl, fun ws => ?_⟩
    simp only [roleLookup]
    split
    · next heq =>
        rw [heq, h.value, ← h.config_eq hws]
        split
        · exact .refl _
        · exact .found (sameNames_merged_self _)
    · exact .refl _
  · rw [if_neg hws, if_neg hws]
    refine ⟨rfl, rfl, rfl, rfl, fun ws => ?_⟩
    simp only [roleLookup]
    split
    · next heq =>
        rw [heq, h.value]
        exact .refl _
    · split
      · next heq =>
          rw [heq, h.schemaRole]
          exact .refl _
      · exact .refl _

/-- Resolution by role is resolution by name where the lookup holds the roles' configurations, and
between two commits of one workspace the value commit's names win. -/
theorem resolveBucketByRole_refines (samePtr : Bool) (input : Json) (schema : InputSchema)
    (value schemaRole : RoleConfig) (others : WorkspaceLookup)
    (hptr : PtrEq samePtr value schemaRole) :
    (Holds others value schemaRole →
      resolveBucketByRoleAt samePtr input schema value schemaRole others =
        resolveConnectionInputsScoped input schema (namedScope value schemaRole others)) ∧
      (value.workspace = schemaRole.workspace →
        (∀ name conn, value.config.connections.lookup name = some conn →
          resolveConnectionRef name (bucketScopeAt samePtr value schemaRole others) =
            .ok ⟨value.workspace, conn⟩) ∧
        ∀ name typeDef, value.config.connectionTypes.lookup name = some typeDef →
          canonicalTypeRef name value.workspace
              (bucketScopeAt samePtr value schemaRole others).lookup =
            .ok ⟨value.workspace, name⟩ ∧
          ∃ config,
            (bucketScopeAt samePtr value schemaRole others).lookup.get value.workspace =
              .found config ∧
            config.connectionTypes.lookup name = some typeDef) :=
  ⟨fun h => (sameScope_namedScope h).resolveConnectionInputsScoped input schema,
    fun hws => ⟨fun _ _ => resolveConnectionRef_value hws hptr,
      fun _ _ => canonicalTypeRef_value hws hptr⟩⟩

def jobsCommit (host : String) : RoleConfig where
  workspace := "jobs"
  config := { connections := [("db", { values := [("host", .str host)] })] }

def jobsLookup : WorkspaceLookup where
  localName := "jobs"
  get name := if name = "jobs" then .found (jobsCommit "live").config else .unknown

def dbSchema : InputSchema where
  entries := [("db", { fieldType := "postgres" })]
  nodup := List.nodup_singleton _

theorem resolveBucketByRole_refines_commits :
    resolveBucketByRoleAt false (.obj [("db", .str "db")]) dbSchema (jobsCommit "live")
        (jobsCommit "live") jobsLookup =
      resolveConnectionInputsScoped (.obj [("db", .str "db")]) dbSchema
        (namedScope (jobsCommit "live") (jobsCommit "live") jobsLookup) ∧
      resolveConnectionRef "db"
          (bucketScopeAt false (jobsCommit "pinned") (jobsCommit "live") jobsLookup) =
        .ok ⟨"jobs", { values := [("host", .str "pinned")] }⟩ := by
  have hptr : ∀ value schemaRole, PtrEq false value schemaRole :=
    fun _ _ h => absurd h Bool.false_ne_true
  refine ⟨(resolveBucketByRole_refines false _ _ _ _ _ (hptr _ _)).1 ⟨rfl, rfl⟩, ?_⟩
  exact ((resolveBucketByRole_refines false (.obj []) dbSchema (jobsCommit "pinned")
    (jobsCommit "live") jobsLookup (hptr _ _)).2 rfl).1 "db" _ rfl

end Stroem.Connections
