import Stroem.Acl
import Stroem.Foundation.Sql

/-!
# The list of jobs as a query

`list_with_acl` writes the scope and the optional filters into the text of a query and binds their
values behind it.  The text is that of a condition with numbered placeholders.  The source counts
placeholders in 32 bits, which is more than a statement can bind.
-/

namespace Stroem.Acl

open Foundation.Sql

/-! ## The text and the values -/

def jobColumns : String :=
  "job_id, workspace, task_name, mode, input, output, status, source_type, source_id, " ++
    "worker_id, revision, created_at, started_at, completed_at, log_path, parent_job_id, " ++
    "parent_step_name, timeout_secs, retry_of_job_id, retry_job_id, retry_attempt, " ++
    "max_retries, raw_input, source_job_id, restart_from_step, restart_from_steps, git_ref, " ++
    "task_folder"

def replaceChar (c : Char) (replacement : List Char) (s : List Char) : List Char :=
  s.flatMap fun d => if d = c then replacement else [d]

def escapeLike (input : String) : String :=
  String.ofList (replaceChar '_' ['\\', '_'] (replaceChar '%' ['\\', '%']
    (replaceChar '\\' ['\\', '\\'] input.toList)))

def JobAclScope.isEmpty (scope : JobAclScope) : Bool :=
  scope.livePairs.isEmpty && scope.pinnedTriples.isEmpty

def valueTuple (width idx : Nat) : String :=
  "(" ++ ", ".intercalate ((List.range' idx width).map fun n => "$" ++ toString n) ++ ")"

def valueTuples {β : Type} (width : Nat) : Nat → List β → List String × Nat
  | idx, [] => ([], idx)
  | idx, _ :: entries =>
    let rest := valueTuples width (idx + width) entries
    (valueTuple width idx :: rest.1, rest.2)

def JobAclScope.predicateSql (scope : JobAclScope) (first : Nat) : String × Nat :=
  let live := valueTuples 2 first scope.livePairs
  let pinned := valueTuples 3 live.2 scope.pinnedTriples
  let parts :=
    (if scope.livePairs.isEmpty then []
    else ["(git_ref IS NULL AND (workspace, task_name) IN (" ++ ", ".intercalate live.1 ++ "))"]) ++
    (if scope.pinnedTriples.isEmpty then []
    else ["(git_ref IS NOT NULL AND (workspace, task_name, COALESCE(task_folder, '')) IN (" ++
      ", ".intercalate pinned.1 ++ "))"])
  ("(" ++ " OR ".intercalate parts ++ ")", pinned.2)

def JobAclScope.bindValues (scope : JobAclScope) : List String :=
  (scope.livePairs.flatMap fun (w, t) => [w, t]) ++
    scope.pinnedTriples.flatMap fun (w, t, f) => [w, t, f]

structure JobFilters where
  status : Option String
  sourceType : Option String
  search : Option String
deriving DecidableEq

def listFilters (first : Nat) (filters : JobFilters) : String × Nat :=
  let sql := ""
  let (sql, idx) :=
    if filters.status.isSome then (sql ++ " AND status = $" ++ toString first, first + 1)
    else (sql, first)
  let (sql, idx) :=
    if filters.sourceType.isSome then (sql ++ " AND source_type = $" ++ toString idx, idx + 1)
    else (sql, idx)
  if filters.search.isSome then
    (sql ++ " AND (task_name ILIKE $" ++ toString idx ++ " OR workspace ILIKE $" ++ toString idx ++
      " OR source_id ILIKE $" ++ toString idx ++ " OR job_id::text ILIKE $" ++ toString idx ++ ")",
      idx + 1)
  else (sql, idx)

def searchPattern (search : String) : String := "%" ++ escapeLike search ++ "%"

def JobFilters.bindValues (filters : JobFilters) : List String :=
  filters.status.toList ++ filters.sourceType.toList ++ (filters.search.map searchPattern).toList

structure Statement where
  sql : String
  binds : List Value
deriving DecidableEq

/-- `list_with_acl`; `none` is the empty list that is returned without a query. -/
def listWithAcl (scope : JobAclScope) (filters : JobFilters) (limit offset : Int) :
    Option Statement :=
  if scope.isEmpty then none
  else
    let (acl, next) := scope.predicateSql 1
    let (filtersSql, next) := listFilters next filters
    some {
      sql := "SELECT " ++ jobColumns ++ " FROM job WHERE " ++ acl ++ filtersSql ++
        " ORDER BY created_at DESC LIMIT $" ++ toString next ++ " OFFSET $" ++ toString (next + 1)
      binds := (scope.bindValues ++ filters.bindValues).map .text ++ [.int limit, .int offset] }

/-- `count_with_acl`; `none` is the zero that is returned without a query. -/
def countWithAcl (scope : JobAclScope) (filters : JobFilters) : Option Statement :=
  if scope.isEmpty then none
  else
    let (acl, next) := scope.predicateSql 1
    some {
      sql := "SELECT COUNT(*) FROM job WHERE " ++ acl ++ (listFilters next filters).1
      binds := (scope.bindValues ++ filters.bindValues).map .text }

/-- `get_status_counts_with_acl`; `none` is the empty map that is returned without a query. -/
def getStatusCountsWithAcl (scope : JobAclScope) : Option Statement :=
  if scope.isEmpty then none
  else some {
    sql := "SELECT status, COUNT(*) FROM job WHERE " ++ (scope.predicateSql 1).1 ++
      " GROUP BY status"
    binds := scope.bindValues.map .text }

/-! ## The condition -/

inductive JobColumn where
  | gitRef
  | workspace
  | taskName
  | taskFolder
  | status
  | sourceType
  | sourceId
  | jobId
deriving DecidableEq

def JobColumn.sql : JobColumn → String
  | .gitRef => "git_ref"
  | .workspace => "workspace"
  | .taskName => "task_name"
  | .taskFolder => "COALESCE(task_folder, '')"
  | .status => "status"
  | .sourceType => "source_type"
  | .sourceId => "source_id"
  | .jobId => "job_id::text"

structure ListedJob extends JobRow where
  status : String
  sourceType : String
  sourceId : Option String
  jobId : String
deriving DecidableEq

def ListedJob.column (job : ListedJob) : JobColumn → Option String
  | .gitRef => job.gitRef
  | .workspace => some job.workspace
  | .taskName => some job.taskName
  | .taskFolder => some (job.taskFolder.getD "")
  | .status => some job.status
  | .sourceType => some job.sourceType
  | .sourceId => job.sourceId
  | .jobId => some job.jobId

def liveCondition (scope : JobAclScope) (first : Nat) : Condition JobColumn :=
  .paren (.and (.isNull .gitRef)
    (.inTuples [.workspace, .taskName] (numberTuples 2 first scope.livePairs)))

def pinnedCondition (scope : JobAclScope) (first : Nat) : Condition JobColumn :=
  .paren (.and (.isNotNull .gitRef)
    (.inTuples [.workspace, .taskName, .taskFolder] (numberTuples 3 first scope.pinnedTriples)))

def scopeCondition (scope : JobAclScope) (first : Nat) : Condition JobColumn :=
  let pinned := pinnedCondition scope (first + 2 * scope.livePairs.length)
  .paren
    (if scope.livePairs.isEmpty then pinned
    else if scope.pinnedTriples.isEmpty then liveCondition scope first
    else .or (liveCondition scope first) pinned)

def addFilter (given : Bool) (test : Nat → Condition JobColumn)
    (sofar : Condition JobColumn × Nat) : Condition JobColumn × Nat :=
  if given then (.and sofar.1 (test sofar.2), sofar.2 + 1) else sofar

def searchCondition (idx : Nat) : Condition JobColumn :=
  .paren (.or (.or (.or (.ilike .taskName idx) (.ilike .workspace idx)) (.ilike .sourceId idx))
    (.ilike .jobId idx))

def filteredCondition (filters : JobFilters) (sofar : Condition JobColumn × Nat) :
    Condition JobColumn × Nat :=
  addFilter filters.search.isSome searchCondition
    (addFilter filters.sourceType.isSome (.eq .sourceType)
      (addFilter filters.status.isSome (.eq .status) sofar))

/-! ## The condition is what the text says -/

theorem plain_sql (c : JobColumn) : Plain c.sql.toList := by
  cases c <;> exact Plain.ofList (by decide)

theorem plain_jobColumns : Plain jobColumns.toList := by
  have happend : ∀ {s s' : String}, Plain s.toList → Plain s'.toList → Plain (s ++ s').toList := by
    intro s s' h h'
    rw [String.toList_append]
    exact h.append h'
  refine happend (happend (happend (happend ?_ ?_) ?_) ?_) ?_
  · exact Plain.ofList (by decide)
  · exact Plain.ofList (by decide)
  · exact Plain.ofList (by decide)
  · exact Plain.ofList (by decide)
  · exact Plain.ofList (by decide)

theorem valueTuple_toList (width idx : Nat) :
    (valueTuple width idx).toList = render (tuplePieces (List.range' idx width)) := by
  have hparts : (List.range' idx width).map (String.toList ∘ fun n => "$" ++ toString n) =
      (List.range' idx width).map (render ∘ fun n => [Piece.param n]) := by
    refine List.map_congr_left fun n _ => ?_
    simp [render, Piece.render, Nat.toString_eq_repr]
  rw [valueTuple, tuplePieces, String.toList_append, String.toList_append,
    String.toList_intercalate, List.map_map, hparts, List.cons_append, render_cons, render_append,
    render_joined, List.map_map, List.append_assoc]
  rfl

theorem valueTuples_eq {β : Type} (width idx : Nat) (entries : List β) :
    (valueTuples width idx entries).1.map String.toList =
        (numberTuples width idx entries).map (render ∘ tuplePieces) ∧
      (valueTuples width idx entries).2 = idx + width * entries.length := by
  induction entries generalizing idx with
  | nil => exact ⟨rfl, rfl⟩
  | cons entry entries ih =>
    obtain ⟨htexts, hnext⟩ := ih (idx + width)
    rw [valueTuples, numberTuples]
    dsimp only
    rw [List.map_cons, List.map_cons, htexts, valueTuple_toList, hnext, List.length_cons]
    exact ⟨rfl, by rw [Nat.mul_succ]; omega⟩

theorem tuples_toList {β : Type} (width idx : Nat) (entries : List β) :
    (", ".intercalate (valueTuples width idx entries).1).toList =
      render (joined [',', ' '] ((numberTuples width idx entries).map tuplePieces)) := by
  rw [String.toList_intercalate, (valueTuples_eq width idx entries).1, render_joined, List.map_map]
  rfl

theorem liveCondition_toList (scope : JobAclScope) (first : Nat) :
    ("(git_ref IS NULL AND (workspace, task_name) IN (" ++
        ", ".intercalate (valueTuples 2 first scope.livePairs).1 ++ "))").toList =
      render ((liveCondition scope first).pieces JobColumn.sql) := by
  have hnames : ", ".intercalate ([JobColumn.workspace, .taskName].map JobColumn.sql) =
      "workspace, task_name" := by decide
  rw [String.toList_append, String.toList_append, tuples_toList]
  simp only [liveCondition, Condition.pieces, hnames, render_cons, render_append, Piece.render]
  generalize render (joined _ _) = tuples
  simp [JobColumn.sql, render]

theorem pinnedCondition_toList (scope : JobAclScope) (first : Nat) :
    ("(git_ref IS NOT NULL AND (workspace, task_name, COALESCE(task_folder, '')) IN (" ++
        ", ".intercalate (valueTuples 3 first scope.pinnedTriples).1 ++ "))").toList =
      render ((pinnedCondition scope first).pieces JobColumn.sql) := by
  have hnames : ", ".intercalate ([JobColumn.workspace, .taskName, .taskFolder].map JobColumn.sql) =
      "workspace, task_name, COALESCE(task_folder, '')" := by decide
  rw [String.toList_append, String.toList_append, tuples_toList]
  simp only [pinnedCondition, Condition.pieces, hnames, render_cons, render_append, Piece.render]
  generalize render (joined _ _) = tuples
  simp [JobColumn.sql, render]

theorem render_paren (cond : Condition JobColumn) :
    render ((Condition.paren cond).pieces JobColumn.sql) =
      '(' :: render (cond.pieces JobColumn.sql) ++ [')'] := by
  rw [Condition.pieces, List.cons_append, render_cons, render_append]
  rfl

theorem predicateSql_eq {scope : JobAclScope} (h : scope.isEmpty = false) (first : Nat) :
    (scope.predicateSql first).1.toList =
        render ((scopeCondition scope first).pieces JobColumn.sql) ∧
      (scope.predicateSql first).2 =
        first + 2 * scope.livePairs.length + 3 * scope.pinnedTriples.length := by
  have hnext := (valueTuples_eq 2 first scope.livePairs).2
  unfold JobAclScope.predicateSql
  dsimp only
  rw [hnext, (valueTuples_eq 3 _ scope.pinnedTriples).2]
  refine ⟨?_, rfl⟩
  rw [String.toList_append, String.toList_append, scopeCondition, render_paren]
  have hlive := liveCondition_toList scope first
  have hpinned := pinnedCondition_toList scope (first + 2 * scope.livePairs.length)
  cases hl : scope.livePairs.isEmpty with
  | true =>
    cases hp : scope.pinnedTriples.isEmpty with
    | true =>
      rw [JobAclScope.isEmpty, hl, hp] at h
      cases h
    | false =>
      simp only [Bool.false_eq_true, if_true, if_false, List.nil_append]
      rw [String.intercalate_singleton, hpinned]
      rfl
  | false =>
    cases hp : scope.pinnedTriples.isEmpty with
    | true =>
      simp only [Bool.false_eq_true, if_true, if_false, List.append_nil]
      rw [String.intercalate_singleton, hlive]
      rfl
    | false =>
      simp only [Bool.false_eq_true, if_false, List.singleton_append]
      rw [String.intercalate_cons_cons, String.intercalate_singleton, String.toList_append,
        String.toList_append, hlive, hpinned, Condition.pieces, render_append, render_cons]
      simp [Piece.render]

/-! ## The filters -/

theorem addFilter_text {given : Bool} {test : Nat → Condition JobColumn}
    {sofar : Condition JobColumn × Nat} {before text : String}
    (hbefore : before.toList = render (sofar.1.pieces JobColumn.sql))
    (htext : text.toList = " AND ".toList ++ render ((test sofar.2).pieces JobColumn.sql)) :
    (before ++ if given then text else "").toList =
      render ((addFilter given test sofar).1.pieces JobColumn.sql) := by
  unfold addFilter
  cases given with
  | true =>
    simp only [if_true]
    rw [String.toList_append, hbefore, htext, Condition.pieces, render_append, render_cons]
    rfl
  | false =>
    simp only [Bool.false_eq_true, if_false]
    rw [String.append_empty, hbefore]

theorem listFilters_eq (filters : JobFilters) (sofar : Condition JobColumn × Nat)
    (before : String) :
    let status := addFilter filters.status.isSome (.eq .status) sofar
    let source := addFilter filters.sourceType.isSome (.eq .sourceType) status
    before ++ (listFilters sofar.2 filters).1 =
        before ++ (if filters.status.isSome then " AND status = $" ++ toString sofar.2 else "") ++
        (if filters.sourceType.isSome then " AND source_type = $" ++ toString status.2 else "") ++
        (if filters.search.isSome then
          " AND (task_name ILIKE $" ++ toString source.2 ++ " OR workspace ILIKE $" ++
            toString source.2 ++ " OR source_id ILIKE $" ++ toString source.2 ++
            " OR job_id::text ILIKE $" ++ toString source.2 ++ ")" else "") ∧
      (listFilters sofar.2 filters).2 = (filteredCondition filters sofar).2 := by
  unfold listFilters filteredCondition addFilter
  cases filters.status.isSome <;> cases filters.sourceType.isSome <;>
    cases filters.search.isSome <;> simp [String.append_assoc]

theorem filteredCondition_text {filters : JobFilters} {sofar : Condition JobColumn × Nat}
    {before : String} (hbefore : before.toList = render (sofar.1.pieces JobColumn.sql)) :
    (before ++ (listFilters sofar.2 filters).1).toList =
        render ((filteredCondition filters sofar).1.pieces JobColumn.sql) ∧
      (listFilters sofar.2 filters).2 = (filteredCondition filters sofar).2 := by
  obtain ⟨htext, hnext⟩ := listFilters_eq filters sofar before
  refine ⟨?_, hnext⟩
  rw [htext]
  refine addFilter_text (addFilter_text (addFilter_text hbefore ?_) ?_) ?_
  · simp [Condition.pieces, render, Piece.render, Nat.toString_eq_repr, JobColumn.sql]
  · simp [Condition.pieces, render, Piece.render, Nat.toString_eq_repr, JobColumn.sql]
  · simp [searchCondition, Condition.pieces, render, Piece.render, Nat.toString_eq_repr,
      JobColumn.sql]

/-! ## The numbers -/

theorem addFilter_consecutive {given : Bool} {test : Nat → Condition JobColumn}
    {sofar : Condition JobColumn × Nat} (hpos : 1 ≤ sofar.2)
    (hsofar : Consecutive 1 (params (sofar.1.pieces JobColumn.sql)) sofar.2)
    (htest : ∀ n, Consecutive n (params ((test n).pieces JobColumn.sql)) (n + 1)) :
    1 ≤ (addFilter given test sofar).2 ∧
      Consecutive 1 (params ((addFilter given test sofar).1.pieces JobColumn.sql))
        (addFilter given test sofar).2 := by
  unfold addFilter
  cases given with
  | true =>
    simp only [if_true]
    refine ⟨by omega, ?_⟩
    rw [Condition.pieces, params_append]
    exact hsofar.append (htest _) hpos (Nat.le_succ _)
  | false => exact ⟨hpos, hsofar⟩

theorem filteredCondition_consecutive {filters : JobFilters} {sofar : Condition JobColumn × Nat}
    (hpos : 1 ≤ sofar.2)
    (hsofar : Consecutive 1 (params (sofar.1.pieces JobColumn.sql)) sofar.2) :
    Consecutive 1 (params ((filteredCondition filters sofar).1.pieces JobColumn.sql))
      (filteredCondition filters sofar).2 := by
  have hone : ∀ n, Consecutive n [n] (n + 1) := fun n => consecutive_replicate n 1 (by decide)
  obtain ⟨hpos, hstatus⟩ := @addFilter_consecutive filters.status.isSome (.eq .status) sofar
    hpos hsofar fun n => hone n
  obtain ⟨hpos, hsource⟩ := @addFilter_consecutive filters.sourceType.isSome (.eq .sourceType) _
    hpos hstatus fun n => hone n
  exact (@addFilter_consecutive filters.search.isSome searchCondition _ hpos hsource fun n =>
    consecutive_replicate n 4 (by decide)).2

theorem params_liveCondition (scope : JobAclScope) (first : Nat) :
    params ((liveCondition scope first).pieces JobColumn.sql) =
      List.range' first (2 * scope.livePairs.length) := by
  rw [← params_inTuples JobColumn.sql [.workspace, .taskName]]
  simp [liveCondition, Condition.pieces, params, params_append]

theorem params_pinnedCondition (scope : JobAclScope) (first : Nat) :
    params ((pinnedCondition scope first).pieces JobColumn.sql) =
      List.range' first (3 * scope.pinnedTriples.length) := by
  rw [← params_inTuples JobColumn.sql [.workspace, .taskName, .taskFolder]]
  simp [pinnedCondition, Condition.pieces, params, params_append]

theorem params_scopeCondition (scope : JobAclScope) (first : Nat) :
    params ((scopeCondition scope first).pieces JobColumn.sql) =
      List.range' first (2 * scope.livePairs.length) ++
        List.range' (first + 2 * scope.livePairs.length) (3 * scope.pinnedTriples.length) := by
  have hparen : ∀ cond : Condition JobColumn,
      params ((Condition.paren cond).pieces JobColumn.sql) =
        params (cond.pieces JobColumn.sql) := by
    intro cond
    simp [Condition.pieces, params, params_append]
  unfold scopeCondition
  dsimp only
  rw [hparen]
  split
  · next hl =>
    rw [params_pinnedCondition, List.isEmpty_iff.mp hl]
    rfl
  · split
    · next hp =>
      rw [params_liveCondition, List.isEmpty_iff.mp hp]
      exact (List.append_nil _).symm
    · rw [Condition.pieces, params_append, params, params_liveCondition, params_pinnedCondition]

theorem scopeCondition_consecutive (scope : JobAclScope) :
    Consecutive 1 (params ((scopeCondition scope 1).pieces JobColumn.sql))
      (1 + 2 * scope.livePairs.length + 3 * scope.pinnedTriples.length) := by
  rw [params_scopeCondition]
  exact (consecutive_range' _ _).append (consecutive_range' _ _) (Nat.le_add_right _ _)
    (Nat.le_add_right _ _)

/-! ## The rows -/

theorem flatten_livePairs (pairs : List (String × String)) :
    (pairs.map fun pair => [pair.1, pair.2]).flatten = pairs.flatMap fun (w, t) => [w, t] :=
  List.flatMap_def.symm

theorem liveCondition_eval (scope : JobAclScope) (like : String → String → Bool)
    (job : ListedJob) (after : List Value) :
    (liveCondition scope 1).eval like
        ((scope.livePairs.flatMap fun (w, t) => [w, t]).map .text ++ after) job.column = true ↔
      job.gitRef.isNone = true ∧ (job.workspace, job.taskName) ∈ scope.livePairs := by
  have hany := @any_sameTuple JobColumn 2 [] after
    (scope.livePairs.map fun pair => [pair.1, pair.2]) job.column [.workspace, .taskName] rfl
    (fun entry hentry => by
      obtain ⟨pair, -, rfl⟩ := List.mem_map.mp hentry
      rfl)
  rw [numberTuples_map, flatten_livePairs] at hany
  rw [liveCondition, Condition.eval, Condition.eval, Bool.and_eq_true]
  refine and_congr Iff.rfl (hany.trans ?_)
  constructor
  · rintro ⟨entry, hentry, heq⟩
    obtain ⟨⟨w, t⟩, hpair, rfl⟩ := List.mem_map.mp hentry
    simp only [ListedJob.column, List.map_cons, List.map_nil, List.cons.injEq, Option.some.injEq,
      and_true] at heq
    rw [heq.1, heq.2]
    exact hpair
  · intro hpair
    exact ⟨_, List.mem_map_of_mem hpair, rfl⟩

theorem flatten_pinnedTriples (triples : List (String × String × String)) :
    (triples.map fun triple => [triple.1, triple.2.1, triple.2.2]).flatten =
      triples.flatMap fun (w, t, f) => [w, t, f] :=
  List.flatMap_def.symm

theorem length_flatMap_pairs (pairs : List (String × String)) :
    (pairs.flatMap fun (w, t) => [w, t]).length = 2 * pairs.length := by
  induction pairs with
  | nil => rfl
  | cons pair pairs ih =>
    rw [List.flatMap_cons, List.length_append, ih, List.length_cons]
    simp only [List.length_cons, List.length_nil]
    omega

theorem length_flatMap_triples (triples : List (String × String × String)) :
    (triples.flatMap fun (w, t, f) => [w, t, f]).length = 3 * triples.length := by
  induction triples with
  | nil => rfl
  | cons triple triples ih =>
    rw [List.flatMap_cons, List.length_append, ih, List.length_cons]
    simp only [List.length_cons, List.length_nil]
    omega

theorem pinnedCondition_eval (scope : JobAclScope) (like : String → String → Bool)
    (job : ListedJob) (before after : List Value) :
    (pinnedCondition scope (before.length + 1)).eval like
        (before ++ (scope.pinnedTriples.flatMap fun (w, t, f) => [w, t, f]).map .text ++ after)
        job.column = true ↔
      job.gitRef.isSome = true ∧
        (job.workspace, job.taskName, job.taskFolder.getD "") ∈ scope.pinnedTriples := by
  have hany := @any_sameTuple JobColumn 3 before after
    (scope.pinnedTriples.map fun triple => [triple.1, triple.2.1, triple.2.2]) job.column
    [.workspace, .taskName, .taskFolder] rfl
    (fun entry hentry => by
      obtain ⟨triple, -, rfl⟩ := List.mem_map.mp hentry
      rfl)
  rw [numberTuples_map, flatten_pinnedTriples] at hany
  rw [pinnedCondition, Condition.eval, Condition.eval, Bool.and_eq_true]
  refine and_congr Iff.rfl (hany.trans ?_)
  constructor
  · rintro ⟨entry, hentry, heq⟩
    obtain ⟨⟨w, t, f⟩, htriple, rfl⟩ := List.mem_map.mp hentry
    simp only [ListedJob.column, List.map_cons, List.map_nil, List.cons.injEq, Option.some.injEq,
      and_true] at heq
    rw [heq.1, heq.2.1, heq.2.2]
    exact htriple
  · intro htriple
    exact ⟨_, List.mem_map_of_mem htriple, rfl⟩

theorem predicate_iff (scope : JobAclScope) (job : JobRow) :
    scope.predicate job = true ↔
      (job.gitRef.isNone = true ∧ (job.workspace, job.taskName) ∈ scope.livePairs) ∨
        job.gitRef.isSome = true ∧
          (job.workspace, job.taskName, job.taskFolder.getD "") ∈ scope.pinnedTriples := by
  simp [JobAclScope.predicate]

theorem scopeCondition_eval (scope : JobAclScope) (like : String → String → Bool)
    (job : ListedJob) (after : List Value) :
    (scopeCondition scope 1).eval like (scope.bindValues.map .text ++ after) job.column = true ↔
      scope.predicate job.toJobRow = true := by
  have hlive := liveCondition_eval scope like job
    ((scope.pinnedTriples.flatMap fun (w, t, f) => [w, t, f]).map .text ++ after)
  have hpinned := pinnedCondition_eval scope like job
    ((scope.livePairs.flatMap fun (w, t) => [w, t]).map .text) after
  rw [← List.append_assoc] at hlive
  rw [List.length_map, length_flatMap_pairs, Nat.add_comm _ 1] at hpinned
  rw [← List.map_append] at hlive hpinned
  rw [predicate_iff, ← hlive, ← hpinned]
  change
    (scopeCondition scope 1).eval like (scope.bindValues.map .text ++ after) job.column = true ↔
    (liveCondition scope 1).eval like (scope.bindValues.map .text ++ after) job.column = true ∨
      (pinnedCondition scope (1 + 2 * scope.livePairs.length)).eval like
        (scope.bindValues.map .text ++ after) job.column = true
  unfold scopeCondition
  dsimp only
  rw [Condition.eval]
  split
  · next hl =>
    refine ⟨.inr, fun h => h.resolve_left fun hlive' => ?_⟩
    have hmem := (hlive.mp hlive').2
    rw [List.isEmpty_iff.mp hl] at hmem
    exact List.not_mem_nil hmem
  · split
    · next hp =>
      refine ⟨.inl, fun h => h.resolve_right fun hpinned' => ?_⟩
      have hmem := (hpinned.mp hpinned').2
      rw [List.isEmpty_iff.mp hp] at hmem
      exact List.not_mem_nil hmem
    · rw [Condition.eval, Bool.or_eq_true]

def JobFilters.keeps (filters : JobFilters) (like : String → String → Bool) (job : ListedJob) :
    Prop :=
  (∀ status ∈ filters.status, job.status = status) ∧
    (∀ sourceType ∈ filters.sourceType, job.sourceType = sourceType) ∧
    ∀ search ∈ filters.search,
      like job.taskName (searchPattern search) = true ∨
        like job.workspace (searchPattern search) = true ∨
        (∃ sourceId ∈ job.sourceId, like sourceId (searchPattern search) = true) ∨
        like job.jobId (searchPattern search) = true

theorem addFilter_eval {filter : Option String} {test : Nat → Condition JobColumn}
    {sofar : Condition JobColumn × Nat} {like : String → String → Bool}
    {binds before after : List Value} {job : ListedJob} {meaning : String → Prop}
    (hbinds : binds = before ++ filter.toList.map .text ++ after)
    (hnext : sofar.2 = before.length + 1)
    (htest : ∀ value, bound binds sofar.2 = some (.text value) →
      ((test sofar.2).eval like binds job.column = true ↔ meaning value)) :
    ((addFilter filter.isSome test sofar).1.eval like binds job.column = true ↔
      sofar.1.eval like binds job.column = true ∧ ∀ value ∈ filter, meaning value) ∧
    (addFilter filter.isSome test sofar).2 =
      (before ++ filter.toList.map Value.text).length + 1 := by
  cases filter with
  | none => simp [addFilter, hnext]
  | some value =>
    have hbound : bound binds sofar.2 = some (.text value) := by
      rw [hbinds, hnext, List.append_assoc]
      exact bound_append _ _ _
    constructor
    · rw [addFilter, Option.isSome_some, if_pos rfl, Condition.eval, Bool.and_eq_true,
        htest value hbound]
      simp
    · simp [addFilter, hnext]

theorem same_eq_true_iff {binds : List Value} {job : ListedJob} {c : JobColumn} {n : Nat}
    {v value : String} (hcolumn : job.column c = some v)
    (hbound : bound binds n = some (.text value)) :
    same binds job.column c n = true ↔ v = value := by
  rw [same, hcolumn, hbound]
  exact beq_iff_eq

theorem searchCondition_eval {like : String → String → Bool} {binds : List Value}
    {job : ListedJob} {n : Nat} {pattern : String}
    (hbound : bound binds n = some (.text pattern)) :
    (searchCondition n).eval like binds job.column = true ↔
      like job.taskName pattern = true ∨ like job.workspace pattern = true ∨
        (∃ sourceId ∈ job.sourceId, like sourceId pattern = true) ∨
        like job.jobId pattern = true := by
  simp only [searchCondition, Condition.eval, hbound, ListedJob.column, Bool.or_eq_true, or_assoc]
  cases job.sourceId with
  | none => simp
  | some id => simp

theorem filteredCondition_eval {filters : JobFilters} {sofar : Condition JobColumn × Nat}
    {like : String → String → Bool} {before after : List Value} {job : ListedJob}
    (hnext : sofar.2 = before.length + 1) :
    (filteredCondition filters sofar).1.eval like
        (before ++ filters.bindValues.map .text ++ after) job.column = true ↔
      sofar.1.eval like (before ++ filters.bindValues.map .text ++ after) job.column = true ∧
        filters.keeps like job := by
  obtain ⟨binds, hbinds⟩ : ∃ binds, binds = before ++ filters.bindValues.map Value.text ++ after :=
    ⟨_, rfl⟩
  -- the same values, cut before those that follow the filter
  have hstatusBinds : binds = before ++ filters.status.toList.map Value.text ++
      (filters.sourceType.toList.map .text ++
        (filters.search.map searchPattern).toList.map .text ++ after) := by
    rw [hbinds, JobFilters.bindValues]
    simp
  have hsourceBinds : binds = before ++ filters.status.toList.map Value.text ++
      filters.sourceType.toList.map .text ++
        ((filters.search.map searchPattern).toList.map .text ++ after) := by
    rw [hbinds, JobFilters.bindValues]
    simp
  have hsearchBinds : binds = before ++ filters.status.toList.map Value.text ++
      filters.sourceType.toList.map .text ++
        (filters.search.map searchPattern).toList.map .text ++ after := by
    rw [hbinds, JobFilters.bindValues]
    simp
  have hstatus := @addFilter_eval filters.status (.eq .status) sofar like binds before _ job
    (fun value => job.status = value) hstatusBinds hnext fun value hbound =>
      same_eq_true_iff rfl hbound
  have hsource := @addFilter_eval filters.sourceType (.eq .sourceType) _ like binds _ _ job
    (fun value => job.sourceType = value) hsourceBinds hstatus.2 fun value hbound =>
      same_eq_true_iff rfl hbound
  have hsearch := addFilter_eval hsearchBinds hsource.2 fun value hbound =>
    @searchCondition_eval like binds job _ value hbound
  have hfiltered : filteredCondition filters sofar =
      addFilter (filters.search.map searchPattern).isSome searchCondition
        (addFilter filters.sourceType.isSome (.eq .sourceType)
          (addFilter filters.status.isSome (.eq .status) sofar)) := by
    rw [Option.isSome_map]
    rfl
  rw [← hbinds, hfiltered, hsearch.1, hsource.1, hstatus.1]
  simp only [JobFilters.keeps, and_assoc, Option.mem_def, Option.map_eq_some_iff,
    forall_exists_index, and_imp, forall_apply_eq_imp_iff₂]

theorem filteredCondition_next (filters : JobFilters) (sofar : Condition JobColumn × Nat) :
    (filteredCondition filters sofar).2 = sofar.2 + filters.bindValues.length := by
  unfold filteredCondition addFilter JobFilters.bindValues
  cases filters.status <;> cases filters.sourceType <;> cases filters.search <;> simp

/-! ## The statements -/

/-- Every placeholder of the text has a value, every value a placeholder, and they come in this
order. -/
def Statement.Numbered (stmt : Statement) : Prop :=
  Consecutive 1 (placeholders stmt.sql.toList) (stmt.binds.length + 1)

def listCondition (scope : JobAclScope) (filters : JobFilters) : Condition JobColumn × Nat :=
  filteredCondition filters
    (scopeCondition scope 1, 1 + 2 * scope.livePairs.length + 3 * scope.pinnedTriples.length)

theorem length_bindValues (scope : JobAclScope) :
    scope.bindValues.length = 2 * scope.livePairs.length + 3 * scope.pinnedTriples.length := by
  rw [JobAclScope.bindValues, List.length_append, length_flatMap_pairs, length_flatMap_triples]

theorem listCondition_spec {scope : JobAclScope} (h : scope.isEmpty = false)
    (filters : JobFilters) (rest : List Value) :
    ((scope.predicateSql 1).1 ++ (listFilters (scope.predicateSql 1).2 filters).1).toList =
        render ((listCondition scope filters).1.pieces JobColumn.sql) ∧
      (listFilters (scope.predicateSql 1).2 filters).2 = (listCondition scope filters).2 ∧
      Consecutive 1 (params ((listCondition scope filters).1.pieces JobColumn.sql))
        (listCondition scope filters).2 ∧
      (listCondition scope filters).2 = (scope.bindValues ++ filters.bindValues).length + 1 ∧
      ∀ like job, (listCondition scope filters).1.eval like
          ((scope.bindValues ++ filters.bindValues).map .text ++ rest) job.column = true ↔
        (scope.predicate job.toJobRow = true ∧ filters.keeps like job) := by
  obtain ⟨hscopeText, hscopeNext⟩ := predicateSql_eq h 1
  rw [hscopeNext]
  obtain ⟨htext, hnext⟩ := @filteredCondition_text filters
    (scopeCondition scope 1, 1 + 2 * scope.livePairs.length + 3 * scope.pinnedTriples.length) _
    hscopeText
  have hfirst : 1 + 2 * scope.livePairs.length + 3 * scope.pinnedTriples.length =
      (scope.bindValues.map Value.text).length + 1 := by
    rw [List.length_map, length_bindValues]
    omega
  have heval := fun like job => @filteredCondition_eval filters
    (scopeCondition scope 1, 1 + 2 * scope.livePairs.length + 3 * scope.pinnedTriples.length) like
    (scope.bindValues.map .text) rest job hfirst
  refine ⟨htext, hnext, ?_, ?_, fun like job => ?_⟩
  · exact filteredCondition_consecutive (by dsimp only; omega) (scopeCondition_consecutive scope)
  · rw [listCondition, filteredCondition_next, List.length_append, length_bindValues]
    dsimp only
    omega
  · rw [List.map_append, listCondition, heval, List.append_assoc]
    exact and_congr_left fun _ => scopeCondition_eval scope like job _

theorem placeholders_sql {before after : String} {cond : Condition JobColumn} {more : List Piece}
    (hbefore : '$' ∉ before.toList) (hafter : after.toList = render more)
    (hplain : ∀ s, Piece.text s ∈ more → Plain s) {sql : String}
    (hsql : sql.toList = before.toList ++ render (cond.pieces JobColumn.sql) ++ after.toList) :
    placeholders sql.toList = params (cond.pieces JobColumn.sql) ++ params more := by
  rw [hsql, hafter, List.append_assoc, placeholders, scan_plain hbefore, ← render_append,
    ← placeholders, placeholders_render, params_append]
  intro s hs
  exact (List.mem_append.mp hs).elim (plain_pieces plain_sql cond s) (hplain s)

def pagePieces (next : Nat) : List Piece :=
  [.text " ORDER BY created_at DESC LIMIT ".toList, .param next, .text " OFFSET ".toList,
    .param (next + 1)]

theorem pagePieces_toList (next : Nat) :
    (" ORDER BY created_at DESC LIMIT $" ++ toString next ++ " OFFSET $" ++
      toString (next + 1)).toList = render (pagePieces next) := by
  simp [pagePieces, render, Piece.render, Nat.toString_eq_repr]

theorem plain_pagePieces {next : Nat} {s : List Char} (h : Piece.text s ∈ pagePieces next) :
    Plain s := by
  simp only [pagePieces, List.mem_cons, Piece.text.injEq, reduceCtorEq, List.not_mem_nil, or_false,
    false_or] at h
  obtain rfl | rfl := h
  · exact Plain.ofList (by decide)
  · exact Plain.ofList (by decide)

theorem listWithAcl_eq {scope : JobAclScope} (h : scope.isEmpty = false) (filters : JobFilters)
    (limit offset : Int) :
    listWithAcl scope filters limit offset = some {
      sql := "SELECT " ++ jobColumns ++ " FROM job WHERE " ++
        String.ofList (render ((listCondition scope filters).1.pieces JobColumn.sql)) ++
        (" ORDER BY created_at DESC LIMIT $" ++ toString (listCondition scope filters).2 ++
          " OFFSET $" ++ toString ((listCondition scope filters).2 + 1))
      binds := (scope.bindValues ++ filters.bindValues).map .text ++
        [.int limit, .int offset] } := by
  obtain ⟨htext, hnext, -⟩ := listCondition_spec h filters []
  have hvalue : listWithAcl scope filters limit offset = if scope.isEmpty then none else some {
      sql := "SELECT " ++ jobColumns ++ " FROM job WHERE " ++ (scope.predicateSql 1).1 ++
        (listFilters (scope.predicateSql 1).2 filters).1 ++ " ORDER BY created_at DESC LIMIT $" ++
        toString (listFilters (scope.predicateSql 1).2 filters).2 ++ " OFFSET $" ++
        toString ((listFilters (scope.predicateSql 1).2 filters).2 + 1)
      binds := (scope.bindValues ++ filters.bindValues).map .text ++
        [.int limit, .int offset] } := rfl
  rw [hvalue, h, if_neg Bool.false_ne_true, hnext, ← htext, String.ofList_toList]
  simp only [String.append_assoc]

/--
The placeholders of the text are those from one to the number of values, and with the values bound
its condition is true of exactly the rows that the scope and the filters mean.
-/
theorem list_binds_numbered (scope : JobAclScope) (filters : JobFilters) (limit offset : Int) :
    (scope.isEmpty = true → listWithAcl scope filters limit offset = none ∧
      ∀ job, scope.predicate job = false) ∧
    (scope.isEmpty = false → ∃ (stmt : Statement) (cond : Condition JobColumn)
        (limitAt offsetAt : Nat),
      listWithAcl scope filters limit offset = some stmt ∧
      stmt.sql = "SELECT " ++ jobColumns ++ " FROM job WHERE " ++
        String.ofList (render (cond.pieces JobColumn.sql)) ++
        (" ORDER BY created_at DESC LIMIT $" ++ toString limitAt ++ " OFFSET $" ++
          toString offsetAt) ∧
      stmt.Numbered ∧
      bound stmt.binds limitAt = some (.int limit) ∧
      bound stmt.binds offsetAt = some (.int offset) ∧
      ∀ like job, cond.eval like stmt.binds job.column = true ↔
        (scope.predicate job.toJobRow = true ∧ filters.keeps like job)) := by
  constructor
  · intro h
    refine ⟨if_pos h, fun job => ?_⟩
    rw [JobAclScope.isEmpty, Bool.and_eq_true, List.isEmpty_iff, List.isEmpty_iff] at h
    rw [JobAclScope.predicate, h.1, h.2]
    simp
  · intro h
    obtain ⟨-, -, hnumbers, hcount, heval⟩ :=
      listCondition_spec h filters [.int limit, .int offset]
    refine ⟨_, (listCondition scope filters).1, (listCondition scope filters).2,
      (listCondition scope filters).2 + 1, listWithAcl_eq h filters limit offset, rfl, ?_, ?_, ?_,
      heval⟩
    · have hplain : Plain ("SELECT " ++ jobColumns ++ " FROM job WHERE ").toList := by
        rw [String.toList_append, String.toList_append]
        exact (Plain.append (Plain.ofList (by decide)) plain_jobColumns).append
          (Plain.ofList (by decide))
      have hscan := @placeholders_sql _ _ (listCondition scope filters).1
        (pagePieces (listCondition scope filters).2) hplain.1 (pagePieces_toList _)
        fun s => plain_pagePieces
      rw [Statement.Numbered, hscan]
      · have hend : ((scope.bindValues ++ filters.bindValues).map Value.text ++
            [Value.int limit, .int offset]).length + 1 = (listCondition scope filters).2 + 2 := by
          rw [List.length_append, List.length_map, hcount]
          rfl
        rw [hend]
        exact hnumbers.append (consecutive_range' _ 2) (by omega) (by omega)
      · rw [String.toList_append, String.toList_append, String.toList_ofList]
    · have hat := bound_append ((scope.bindValues ++ filters.bindValues).map .text)
        [.int offset] (.int limit)
      rw [List.length_map, ← hcount] at hat
      exact hat
    · have hat := bound_append
        ((scope.bindValues ++ filters.bindValues).map Value.text ++ [Value.int limit]) []
        (.int offset)
      rw [List.length_append, List.length_map, List.length_singleton, ← hcount,
        List.append_assoc] at hat
      exact hat

theorem list_binds_numbered_mixed :
    ∃ stmt, listWithAcl ⟨[("w", "t")], [("w", "t", "f")]⟩ ⟨some "failed", none, some "50%"⟩ 20 0 =
        some stmt ∧
      stmt.Numbered ∧
      stmt.binds = [.text "w", .text "t", .text "w", .text "t", .text "f", .text "failed",
        .text "%50\\%%", .int 20, .int 0] := by
  obtain ⟨stmt, -, -, -, hstmt, -, hnumbered, -⟩ := (list_binds_numbered
    ⟨[("w", "t")], [("w", "t", "f")]⟩ ⟨some "failed", none, some "50%"⟩ 20 0).2 rfl
  refine ⟨stmt, hstmt, hnumbered, ?_⟩
  cases hstmt
  decide

theorem countWithAcl_numbered {scope : JobAclScope} (h : scope.isEmpty = false)
    (filters : JobFilters) :
    ∃ stmt, countWithAcl scope filters = some stmt ∧ stmt.Numbered ∧
      stmt.sql.toList = "SELECT COUNT(*) FROM job WHERE ".toList ++
        render ((listCondition scope filters).1.pieces JobColumn.sql) ∧
      ∀ like job, (listCondition scope filters).1.eval like stmt.binds job.column = true ↔
        (scope.predicate job.toJobRow = true ∧ filters.keeps like job) := by
  obtain ⟨htext, -, hnumbers, hcount, heval⟩ := listCondition_spec h filters []
  have hvalue : countWithAcl scope filters = if scope.isEmpty then none else some {
      sql := "SELECT COUNT(*) FROM job WHERE " ++ (scope.predicateSql 1).1 ++
        (listFilters (scope.predicateSql 1).2 filters).1
      binds := (scope.bindValues ++ filters.bindValues).map .text } := rfl
  have hsql : ("SELECT COUNT(*) FROM job WHERE " ++ (scope.predicateSql 1).1 ++
      (listFilters (scope.predicateSql 1).2 filters).1).toList =
        "SELECT COUNT(*) FROM job WHERE ".toList ++
          render ((listCondition scope filters).1.pieces JobColumn.sql) := by
    rw [String.append_assoc, String.toList_append, htext]
  rw [List.append_nil] at heval
  refine ⟨_, hvalue.trans (if_neg (by rw [h]; exact Bool.false_ne_true)), ?_, hsql, heval⟩
  have hplain : Plain "SELECT COUNT(*) FROM job WHERE ".toList := Plain.ofList (by decide)
  have hscan := @placeholders_sql _ "" (listCondition scope filters).1 [] hplain.1 rfl
    (fun _ hs => by cases hs)
  rw [Statement.Numbered, hscan]
  · rw [List.length_map, ← hcount]
    simpa [params] using hnumbers
  · rw [hsql]
    exact (List.append_nil _).symm

theorem countWithAcl_numbered_mixed :
    ∃ stmt, countWithAcl ⟨[("w", "t")], [("w", "t", "f")]⟩ ⟨some "failed", none, some "50%"⟩ =
        some stmt ∧
      stmt.Numbered ∧
      stmt.binds = [.text "w", .text "t", .text "w", .text "t", .text "f", .text "failed",
        .text "%50\\%%"] := by
  have hscope : (⟨[("w", "t")], [("w", "t", "f")]⟩ : JobAclScope).isEmpty = false := rfl
  obtain ⟨stmt, hstmt, hnumbered, -⟩ :=
    countWithAcl_numbered hscope ⟨some "failed", none, some "50%"⟩
  refine ⟨stmt, hstmt, hnumbered, ?_⟩
  cases hstmt
  decide

theorem getStatusCountsWithAcl_numbered {scope : JobAclScope} (h : scope.isEmpty = false) :
    ∃ stmt, getStatusCountsWithAcl scope = some stmt ∧ stmt.Numbered ∧
      stmt.sql.toList = "SELECT status, COUNT(*) FROM job WHERE ".toList ++
        render ((scopeCondition scope 1).pieces JobColumn.sql) ++ " GROUP BY status".toList ∧
      ∀ like (job : ListedJob), (scopeCondition scope 1).eval like stmt.binds job.column = true ↔
        scope.predicate job.toJobRow = true := by
  obtain ⟨htext, -⟩ := predicateSql_eq h 1
  have hsql : ("SELECT status, COUNT(*) FROM job WHERE " ++ (scope.predicateSql 1).1 ++
      " GROUP BY status").toList = "SELECT status, COUNT(*) FROM job WHERE ".toList ++
        render ((scopeCondition scope 1).pieces JobColumn.sql) ++ " GROUP BY status".toList := by
    rw [String.toList_append, String.toList_append, htext]
  refine ⟨_, if_neg (by rw [h]; exact Bool.false_ne_true), ?_, hsql, fun like job => ?_⟩
  · have hplain : Plain "SELECT status, COUNT(*) FROM job WHERE ".toList :=
      Plain.ofList (by decide)
    have hscan := @placeholders_sql _ " GROUP BY status" (scopeCondition scope 1)
      [.text " GROUP BY status".toList] hplain.1 rfl fun s hs => by
        rw [Piece.text.inj (List.mem_singleton.mp hs)]
        exact Plain.ofList (by decide)
    rw [Statement.Numbered, hscan hsql]
    have hend : 1 + 2 * scope.livePairs.length + 3 * scope.pinnedTriples.length =
        (scope.bindValues.map Value.text).length + 1 := by
      rw [List.length_map, length_bindValues]
      omega
    rw [← hend]
    simpa [params] using scopeCondition_consecutive scope
  · have hselects := scopeCondition_eval scope like job []
    rw [List.append_nil] at hselects
    exact hselects

theorem getStatusCountsWithAcl_numbered_mixed :
    ∃ stmt, getStatusCountsWithAcl ⟨[("w", "t")], [("w", "t", "f")]⟩ = some stmt ∧
      stmt.Numbered ∧
      stmt.binds = [.text "w", .text "t", .text "w", .text "t", .text "f"] := by
  have hscope : (⟨[("w", "t")], [("w", "t", "f")]⟩ : JobAclScope).isEmpty = false := rfl
  obtain ⟨stmt, hstmt, hnumbered, -⟩ := getStatusCountsWithAcl_numbered hscope
  refine ⟨stmt, hstmt, hnumbered, ?_⟩
  cases hstmt
  decide

end Stroem.Acl
