import Stroem.Foundation.FirstWins
import Stroem.JobCreation
import Stroem.Local

/-!
# The outcomes of a flow

An `Oracle` fixes what a run cannot decide for itself: the values of the conditions and of the
loop expressions, and how every step and every instance of a loop ends.  Under an oracle a flow
has outcomes of its own, without an order of execution: `Solves` says of a map from steps to
outcomes that every step has the outcome that the gate over the others and the oracle give it.
The local runner ends with outcomes that solve the flow.
-/

namespace Stroem.Local

open Foundation Cascade JobCreation

variable {s : LocalState} {d : String × Gate}

structure Oracle where
  condition : String → Option Bool
  items : String → Option (List Json)
  succeeds : String → Bool

/-! ## What an oracle says about a step -/

namespace Oracle

variable (o : Oracle)

def conditionOf (name : String) (fs : FlowStep) : Option Bool :=
  if fs.when.isSome then o.condition name else some true

def loopOutcome (name : String) (items : List Json) : DepOutcome :=
  if items.isEmpty then .skipped
  else if maxForEachItems < items.length then .failed
  else if (List.range items.length).all fun k => o.succeeds (instanceName name k) then .completed
  else .failed

def bodyOutcome (name : String) (fs : FlowStep) : DepOutcome :=
  match fs.forEach with
  | none => if o.succeeds name then .completed else .failed
  | some _ =>
    match o.items name with
    | none => .failed
    | some items => o.loopOutcome name items

def verdict (name : String) (fs : FlowStep) : DepOutcome :=
  match o.conditionOf name fs with
  | none => .failed
  | some false => .skipped
  | some true => o.bodyOutcome name fs

def resolve (name : String) (fs : FlowStep) : Gate → DepOutcome
  | .wait => .pending
  | .omitted => .omitted
  | .open => o.verdict name fs

def Solves (flow : Flow) (outcome : String → DepOutcome) : Prop :=
  ∀ name fs, flow.get name = some fs →
    outcome name ≠ .pending ∧ outcome name = o.resolve name fs (gate outcome fs.dependsOn)

end Oracle

structure LocalEnv.Follows (env : LocalEnv) (o : Oracle) (flow : Flow) : Prop where
  condition : ∀ name fs w ctx, flow.get name = some fs → fs.when = some w →
    (evaluateCondition env.templates w ctx).toOption = o.condition name
  items : ∀ name fs expr ctx, flow.get name = some fs → fs.forEach = some expr →
    (forEachItems env.templates expr ctx).toOption = o.items name
  plain : ∀ name fs ctx, flow.get name = some fs → fs.forEach = none →
    (env.executeStep name none ctx).toOption.any RunResult.success = o.succeeds name
  iteration : ∀ name fs expr k ctx, flow.get name = some fs → fs.forEach = some expr →
    (env.executeStep name (some k) ctx).toOption.any RunResult.success =
      o.succeeds (instanceName name k)

theorem Oracle.verdict_cases (o : Oracle) (name : String) (fs : FlowStep) :
    o.verdict name fs = .completed ∨ o.verdict name fs = .failed ∨
      o.verdict name fs = .skipped := by
  unfold verdict bodyOutcome loopOutcome
  repeat' split
  all_goals simp

theorem Oracle.verdict_ne_pending (o : Oracle) (name : String) (fs : FlowStep) :
    o.verdict name fs ≠ .pending := by
  rcases o.verdict_cases name fs with h | h | h <;> simp [h]

/-! ## Maps -/

theorem lookup_insertEntry {ν : Type*} (table : List (String × ν)) (key : String) (value : ν)
    (k : String) :
    (insertEntry table key value).lookup k = if k = key then some value else table.lookup k := by
  by_cases h : k = key
  · simp [insertEntry, h]
  · have hfilter : (table.filter fun e => e.1 != key).lookup k = table.lookup k := by
      induction table with
      | nil => rfl
      | cons e table ih =>
        by_cases he : e.1 = key
        · have hk : (k == e.1) = false := by
            rw [he]
            exact beq_eq_false_iff_ne.mpr h
          rw [List.filter_cons_of_neg (by simp [he]), ih, List.lookup_cons, hk]
        · rw [List.filter_cons_of_pos (by simp [he]), List.lookup_cons, List.lookup_cons, ih]
    rw [insertEntry, List.lookup_cons, beq_eq_false_iff_ne.mpr h, if_neg h]
    exact hfilter

theorem nodup_insertEntry {ν : Type*} {table : List (String × ν)} (key : String) (value : ν)
    (h : (table.map Prod.fst).Nodup) : ((insertEntry table key value).map Prod.fst).Nodup := by
  simp only [insertEntry, List.map_cons, List.nodup_cons]
  refine ⟨?_, h.sublist (List.filter_sublist.map _)⟩
  simp

/-! ## One step of the runner -/

section Step

variable {env : LocalEnv} {o : Oracle} {flow : Flow} {step : String} {fs : FlowStep}

theorem runIterations_anyFailed (henv : env.Follows o flow) {expr : Json}
    (hfs : flow.get step = some fs) (hloop : fs.forEach = some expr) (tolerant : Bool) (ctx : Json)
    (idx : Nat) (items : List Json) (acc : Iterations) :
    (runIterations env step tolerant ctx idx items acc).anyFailed =
      (acc.anyFailed || !(List.range' idx items.length).all
        fun k => o.succeeds (instanceName step k)) := by
  induction items generalizing idx acc with
  | nil => simp [runIterations]
  | cons item items ih =>
    have hexec := henv.iteration step fs expr idx (withEach ctx item idx) hfs hloop
    have hrange : List.range' idx (item :: items).length =
        idx :: List.range' (idx + 1) items.length := rfl
    rw [hrange, List.all_cons, ← hexec]
    unfold runIterations
    cases hresult : env.executeStep step (some idx) (withEach ctx item idx) with
    | error e =>
      cases tolerant with
      | true => simp [ih, Except.toOption]
      | false => simp [Except.toOption]
    | ok result =>
      cases hsuccess : result.success with
      | true => simp [ih, Except.toOption, hsuccess]
      | false =>
        cases tolerant with
        | true => simp [ih, Except.toOption, hsuccess]
        | false => simp [Except.toOption, hsuccess]

theorem runPlainStep_outcomes (henv : env.Follows o flow) (hfs : flow.get step = some fs)
    (hplain : fs.forEach = none) (s : LocalState) (ctx : Json) :
    (runPlainStep env s step ctx).outcomes =
      insertEntry s.outcomes step (if o.succeeds step then .completed else .failed) := by
  rw [← henv.plain step fs ctx hfs hplain]
  unfold runPlainStep
  cases env.executeStep step none ctx with
  | error e => rfl
  | ok result =>
    cases hsuccess : result.success with
    | true => simp [Except.toOption, hsuccess, LocalState.recordCompleted]
    | false => simp [Except.toOption, hsuccess, LocalState.recordFailure]

theorem runLoopStep_outcomes (henv : env.Follows o flow) {expr : Json}
    (hfs : flow.get step = some fs) (hloop : fs.forEach = some expr) (s : LocalState) (ctx : Json)
    {items : List Json} (hne : items ≠ []) (hlen : items.length ≤ maxForEachItems) :
    (runLoopStep env s step fs ctx items).outcomes =
      insertEntry s.outcomes step (o.loopOutcome step items) := by
  have hfailed := runIterations_anyFailed henv hfs hloop fs.continueOnFailure ctx 0 items {}
  rw [← List.range_eq_range'] at hfailed
  simp only [Bool.false_or] at hfailed
  have hempty : items.isEmpty = false := by simpa using hne
  have hfew : ¬ maxForEachItems < items.length := by omega
  simp only [runLoopStep, hfailed, Oracle.loopOutcome, hempty, hfew, Bool.false_eq_true, if_false]
  cases (List.range items.length).all fun k => o.succeeds (instanceName step k) with
  | true => rfl
  | false => rfl

theorem runBody_outcomes (henv : env.Follows o flow) (hfs : flow.get step = some fs)
    (s : LocalState) (ctx : Json) :
    (runBody env s step fs ctx).outcomes = insertEntry s.outcomes step (o.bodyOutcome step fs) := by
  unfold runBody Oracle.bodyOutcome
  cases hloop : fs.forEach with
  | none => exact runPlainStep_outcomes henv hfs hloop s ctx
  | some expr =>
    have hitems := henv.items step fs expr ctx hfs hloop
    simp only [evaluateForEach]
    cases hvalue : forEachItems env.templates expr ctx with
    | error e =>
      rw [hvalue] at hitems
      simp only [← hitems, Except.toOption]
      rfl
    | ok items =>
      rw [hvalue] at hitems
      simp only [← hitems, Except.toOption]
      by_cases hmany : maxForEachItems < items.length
      · have hne : items.isEmpty = false := by
          cases items with
          | nil => simp at hmany
          | cons item items => rfl
        simp [hmany, Oracle.loopOutcome, hne, LocalState.recordFailure]
      · simp only [hmany, if_false]
        cases hempty : items.isEmpty with
        | true => simp [Oracle.loopOutcome, hempty, LocalState.recordSkip]
        | false =>
          simp only [Bool.false_eq_true, if_false]
          exact runLoopStep_outcomes henv hfs hloop s ctx (by simpa using hempty) (by omega)

theorem runStep_outcomes (henv : env.Follows o flow) (hfs : flow.get step = some fs)
    (s : LocalState) :
    (runStep env s step fs).outcomes = insertEntry s.outcomes step (o.verdict step fs) := by
  unfold runStep Oracle.verdict Oracle.conditionOf
  cases hwhen : fs.when with
  | none => exact runBody_outcomes henv hfs s _
  | some w =>
    have hcond := henv.condition step fs w (buildRenderContext env s) hfs hwhen
    simp only [Option.isSome_some, if_true]
    rw [← hcond]
    cases evaluateCondition env.templates w (buildRenderContext env s) with
    | error e => rfl
    | ok value =>
      cases value with
      | true => exact runBody_outcomes henv hfs s _
      | false => rfl

theorem decideStep_outcomes (henv : env.Follows o flow) (hfs : flow.get step = some fs)
    (s : LocalState) {g : Gate} (hg : g ≠ .wait) :
    (decideStep env flow s (step, g)).outcomes =
      insertEntry s.outcomes step (o.resolve step fs g) := by
  cases g with
  | wait => exact absurd rfl hg
  | omitted => rfl
  | «open» =>
    simp only [decideStep, hfs]
    exact runStep_outcomes henv hfs s

end Step

/-! ## Rounds -/

section Rounds

variable {env : LocalEnv} {o : Oracle} {flow : Flow}

structure Decided (o : Oracle) (flow : Flow) (s : LocalState) : Prop where
  keys : (s.outcomes.map Prod.fst).Nodup
  decided : ∀ name, (s.outcomes.lookup name).isSome = true → ∃ fs, flow.get name = some fs ∧
    s.outcome name ≠ .pending ∧ s.outcome name = o.resolve name fs (gate s.outcome fs.dependsOn)

theorem outcome_insertEntry {s' : LocalState} {step : String} {outcome : DepOutcome}
    (h : s'.outcomes = insertEntry s.outcomes step outcome) (name : String) :
    s'.outcome name = if name = step then outcome else s.outcome name := by
  unfold LocalState.outcome
  rw [h, lookup_insertEntry]
  split <;> rfl

theorem gate_of_extends {f g : String → DepOutcome} {deps : List DependsOnEntry}
    (hext : ∀ n ∈ collectNames deps, f n ≠ .pending → g n = f n) (hgate : gate f deps ≠ .wait) :
    gate g deps = gate f deps := by
  refine gate_congr fun n hn => hext n hn fun hpend => hgate ?_
  exact gate_eq_wait_iff.mpr ⟨n, hn, hpend⟩

theorem Oracle.resolve_ne_pending (o : Oracle) (name : String) (fs : FlowStep) {g : Gate}
    (hg : g ≠ .wait) : o.resolve name fs g ≠ .pending := by
  cases g with
  | wait => exact absurd rfl hg
  | omitted => simp [resolve]
  | «open» => exact o.verdict_ne_pending name fs

structure DueStep (flow : Flow) (s : LocalState) (d : String × Gate) (fs : FlowStep) : Prop where
  step : flow.get d.1 = some fs
  gate_eq : d.2 = gate s.outcome fs.dependsOn
  ne_wait : d.2 ≠ .wait
  undecided : s.outcomes.lookup d.1 = none

theorem decideStep_outcome (henv : env.Follows o flow)
    {fs : FlowStep} (hd : DueStep flow s d fs) (name : String) :
    (decideStep env flow s d).outcome name =
      if name = d.1 then o.resolve d.1 fs d.2 else s.outcome name :=
  outcome_insertEntry (decideStep_outcomes henv hd.step s hd.ne_wait) name

theorem decideStep_extends (henv : env.Follows o flow)
    {fs : FlowStep} (hd : DueStep flow s d fs) :
    ∀ n, s.outcome n ≠ .pending → (decideStep env flow s d).outcome n = s.outcome n := by
  intro n hn
  rw [decideStep_outcome henv hd]
  split
  case isTrue heq =>
    subst heq
    simp [LocalState.outcome, hd.undecided] at hn
  case isFalse => rfl

theorem Decided.decideStep (henv : env.Follows o flow) (h : Decided o flow s)
    {fs : FlowStep} (hd : DueStep flow s d fs) :
    Decided o flow (decideStep env flow s d) := by
  have hout := decideStep_outcomes henv hd.step s hd.ne_wait
  have hext := decideStep_extends henv hd
  constructor
  · rw [hout]
    exact nodup_insertEntry _ _ h.keys
  · intro name hname
    rw [hout, lookup_insertEntry] at hname
    by_cases heq : name = d.1
    · subst heq
      refine ⟨fs, hd.step, ?_⟩
      have hgate : gate (Local.decideStep env flow s d).outcome fs.dependsOn = d.2 := by
        rw [hd.gate_eq]
        exact gate_of_extends (fun n _ => hext n) (hd.gate_eq ▸ hd.ne_wait)
      rw [hgate, decideStep_outcome henv hd, if_pos rfl]
      exact ⟨o.resolve_ne_pending _ _ hd.ne_wait, rfl⟩
    · rw [if_neg heq] at hname
      obtain ⟨fs', hfs', hne, hresolve⟩ := h.decided name hname
      refine ⟨fs', hfs', ?_⟩
      have hgate : gate s.outcome fs'.dependsOn ≠ .wait := by
        intro hwait
        rw [hresolve, hwait] at hne
        exact hne rfl
      rw [hext name hne, gate_of_extends (fun n _ => hext n) hgate]
      exact ⟨hne, hresolve⟩

theorem DueStep.decideStep (henv : env.Follows o flow) {d' : String × Gate}
    {fs fs' : FlowStep} (hd : DueStep flow s d fs) (hd' : DueStep flow s d' fs')
    (hne : d'.1 ≠ d.1) :
    DueStep flow (decideStep env flow s d) d' fs' := by
  refine ⟨hd'.step, ?_, hd'.ne_wait, ?_⟩
  · rw [gate_of_extends (fun n _ => decideStep_extends henv hd n) (hd'.gate_eq ▸ hd'.ne_wait)]
    exact hd'.gate_eq
  · rw [decideStep_outcomes henv hd.step s hd.ne_wait, lookup_insertEntry, if_neg hne]
    exact hd'.undecided

theorem foldl_decideStep (henv : env.Follows o flow) {ds : List (String × Gate)}
    (h : Decided o flow s) (hdue : ∀ d ∈ ds, ∃ fs, DueStep flow s d fs)
    (hnodup : (ds.map Prod.fst).Nodup) :
    Decided o flow (ds.foldl (decideStep env flow) s) ∧
      ∀ name, ((ds.foldl (decideStep env flow) s).outcomes.lookup name).isSome = true ↔
        (s.outcomes.lookup name).isSome = true ∨ name ∈ ds.map Prod.fst := by
  induction ds generalizing s with
  | nil => exact ⟨h, by simp⟩
  | cons d ds ih =>
    obtain ⟨hnotMem, hnodup⟩ := List.nodup_cons.mp hnodup
    obtain ⟨fs, hd⟩ := hdue d List.mem_cons_self
    have hrest : ∀ d' ∈ ds, ∃ fs', DueStep flow (decideStep env flow s d) d' fs' := by
      intro d' hd'
      obtain ⟨fs', hdue'⟩ := hdue d' (List.mem_cons_of_mem d hd')
      refine ⟨fs', hd.decideStep henv hdue' fun heq => hnotMem ?_⟩
      exact List.mem_map.mpr ⟨d', hd', heq⟩
    obtain ⟨hdecided, hkeys⟩ := ih (h.decideStep henv hd) hrest hnodup
    refine ⟨hdecided, fun name => ?_⟩
    rw [List.foldl_cons, hkeys name, decideStep_outcomes henv hd.step s hd.ne_wait,
      lookup_insertEntry]
    by_cases heq : name = d.1
    · simp [heq]
    · simp [heq]

theorem mem_decidable :
    d ∈ decidable flow s ↔ ∃ fs, DueStep flow s d fs := by
  simp only [decidable, List.mem_insertionSort, List.mem_filterMap, List.mem_filter,
    Option.isNone_iff_eq_none]
  constructor
  · rintro ⟨e, ⟨he, hnone⟩, hd⟩
    split at hd
    case isTrue hwait =>
      cases hd
      exact ⟨e.2, Flow.get_of_mem_entries he, rfl, by simpa using hwait, hnone⟩
    case isFalse => cases hd
  · rintro ⟨fs, hstep, hgate, hwait, hnone⟩
    refine ⟨(d.1, fs), ⟨Flow.mem_entries_of_get hstep, hnone⟩, ?_⟩
    simp only [← hgate]
    rw [if_pos (by simpa using hwait)]

theorem nodup_decidable (s : LocalState) : ((decidable flow s).map Prod.fst).Nodup := by
  have hperm := (List.perm_insertionSort (fun a b : String × Gate => a.1 ≤ b.1)
    ((flow.entries.filter fun e => (s.outcomes.lookup e.1).isNone).filterMap fun e =>
      if gate s.outcome e.2.dependsOn != .wait then
        some (e.1, gate s.outcome e.2.dependsOn) else none)).map Prod.fst
  refine hperm.nodup_iff.mpr ?_
  have hkeys : flow.entries.Pairwise fun a b => a.1 ≠ b.1 := List.pairwise_map.mp flow.nodup
  refine List.pairwise_map.mpr (List.Pairwise.filterMap _ ?_ (hkeys.filter _))
  intro a b hne d hd d' hd'
  simp only [Option.ite_none_right_eq_some] at hd hd'
  obtain rfl := Option.some.inj hd.2
  obtain rfl := Option.some.inj hd'.2
  exact hne

def undecided (flow : Flow) (s : LocalState) : List String :=
  flow.keys.filter fun name => (s.outcomes.lookup name).isNone

theorem undecided_round (henv : env.Follows o flow) (h : Decided o flow s)
    (hne : decidable flow s ≠ []) :
    (undecided flow ((decidable flow s).foldl (decideStep env flow) s)).length <
      (undecided flow s).length := by
  obtain ⟨-, hkeys⟩ := foldl_decideStep henv h (fun d hd => mem_decidable.mp hd) (nodup_decidable s)
  have hfilter : undecided flow ((decidable flow s).foldl (decideStep env flow) s) =
      (undecided flow s).filter fun name => !((decidable flow s).map Prod.fst).contains name := by
    unfold undecided
    rw [List.filter_filter]
    refine List.filter_congr fun name _ => ?_
    rw [Bool.eq_iff_iff]
    simp only [Bool.and_eq_true, Bool.not_eq_true', ← Bool.not_eq_true, List.contains_iff_mem,
      ← Option.not_isSome, hkeys name]
    tauto
  rw [hfilter, List.length_filter_lt_length_iff_exists]
  obtain ⟨d, hd⟩ := List.exists_mem_of_ne_nil _ hne
  obtain ⟨fs, hdue⟩ := mem_decidable.mp hd
  refine ⟨d.1, List.mem_filter.mpr ⟨Flow.mem_keys_iff.mpr ⟨fs, hdue.step⟩, ?_⟩, ?_⟩
  · simp [hdue.undecided]
  · simp only [Bool.not_eq_true', Bool.not_eq_false, List.contains_iff_mem]
    exact List.mem_map_of_mem hd

theorem runRounds_ends (henv : env.Follows o flow) {fuel : Nat}
    (h : Decided o flow s) (hfuel : (undecided flow s).length < fuel) :
    ∃ s', runRounds env flow fuel s = some s' ∧ Decided o flow s' ∧ decidable flow s' = [] := by
  induction fuel generalizing s with
  | zero => omega
  | succ fuel ih =>
    unfold runRounds
    cases hround : decidable flow s with
    | nil => exact ⟨s, rfl, h, hround⟩
    | cons d ds =>
      have hne : decidable flow s ≠ [] := by simp [hround]
      have hless := undecided_round henv h hne
      obtain ⟨hdecided, -⟩ := foldl_decideStep henv h (fun d hd => mem_decidable.mp hd)
        (nodup_decidable s)
      rw [← hround]
      simp only [List.isEmpty_iff, hne, if_false]
      exact ih hdecided (by omega)

theorem Decided.solves (hdag : flow.Accepted) (h : Decided o flow s)
    (hend : decidable flow s = []) :
    (∀ name ∈ flow.keys, (s.outcomes.lookup name).isSome = true) ∧ o.Solves flow s.outcome := by
  obtain ⟨rank, hrank⟩ := hdag.rank
  have hall : ∀ n name, rank name < n → name ∈ flow.keys →
      (s.outcomes.lookup name).isSome = true := by
    intro n
    induction n with
    | zero => intro name hlt; omega
    | succ n ih =>
      intro name hlt hname
      obtain ⟨fs, hfs⟩ := Flow.mem_keys_iff.mp hname
      by_contra hnone
      have hnone := Option.not_isSome_iff_eq_none.mp hnone
      have hopen : gate s.outcome fs.dependsOn ≠ .wait := by
        intro hwait
        obtain ⟨d, hd, hpend⟩ := gate_eq_wait_iff.mp hwait
        obtain ⟨hkey, hlower⟩ := hrank name fs hfs d hd
        obtain ⟨fs', -, hne, -⟩ := h.decided d (ih d (by omega) hkey)
        exact hne hpend
      have hmem : (name, gate s.outcome fs.dependsOn) ∈ decidable flow s :=
        mem_decidable.mpr ⟨fs, hfs, rfl, hopen, hnone⟩
      rw [hend] at hmem
      cases hmem
  have hsome : ∀ name ∈ flow.keys, (s.outcomes.lookup name).isSome = true :=
    fun name hname => hall _ name (Nat.lt_succ_self _) hname
  refine ⟨hsome, fun name fs hfs => ?_⟩
  obtain ⟨fs', hfs', hne, hresolve⟩ := h.decided name (hsome name (Flow.mem_keys_iff.mpr ⟨fs, hfs⟩))
  obtain rfl := Option.some.inj (hfs.symm.trans hfs')
  exact ⟨hne, hresolve⟩

theorem runDag_ends (hdag : flow.Accepted) (henv : env.Follows o flow) {fuel : Nat}
    (hfuel : flow.entries.length < fuel) :
    ∃ s, runDag env fuel flow = some (s, summarize flow s) ∧ Decided o flow s ∧
      (∀ name ∈ flow.keys, (s.outcomes.lookup name).isSome = true) ∧ o.Solves flow s.outcome := by
  have hinit : Decided o flow {} := ⟨List.nodup_nil, by simp⟩
  have hlen : (undecided flow {}).length ≤ flow.entries.length := by
    refine le_trans (List.length_filter_le _ _) (le_of_eq ?_)
    simp [Flow.keys]
  obtain ⟨s, hrun, hdecided, hend⟩ := runRounds_ends henv hinit (by omega : _ < fuel)
  obtain ⟨hkeys, hsolves⟩ := hdecided.solves hdag hend
  exact ⟨s, by simp [runDag, hrun], hdecided, hkeys, hsolves⟩

theorem Decided.uncaught_iff (h : Decided o flow s) :
    uncaught flow s = true ↔
      ∃ name fs, flow.get name = some fs ∧ s.outcome name = .failed ∧
        fs.continueOnFailure = false := by
  simp only [uncaught, List.any_eq_true, Bool.and_eq_true, beq_iff_eq, Bool.not_eq_true']
  constructor
  · rintro ⟨e, he, hfailed, hcof⟩
    have hlookup := lookup_eq_some_of_mem h.keys he
    obtain ⟨fs, hfs, -⟩ := h.decided e.1 (by simp [hlookup])
    refine ⟨e.1, fs, hfs, by simp [LocalState.outcome, hlookup, hfailed], ?_⟩
    simpa [hfs] using hcof
  · rintro ⟨name, fs, hfs, hfailed, hcof⟩
    cases hlookup : s.outcomes.lookup name with
    | none => simp [LocalState.outcome, hlookup] at hfailed
    | some outcome =>
      refine ⟨(name, outcome), mem_of_lookup hlookup, ?_, by simp [hfs, hcof]⟩
      rwa [LocalState.outcome, hlookup] at hfailed

end Rounds

end Stroem.Local
