import Stroem.DependsOn
import Stroem.Status

/-!
# The dependency gate

Whether a flow step may run: it waits until every step its tree names is terminal, and then
the tree is evaluated once over their outcomes.
-/

namespace Stroem

inductive DepOutcome where
  | pending
  | completed
  | failed
  | cancelled
  | skipped
  | omitted
  deriving DecidableEq

namespace DepOutcome

def fromRow (status : StepStatus) (skipReason : Option String) : DepOutcome :=
  match status with
  | .completed => .completed
  | .failed => .failed
  | .cancelled => .cancelled
  | .skipped =>
    match skipReason.bind SkipReason.parse with
    | some .condition | some .empty => .skipped
    | some .cascade | some .unreachable | none => .omitted
  | .pending | .ready | .claimed | .running | .suspended => .pending

def asSchemaOutcome : DepOutcome → Option Outcome
  | .pending => none
  | .completed => some .completed
  | .failed => some .failed
  | .cancelled => some .cancelled
  | .skipped => some .skipped
  | .omitted => some .omitted

theorem fromRow_eq_pending_iff {status : StepStatus} {reason : Option String} :
    fromRow status reason = .pending ↔ status.isTerminal = false := by
  cases status <;> simp [fromRow, StepStatus.isTerminal]
  split <;> simp

theorem fromRow_eq_failed {status : StepStatus} {reason : Option String}
    (h : fromRow status reason = .failed) : status = .failed := by
  cases status with
  | failed => rfl
  | skipped =>
    simp only [fromRow] at h
    split at h <;> cases h
  | _ => cases h

theorem asSchemaOutcome_eq_some_completed {o : DepOutcome} :
    o.asSchemaOutcome = some .completed ↔ o = .completed := by
  cases o <;> simp [asSchemaOutcome]

end DepOutcome

inductive Gate where
  | open
  | wait
  | omitted
  deriving DecidableEq

section Evaluate

variable (outcomeOf : String → DepOutcome)

mutual

def allTerminal : DependsOnEntry → Bool
  | .name n => outcomeOf n != .pending
  | .step n _ => outcomeOf n != .pending
  | .all entries => allTerminalList entries
  | .any entries => allTerminalList entries

def allTerminalList : List DependsOnEntry → Bool
  | [] => true
  | e :: es => allTerminal e && allTerminalList es

end

mutual

def satisfied : DependsOnEntry → Bool
  | .name n => outcomeOf n == .completed
  | .step n accept => (outcomeOf n).asSchemaOutcome.any accept.contains
  | .all entries => satisfiedAll entries
  | .any entries => satisfiedAny entries

def satisfiedAll : List DependsOnEntry → Bool
  | [] => true
  | e :: es => satisfied e && satisfiedAll es

def satisfiedAny : List DependsOnEntry → Bool
  | [] => false
  | e :: es => satisfied e || satisfiedAny es

end

def gate (dependsOn : List DependsOnEntry) : Gate :=
  if !allTerminalList outcomeOf dependsOn then .wait
  else if satisfiedAll outcomeOf dependsOn then .open
  else .omitted

/-! ## What the gate decides -/

mutual

theorem allTerminal_iff (e : DependsOnEntry) :
    allTerminal outcomeOf e = true ↔ ∀ n ∈ e.names, outcomeOf n ≠ .pending := by
  cases e with
  | name n | step n accept => simp [allTerminal, DependsOnEntry.names]
  | all entries | any entries =>
    simpa [allTerminal, DependsOnEntry.names] using allTerminalList_iff entries

theorem allTerminalList_iff (es : List DependsOnEntry) :
    allTerminalList outcomeOf es = true ↔ ∀ n ∈ collectNames es, outcomeOf n ≠ .pending := by
  cases es with
  | nil => simp [allTerminalList, collectNames]
  | cons e es =>
    simp only [allTerminalList, collectNames, Bool.and_eq_true, allTerminal_iff e,
      allTerminalList_iff es, List.mem_append]
    constructor
    · rintro ⟨he, hes⟩ n (hn | hn)
      · exact he n hn
      · exact hes n hn
    · intro h
      exact ⟨fun n hn => h n (.inl hn), fun n hn => h n (.inr hn)⟩

end

mutual

theorem satisfied_iff (e : DependsOnEntry) :
    satisfied outcomeOf e = true ↔ e.Sat fun n => (outcomeOf n).asSchemaOutcome := by
  cases e with
  | name n =>
    simp [satisfied, DependsOnEntry.Sat, DepOutcome.asSchemaOutcome_eq_some_completed]
  | step n accept =>
    simp [satisfied, DependsOnEntry.Sat, Option.any_eq_true]
  | all entries => simpa [satisfied, DependsOnEntry.Sat] using satisfiedAll_iff entries
  | any entries => simpa [satisfied, DependsOnEntry.Sat] using satisfiedAny_iff entries

theorem satisfiedAll_iff (es : List DependsOnEntry) :
    satisfiedAll outcomeOf es = true ↔ SatAll (fun n => (outcomeOf n).asSchemaOutcome) es := by
  cases es with
  | nil => simp [satisfiedAll, SatAll]
  | cons e es => simp [satisfiedAll, SatAll, satisfied_iff e, satisfiedAll_iff es]

theorem satisfiedAny_iff (es : List DependsOnEntry) :
    satisfiedAny outcomeOf es = true ↔ SatAny (fun n => (outcomeOf n).asSchemaOutcome) es := by
  cases es with
  | nil => simp [satisfiedAny, SatAny]
  | cons e es => simp [satisfiedAny, SatAny, satisfied_iff e, satisfiedAny_iff es]

end

variable {outcomeOf} {deps : List DependsOnEntry}

theorem gate_eq_wait_iff :
    gate outcomeOf deps = .wait ↔ ∃ n ∈ collectNames deps, outcomeOf n = .pending := by
  have hterm := allTerminalList_iff outcomeOf deps
  unfold gate
  cases h : allTerminalList outcomeOf deps with
  | false =>
    simp only [Bool.not_false, if_true, true_iff]
    by_contra hcon
    push Not at hcon
    rw [hterm.mpr hcon] at h
    cases h
  | true =>
    have hall := hterm.mp h
    have hne : ¬ ∃ n ∈ collectNames deps, outcomeOf n = .pending := by
      rintro ⟨n, hn, hp⟩
      exact hall n hn hp
    simp only [Bool.not_true, Bool.false_eq_true, if_false, hne, iff_false]
    split <;> simp

theorem gate_eq_open_iff :
    gate outcomeOf deps = .open ↔
      (∀ n ∈ collectNames deps, outcomeOf n ≠ .pending) ∧
        SatAll (fun n => (outcomeOf n).asSchemaOutcome) deps := by
  rw [← allTerminalList_iff, ← satisfiedAll_iff]
  unfold gate
  cases allTerminalList outcomeOf deps <;> cases satisfiedAll outcomeOf deps <;> simp

theorem gate_eq_omitted_iff :
    gate outcomeOf deps = .omitted ↔
      (∀ n ∈ collectNames deps, outcomeOf n ≠ .pending) ∧
        ¬ SatAll (fun n => (outcomeOf n).asSchemaOutcome) deps := by
  rw [← allTerminalList_iff, ← satisfiedAll_iff]
  unfold gate
  cases allTerminalList outcomeOf deps <;> cases satisfiedAll outcomeOf deps <;> simp

end Evaluate

/-! ## The gate reads only the steps its tree names -/

mutual

theorem allTerminal_congr {f g : String → DepOutcome} (e : DependsOnEntry)
    (h : ∀ n ∈ e.names, f n = g n) : allTerminal f e = allTerminal g e := by
  cases e with
  | name n | step n accept => simp [allTerminal, h n (by simp [DependsOnEntry.names])]
  | all entries | any entries =>
    simpa [allTerminal] using allTerminalList_congr entries
      (by simpa [DependsOnEntry.names] using h)

theorem allTerminalList_congr {f g : String → DepOutcome} (es : List DependsOnEntry)
    (h : ∀ n ∈ collectNames es, f n = g n) : allTerminalList f es = allTerminalList g es := by
  cases es with
  | nil => rfl
  | cons e es =>
    simp only [collectNames, List.mem_append] at h
    simp only [allTerminalList]
    rw [allTerminal_congr e fun n hn => h n (.inl hn),
      allTerminalList_congr es fun n hn => h n (.inr hn)]

end

mutual

theorem satisfied_congr {f g : String → DepOutcome} (e : DependsOnEntry)
    (h : ∀ n ∈ e.names, f n = g n) : satisfied f e = satisfied g e := by
  cases e with
  | name n | step n accept => simp [satisfied, h n (by simp [DependsOnEntry.names])]
  | all entries =>
    simpa [satisfied] using satisfiedAll_congr entries (by simpa [DependsOnEntry.names] using h)
  | any entries =>
    simpa [satisfied] using satisfiedAny_congr entries (by simpa [DependsOnEntry.names] using h)

theorem satisfiedAll_congr {f g : String → DepOutcome} (es : List DependsOnEntry)
    (h : ∀ n ∈ collectNames es, f n = g n) : satisfiedAll f es = satisfiedAll g es := by
  cases es with
  | nil => rfl
  | cons e es =>
    simp only [collectNames, List.mem_append] at h
    simp only [satisfiedAll]
    rw [satisfied_congr e fun n hn => h n (.inl hn),
      satisfiedAll_congr es fun n hn => h n (.inr hn)]

theorem satisfiedAny_congr {f g : String → DepOutcome} (es : List DependsOnEntry)
    (h : ∀ n ∈ collectNames es, f n = g n) : satisfiedAny f es = satisfiedAny g es := by
  cases es with
  | nil => rfl
  | cons e es =>
    simp only [collectNames, List.mem_append] at h
    simp only [satisfiedAny]
    rw [satisfied_congr e fun n hn => h n (.inl hn),
      satisfiedAny_congr es fun n hn => h n (.inr hn)]

end

theorem gate_congr {f g : String → DepOutcome} {deps : List DependsOnEntry}
    (h : ∀ n ∈ collectNames deps, f n = g n) : gate f deps = gate g deps := by
  simp only [gate, allTerminalList_congr deps h, satisfiedAll_congr deps h]

/-! ## Loop instances -/

def flowStepName (stepName : String) (loopSource : Option String) : String :=
  match loopSource with
  | some src => src
  | none => String.ofList (stepName.toList.takeWhile (· != '['))

end Stroem

/-!
# The gate as a three-valued formula

The gate waits for every name of the tree and then reads the tree as a formula over accept sets.
`Widens` relates two trees of one shape whose leaves accept more and more; it keeps the names,
so that the wider tree is decided when the narrower one is, and it keeps what is satisfied.
-/

namespace Stroem

/-! ## Trees with wider accept sets -/

def DependsOnEntry.AcceptsAll (step : String) (accept : AcceptSet) : DependsOnEntry → Prop
  | .name n => n = step ∧
      ∀ o, accept.contains o = true → AcceptSet.defaultCompletedOnly.contains o = true
  | .step n wider => n = step ∧ ∀ o, accept.contains o = true → wider.contains o = true
  | .all _ | .any _ => False

mutual

def DependsOnEntry.Widens : DependsOnEntry → DependsOnEntry → Prop
  | .name n, wider => wider.AcceptsAll n .defaultCompletedOnly
  | .step n accept, wider => wider.AcceptsAll n accept
  | .all entries, .all wider => WidensAll entries wider
  | .any entries, .any wider => WidensAll entries wider
  | .all _, .name _ | .all _, .step _ _ | .all _, .any _ => False
  | .any _, .name _ | .any _, .step _ _ | .any _, .all _ => False

def WidensAll : List DependsOnEntry → List DependsOnEntry → Prop
  | [], [] => True
  | e :: es, wider :: widers => e.Widens wider ∧ WidensAll es widers
  | [], _ :: _ | _ :: _, [] => False

end

theorem DependsOnEntry.AcceptsAll.names {step : String} {accept : AcceptSet}
    {e : DependsOnEntry} (h : e.AcceptsAll step accept) : e.names = [step] := by
  cases e with
  | name n => simp [DependsOnEntry.names, h.1]
  | step n wider => simp [DependsOnEntry.names, h.1]
  | all entries => exact h.elim
  | any entries => exact h.elim

theorem DependsOnEntry.AcceptsAll.sat {step : String} {accept : AcceptSet} {e : DependsOnEntry}
    (h : e.AcceptsAll step accept) {outcome : String → Option Outcome} {o : Outcome}
    (ho : outcome step = some o) (haccepts : accept.contains o = true) : e.Sat outcome := by
  cases e with
  | name n =>
    obtain ⟨rfl, hwider⟩ := h
    have hcompleted : o = .completed := by
      simpa [AcceptSet.contains, AcceptSet.defaultCompletedOnly] using hwider o haccepts
    simpa [DependsOnEntry.Sat, hcompleted] using ho
  | step n wider =>
    obtain ⟨rfl, hwider⟩ := h
    exact ⟨o, ho, hwider o haccepts⟩
  | all entries => exact h.elim
  | any entries => exact h.elim

mutual

theorem names_of_widens (e wider : DependsOnEntry) (h : e.Widens wider) :
    wider.names = e.names := by
  cases e with
  | name n => exact h.names
  | step n accept => exact h.names
  | all entries =>
    cases wider with
    | all widers => exact collectNames_of_widens entries widers h
    | _ => exact h.elim
  | any entries =>
    cases wider with
    | any widers => exact collectNames_of_widens entries widers h
    | _ => exact h.elim

theorem collectNames_of_widens (es widers : List DependsOnEntry) (h : WidensAll es widers) :
    collectNames widers = collectNames es := by
  cases es with
  | nil =>
    cases widers with
    | nil => rfl
    | cons wider widers => exact h.elim
  | cons e es =>
    cases widers with
    | nil => exact h.elim
    | cons wider widers =>
      simp only [collectNames, names_of_widens e wider h.1,
        collectNames_of_widens es widers h.2]

end

section Satisfied

variable {outcome : String → Option Outcome}

mutual

theorem sat_of_widens (e wider : DependsOnEntry) (h : e.Widens wider) (hsat : e.Sat outcome) :
    wider.Sat outcome := by
  cases e with
  | name n => exact h.sat hsat (by decide)
  | step n accept =>
    obtain ⟨o, ho, haccepts⟩ := hsat
    exact h.sat ho haccepts
  | all entries =>
    cases wider with
    | all widers => exact satAll_of_widens entries widers h hsat
    | _ => exact h.elim
  | any entries =>
    cases wider with
    | any widers => exact satAny_of_widens entries widers h hsat
    | _ => exact h.elim

theorem satAll_of_widens (es widers : List DependsOnEntry) (h : WidensAll es widers)
    (hsat : SatAll outcome es) : SatAll outcome widers := by
  cases es with
  | nil =>
    cases widers with
    | nil => trivial
    | cons wider widers => exact h.elim
  | cons e es =>
    cases widers with
    | nil => exact h.elim
    | cons wider widers =>
      exact ⟨sat_of_widens e wider h.1 hsat.1, satAll_of_widens es widers h.2 hsat.2⟩

theorem satAny_of_widens (es widers : List DependsOnEntry) (h : WidensAll es widers)
    (hsat : SatAny outcome es) : SatAny outcome widers := by
  cases es with
  | nil => exact hsat.elim
  | cons e es =>
    cases widers with
    | nil => exact h.elim
    | cons wider widers =>
      rcases hsat with hsat | hsat
      · exact .inl (sat_of_widens e wider h.1 hsat)
      · exact .inr (satAny_of_widens es widers h.2 hsat)

end

end Satisfied

/-! ## The gate -/

variable {outcomeOf : String → DepOutcome}

theorem gate_open_of_widens {deps wider : List DependsOnEntry} (h : WidensAll deps wider)
    (hopen : gate outcomeOf deps = .open) : gate outcomeOf wider = .open := by
  obtain ⟨hterm, hsat⟩ := gate_eq_open_iff.mp hopen
  refine gate_eq_open_iff.mpr ⟨?_, satAll_of_widens deps wider h hsat⟩
  rwa [collectNames_of_widens deps wider h]

theorem gate_eq_open_iff_of_decided {deps : List DependsOnEntry}
    (h : ∀ n ∈ collectNames deps, outcomeOf n ≠ .pending) :
    gate outcomeOf deps = .open ↔ SatAll (fun n => (outcomeOf n).asSchemaOutcome) deps := by
  rw [gate_eq_open_iff]
  exact ⟨fun hopen => hopen.2, fun hsat => ⟨h, hsat⟩⟩

/--
The gate waits exactly while a name of the tree is pending; decided, it is open exactly when the
tree holds as a formula over its accept sets. It reads no other name.
-/
theorem gate_reads_tree (deps : List DependsOnEntry) (outcomeOf : String → DepOutcome) :
    (gate outcomeOf deps = .wait ↔ ∃ n ∈ collectNames deps, outcomeOf n = .pending) ∧
    (gate outcomeOf deps ≠ .wait →
      (gate outcomeOf deps = .open ↔
        SatAll (fun n => (outcomeOf n).asSchemaOutcome) deps) ∧
      (gate outcomeOf deps = .omitted ↔
        ¬ SatAll (fun n => (outcomeOf n).asSchemaOutcome) deps)) ∧
    (∀ other : String → DepOutcome, (∀ n ∈ collectNames deps, other n = outcomeOf n) →
      gate other deps = gate outcomeOf deps) ∧
    (∀ wider, WidensAll deps wider → gate outcomeOf deps = .open →
      gate outcomeOf wider = .open) := by
  refine ⟨gate_eq_wait_iff, fun hwait => ?_, fun other h => gate_congr h,
    fun wider h hopen => gate_open_of_widens h hopen⟩
  have hdecided : ∀ n ∈ collectNames deps, outcomeOf n ≠ .pending := fun n hn hp =>
    hwait (gate_eq_wait_iff.mpr ⟨n, hn, hp⟩)
  refine ⟨gate_eq_open_iff_of_decided hdecided, ?_⟩
  rw [gate_eq_omitted_iff]
  exact ⟨fun homitted => homitted.2, fun hsat => ⟨hdecided, hsat⟩⟩

end Stroem
