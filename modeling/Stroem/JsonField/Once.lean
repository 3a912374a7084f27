import Mathlib.Data.List.Infix
import Stroem.JsonField.Positions

/-!
# A `json` field is rendered once and in place

The outcome of a field is decided string by string: literals stay, every single expression is
rendered once, in the order of the value, and a mixed string fails the whole.  Nothing else is
rendered, and the shape and the keys stay.
-/

namespace Stroem.JsonField

/-! ## The strings of a value -/

mutual

def mapStrings (f : String → Json) : Json → Json
  | .str s => f s
  | .obj fields => .obj (mapStringsFields f fields)
  | .arr items => .arr (mapStringsItems f items)
  | .null => .null
  | .bool b => .bool b
  | .num n => .num n

def mapStringsFields (f : String → Json) : List (String × Json) → List (String × Json)
  | [] => []
  | (k, v) :: fields => (k, mapStrings f v) :: mapStringsFields f fields

def mapStringsItems (f : String → Json) : List Json → List Json
  | [] => []
  | v :: items => mapStrings f v :: mapStringsItems f items

end

def singleOf (s : String) : Option SingleExpr :=
  match classify s with
  | .single expr => some expr
  | .literal | .mixed => none

def singles (strings : List String) : List SingleExpr := strings.filterMap singleOf

section Render

variable (render : String → Except Error String) (fromStr : String → Option Json)

def valueOf (expr : SingleExpr) : Option Json := (render (wrapper expr)).toOption.bind fromStr

def Renders (s : String) : Prop :=
  match classify s with
  | .literal => True
  | .single expr => (valueOf render fromStr expr).isSome = true
  | .mixed => False

def replacement (s : String) : Json :=
  match classify s with
  | .literal | .mixed => .str s
  | .single expr => (valueOf render fromStr expr).getD .null

/-! ## The outcome -/

structure Outcome {α : Type} (strings : List String) (result : α) (r : Rendering α) : Prop where
  ok : (∀ s ∈ strings, Renders render fromStr s) →
    r = (.ok result, (singles strings).map wrapper)
  failed : ¬ (∀ s ∈ strings, Renders render fromStr s) →
    (∃ e, r.1 = .error e) ∧ r.2 <+: (singles strings).map wrapper

variable {render fromStr}

theorem evalSingle_ok {expr : SingleExpr} {value : Json}
    (h : valueOf render fromStr expr = some value) :
    evalSingle render fromStr expr = (.ok value, [wrapper expr]) := by
  unfold valueOf at h
  unfold evalSingle
  cases hrender : render (wrapper expr) with
  | error e =>
    rw [hrender] at h
    cases h
  | ok text =>
    rw [hrender] at h
    have hvalue : fromStr text = some value := h
    simp only [hvalue]

theorem evalSingle_error {expr : SingleExpr} (h : valueOf render fromStr expr = none) :
    (∃ e, (evalSingle render fromStr expr).1 = .error e) ∧
      (evalSingle render fromStr expr).2 = [wrapper expr] := by
  unfold valueOf at h
  unfold evalSingle
  refine ⟨?_, rfl⟩
  cases hrender : render (wrapper expr) with
  | error e => exact ⟨_, rfl⟩
  | ok text =>
    rw [hrender] at h
    have hvalue : fromStr text = none := h
    simp only [hvalue]
    exact ⟨_, rfl⟩

theorem outcome_nil {α : Type} (result : α) : Outcome render fromStr [] result (.ok result, []) :=
  ⟨fun _ => rfl, fun h => absurd (fun _ hs => absurd hs List.not_mem_nil) h⟩

theorem outcome_map {α β : Type} {strings : List String} {result : α} {r : Rendering α}
    (h : Outcome render fromStr strings result r) (f : α → β) :
    Outcome render fromStr strings (f result) (r.1.map f, r.2) := by
  refine ⟨fun hall => by rw [h.ok hall]; rfl, fun hfail => ?_⟩
  obtain ⟨⟨e, he⟩, hcalls⟩ := h.failed hfail
  exact ⟨⟨e, by rw [he]; rfl⟩, hcalls⟩

theorem singles_append (strings strings' : List String) :
    singles (strings ++ strings') = singles strings ++ singles strings' :=
  List.filterMap_append

def andThen {α β γ : Type} (f : α → β → γ) (r : Rendering α) (r' : Rendering β) : Rendering γ :=
  match r with
  | (.error e, calls) => (.error e, calls)
  | (.ok a, calls) => (r'.1.map (f a), calls ++ r'.2)

theorem outcome_andThen {α β γ : Type} {strings strings' : List String} {result : α}
    {result' : β} {r : Rendering α} {r' : Rendering β} (f : α → β → γ)
    (h : Outcome render fromStr strings result r)
    (h' : Outcome render fromStr strings' result' r') :
    Outcome render fromStr (strings ++ strings') (f result result') (andThen f r r') := by
  by_cases hall : ∀ s ∈ strings, Renders render fromStr s
  · rw [h.ok hall]
    refine ⟨fun hboth => ?_, fun hfail => ?_⟩
    · rw [h'.ok fun s hs => hboth s (List.mem_append_right _ hs), singles_append,
        List.map_append]
      rfl
    · have hrest : ¬ ∀ s ∈ strings', Renders render fromStr s := fun hrest =>
        hfail fun s hs => (List.mem_append.mp hs).elim (hall s) (hrest s)
      obtain ⟨⟨e, he⟩, hcalls⟩ := h'.failed hrest
      refine ⟨⟨e, ?_⟩, ?_⟩
      · unfold andThen
        dsimp only
        rw [he]
        rfl
      · rw [singles_append, List.map_append]
        exact (List.prefix_append_right_inj _).mpr hcalls
  · obtain ⟨⟨e, he⟩, hcalls⟩ := h.failed hall
    obtain ⟨first, calls⟩ := r
    obtain rfl : first = .error e := he
    refine ⟨fun hboth => absurd (fun s hs => hboth s (List.mem_append_left _ hs)) hall,
      fun _ => ⟨⟨e, rfl⟩, ?_⟩⟩
    rw [singles_append, List.map_append]
    exact hcalls.trans (List.prefix_append _ _)

theorem outcome_str (field : String) (path : List (Option Nat)) (s : String) :
    Outcome render fromStr [s] (replacement render fromStr s)
      (walk render fromStr field path (.str s)) := by
  have hone : (∀ t ∈ [s], Renders render fromStr t) ↔ Renders render fromStr s :=
    List.forall_mem_singleton
  rw [walk]
  cases hclass : classify s with
  | literal =>
    have hrenders : Renders render fromStr s := by
      simp only [Renders, hclass]
    refine ⟨fun _ => ?_, fun h => absurd (hone.mpr hrenders) h⟩
    simp only [replacement, singles, List.filterMap_cons, List.filterMap_nil, singleOf, hclass,
      List.map_nil]
  | mixed =>
    refine ⟨fun h => ?_, fun _ => ⟨⟨_, rfl⟩, List.nil_prefix⟩⟩
    have hrenders := hone.mp h
    simp only [Renders, hclass] at hrenders
  | single expr =>
    have hsingles : (singles [s]).map wrapper = [wrapper expr] := by
      simp only [singles, List.filterMap_cons, List.filterMap_nil, singleOf, hclass,
        List.map_cons, List.map_nil]
    dsimp only
    cases hvalue : valueOf render fromStr expr with
    | some value =>
      have hrenders : Renders render fromStr s := by
        simp only [Renders, hclass, hvalue, Option.isSome_some]
      refine ⟨fun _ => ?_, fun h => absurd (hone.mpr hrenders) h⟩
      rw [evalSingle_ok hvalue, hsingles]
      simp only [replacement, hclass, hvalue, Option.getD_some, Except.mapError]
    | none =>
      refine ⟨fun h => ?_, fun _ => ?_⟩
      · have hrenders := hone.mp h
        simp only [Renders, hclass, hvalue, Option.isSome_none] at hrenders
        cases hrenders
      · obtain ⟨⟨e, he⟩, hcalls⟩ := evalSingle_error hvalue
        refine ⟨⟨e.context (location field path), ?_⟩, ?_⟩
        · dsimp only
          rw [he]
          rfl
        · dsimp only
          rw [hcalls, hsingles]

theorem walkFields_cons (field : String) (path : List (Option Nat)) (k : String) (v : Json)
    (rest : List (String × Json)) :
    walkFields render fromStr field path ((k, v) :: rest) =
      andThen (fun rendered rest => (k, rendered) :: rest)
        (walk render fromStr field (path ++ [none]) v)
          (walkFields render fromStr field path rest) := by
  rw [walkFields]
  obtain ⟨result, calls⟩ := walk render fromStr field (path ++ [none]) v
  cases result with
  | error e => rfl
  | ok rendered => rfl

theorem walkItems_cons (field : String) (path : List (Option Nat)) (i : Nat) (v : Json)
    (rest : List Json) :
    walkItems render fromStr field path i (v :: rest) =
      andThen (fun rendered rest => rendered :: rest)
        (walk render fromStr field (path ++ [some i]) v)
        (walkItems render fromStr field path (i + 1) rest) := by
  rw [walkItems]
  obtain ⟨result, calls⟩ := walk render fromStr field (path ++ [some i]) v
  cases result with
  | error e => rfl
  | ok rendered => rfl

mutual

theorem outcome_walk (field : String) : ∀ (value : Json) (path : List (Option Nat)),
    Outcome render fromStr value.collectStrings (mapStrings (replacement render fromStr) value)
      (walk render fromStr field path value)
  | .str s, path => outcome_str field path s
  | .obj fields, path => outcome_map (outcome_walkFields field fields path) _
  | .arr items, path => outcome_map (outcome_walkItems field items path 0) _
  | .null, _ => outcome_nil _
  | .bool _, _ => outcome_nil _
  | .num _, _ => outcome_nil _

theorem outcome_walkFields (field : String) :
    ∀ (fields : List (String × Json)) (path : List (Option Nat)),
    Outcome render fromStr (Json.collectStringsFields fields)
      (mapStringsFields (replacement render fromStr) fields)
      (walkFields render fromStr field path fields)
  | [], _ => outcome_nil _
  | (k, v) :: fields, path => by
      rw [walkFields_cons, Json.collectStringsFields, mapStringsFields]
      exact outcome_andThen (fun rendered rest => (k, rendered) :: rest)
        (outcome_walk field v (path ++ [none]))
        (outcome_walkFields field fields path)

theorem outcome_walkItems (field : String) :
    ∀ (items : List Json) (path : List (Option Nat)) (i : Nat),
    Outcome render fromStr (Json.collectStringsList items)
      (mapStringsItems (replacement render fromStr) items)
      (walkItems render fromStr field path i items)
  | [], _, _ => outcome_nil _
  | v :: items, path, i => by
      rw [walkItems_cons, Json.collectStringsList, mapStringsItems]
      exact outcome_andThen (fun rendered rest => rendered :: rest)
        (outcome_walk field v (path ++ [some i]))
        (outcome_walkItems field items path (i + 1))

end

end Render

/-! ## Lint -/

theorem exists_mem_append_iff {strings strings' : List String} {p : String → Prop} :
    (∃ s ∈ strings ++ strings', p s) ↔ (∃ s ∈ strings, p s) ∨ ∃ s ∈ strings', p s := by
  simp only [List.mem_append, or_and_right, exists_or]

mutual

theorem lintWalk_mixed : ∀ (value : Json) (lint : JsonLint),
    (lintWalk lint value).mixed = true ↔
      lint.mixed = true ∨ ∃ s ∈ value.collectStrings, classify s = .mixed
  | .str s, lint => by
      have hone : (∃ t ∈ (Json.str s).collectStrings, classify t = .mixed) ↔
          classify s = .mixed := by
        simp [Json.collectStrings]
      rw [hone, lintWalk]
      cases hclass : classify s with
      | literal => simp
      | mixed => simp
      | single expr =>
        dsimp only
        split_ifs
        · simp
        · simp
  | .obj fields, lint => lintWalkFields_mixed fields lint
  | .arr items, lint => lintWalkItems_mixed items lint
  | .null, lint => by simp [lintWalk, Json.collectStrings]
  | .bool _, lint => by simp [lintWalk, Json.collectStrings]
  | .num _, lint => by simp [lintWalk, Json.collectStrings]

theorem lintWalkFields_mixed : ∀ (fields : List (String × Json)) (lint : JsonLint),
    (lintWalkFields lint fields).mixed = true ↔
      lint.mixed = true ∨ ∃ s ∈ Json.collectStringsFields fields, classify s = .mixed
  | [], lint => by simp [lintWalkFields, Json.collectStringsFields]
  | (k, v) :: fields, lint => by
      rw [lintWalkFields, lintWalkFields_mixed fields, lintWalk_mixed v, or_assoc,
        Json.collectStringsFields, exists_mem_append_iff]

theorem lintWalkItems_mixed : ∀ (items : List Json) (lint : JsonLint),
    (lintWalkItems lint items).mixed = true ↔
      lint.mixed = true ∨ ∃ s ∈ Json.collectStringsList items, classify s = .mixed
  | [], lint => by simp [lintWalkItems, Json.collectStringsList]
  | v :: items, lint => by
      rw [lintWalkItems, lintWalkItems_mixed items, lintWalk_mixed v, or_assoc,
        Json.collectStringsList, exists_mem_append_iff]

end

theorem forall_renders_iff {render : String → Except Error String}
    {fromStr : String → Option Json} {strings : List String} :
    (∀ s ∈ strings, Renders render fromStr s) ↔
      (∀ s ∈ strings, classify s ≠ .mixed) ∧
        ∀ expr ∈ singles strings, ∃ value, valueOf render fromStr expr = some value := by
  constructor
  · intro h
    refine ⟨fun s hs hmixed => ?_, fun expr hexpr => ?_⟩
    · have hrenders := h s hs
      simp only [Renders, hmixed] at hrenders
    · obtain ⟨s, hs, hsingle⟩ := List.mem_filterMap.mp hexpr
      have hrenders := h s hs
      unfold singleOf at hsingle
      cases hclass : classify s with
      | single expr' =>
        rw [hclass] at hsingle
        cases hsingle
        simp only [Renders, hclass] at hrenders
        exact Option.isSome_iff_exists.mp hrenders
      | literal | mixed =>
        rw [hclass] at hsingle
        cases hsingle
  · rintro ⟨hmixed, hsingle⟩ s hs
    unfold Renders
    cases hclass : classify s with
    | literal => trivial
    | mixed => exact hmixed s hs hclass
    | single expr =>
      have hexpr : expr ∈ singles strings :=
        List.mem_filterMap.mpr ⟨s, hs, by simp only [singleOf, hclass]⟩
      exact Option.isSome_iff_exists.mpr (hsingle expr hexpr)

/-- Success is decided by the strings alone, and every single expression is rendered once; the
lint finds the mixed strings, and places in the wrapper are places of the author's text. -/
theorem renderJsonValueWith_once (render : String → Except Error String)
    (fromStr : String → Option Json) (value : Json) (field : String) :
    ((∃ result, (renderJsonValueWith render fromStr value field).1 = .ok result) ↔
      (∀ s ∈ value.collectStrings, classify s ≠ .mixed) ∧
        ∀ expr ∈ singles value.collectStrings, ∃ v, valueOf render fromStr expr = some v) ∧
    (∀ result, (renderJsonValueWith render fromStr value field).1 = .ok result →
      result = mapStrings (replacement render fromStr) value ∧
        (renderJsonValueWith render fromStr value field).2 =
          (singles value.collectStrings).map wrapper) ∧
    (renderJsonValueWith render fromStr value field).2 <+:
      (singles value.collectStrings).map wrapper ∧
    ((lintJsonValue value).mixed = true ↔
      ∃ s ∈ value.collectStrings, classify s = .mixed) ∧
    ∀ s expr, classify s = .single expr → MapsPlaces s expr := by
  have hout : Outcome render fromStr value.collectStrings
      (mapStrings (replacement render fromStr) value) (walk render fromStr field [] value) :=
    outcome_walk field value []
  refine ⟨?_, ?_, ?_, ?_, fun s expr h => mapsPlaces_of_classify h⟩
  · rw [← forall_renders_iff]
    constructor
    · rintro ⟨result, hresult⟩
      by_contra hfail
      obtain ⟨⟨e, he⟩, -⟩ := hout.failed hfail
      rw [renderJsonValueWith, he] at hresult
      cases hresult
    · intro hall
      exact ⟨_, congrArg Prod.fst (hout.ok hall)⟩
  · intro result hresult
    by_cases hall : ∀ s ∈ value.collectStrings, Renders render fromStr s
    · have heq := hout.ok hall
      rw [renderJsonValueWith, heq] at hresult ⊢
      exact ⟨(Except.ok.inj hresult).symm, rfl⟩
    · obtain ⟨⟨e, he⟩, -⟩ := hout.failed hall
      rw [renderJsonValueWith, he] at hresult
      cases hresult
  · by_cases hall : ∀ s ∈ value.collectStrings, Renders render fromStr s
    · rw [renderJsonValueWith, hout.ok hall]
    · exact (hout.failed hall).2
  · rw [lintJsonValue, lintWalk_mixed]
    exact or_iff_right Bool.false_ne_true

end Stroem.JsonField
