import Stroem.EventSource
import Stroem.Foundation.JsonReading
import Stroem.Foundation.SortedPairs

/-!
# Fingerprints of event sources

A fingerprint is the hash of the configuration's fields with bars between them, the entries of the
maps as `key=value;`.  Nothing escapes these separators, so texts that hold them are read in more
than one way, and two entries of a map can always be read as one.  Texts are their bytes.
-/

namespace Stroem.EventSource

open Stroem.Foundation Stroem.Foundation.JsonText

abbrev Bytes := List UInt8

def bar : UInt8 := 124

def equals : UInt8 := 61

def semicolon : UInt8 := 59

def ascii (text : String) : Bytes := text.toList.map fun c => UInt8.ofNat c.toNat

mutual

def canonical : Value → Bool
  | .null | .bool _ | .num _ | .str _ => true
  | .arr items => canonicalItems items
  | .obj members =>
    decide (members.Pairwise fun m m' => m.1 < m'.1) && canonicalMembers members

def canonicalItems : List Value → Bool
  | [] => true
  | v :: items => canonical v && canonicalItems items

def canonicalMembers : List (Bytes × Value) → Bool
  | [] => true
  | (_, v) :: members => canonical v && canonicalMembers members

end

abbrev JsonValue := { v : Value // canonical v = true }

structure EventSourceConfig where
  task : Bytes
  targetTask : Bytes
  env : Dict Bytes Bytes
  input : Dict Bytes JsonValue
  restartPolicy : RestartPolicy
  backoffSecs : UInt64
  maxInFlight : Option UInt32

/-! ## `compute_fingerprint` -/

def decimal (n : Nat) : Bytes := (Nat.toDigits 10 n).map fun c => UInt8.ofNat c.toNat

def restartPolicyStr : RestartPolicy → Bytes
  | .always => ascii "always"
  | .onFailure => ascii "on_failure"
  | .never => ascii "never"

def feedPairs {α : Type} (text : α → Bytes) : List (Bytes × α) → Bytes
  | [] => []
  | (k, v) :: entries => k ++ equals :: (text v ++ semicolon :: feedPairs text entries)

def envText (env : Dict Bytes Bytes) : Bytes := feedPairs id (sortedPairs env)

def inputText (input : Dict Bytes JsonValue) : Bytes :=
  feedPairs (fun v => write v.1) (sortedPairs input)

def settingsText (c : EventSourceConfig) : Bytes :=
  restartPolicyStr c.restartPolicy ++ bar :: (decimal c.backoffSecs.toNat ++ bar ::
    ((c.maxInFlight.map fun v => decimal v.toNat).getD []))

def hashed (c : EventSourceConfig) : Bytes :=
  c.task ++ bar :: (c.targetTask ++ bar :: (envText c.env ++ bar :: (inputText c.input ++ bar ::
    settingsText c)))

def computeFingerprint {δ : Type} (sha256 : Bytes → δ) (c : EventSourceConfig) : δ :=
  sha256 (hashed c)

/-! ## Which configurations are told apart -/

structure Same (c c' : EventSourceConfig) : Prop where
  task : c.task = c'.task
  targetTask : c.targetTask = c'.targetTask
  env : ∀ key, c.env.lookup key = c'.env.lookup key
  input : ∀ key, c.input.lookup key = c'.input.lookup key
  restartPolicy : c.restartPolicy = c'.restartPolicy
  backoffSecs : c.backoffSecs = c'.backoffSecs
  maxInFlight : c.maxInFlight = c'.maxInFlight

def EnvSeparated (c : EventSourceConfig) : Prop :=
  match sortedPairs c.env with
  | [] => True
  | [(k, v)] => bar ∉ k ∧ equals ∉ k ∧ equals ∉ v ∧
      (sortedPairs c.input ≠ [] → ¬ [semicolon, bar] <:+: v ∧ ¬ [bar, bar] <:+: v)
  | _ :: _ :: _ => False

def InputSeparated (c : EventSourceConfig) : Prop :=
  match sortedPairs c.input with
  | [] => True
  | [(k, _)] => ¬ [bar] <+: k ∧ ¬ [bar, bar] <:+: k ∧
      (∀ front back, k = front ++ bar :: back → front.getLast? = some semicolon →
        sortedPairs c.env = [] ∧ equals ∉ front) ∧
      ∀ k₁ (v₁ : JsonValue) k₂, k = k₁ ++ equals :: (write v₁.1 ++ semicolon :: k₂) → ¬ k₁ < k₂
  | _ :: _ :: _ => False

structure Separated (c : EventSourceConfig) : Prop where
  task : bar ∉ c.task
  targetTask : bar ∉ c.targetTask
  env : EnvSeparated c
  input : InputSeparated c

/-! ## Splitting at a separator -/

theorem split_first {s : UInt8} {x x' y y' : Bytes} (hx : s ∉ x)
    (h : x ++ s :: y = x' ++ s :: y') :
    (x = x' ∧ y = y') ∨ ∃ mid, x' = x ++ s :: mid ∧ y = mid ++ s :: y' := by
  obtain ⟨mid, hx', hy⟩ | ⟨mid, hx', hy⟩ := List.append_eq_append_iff.mp h
  · cases mid with
    | nil => exact .inl ⟨by rw [hx', List.append_nil], (List.cons.inj hy).2⟩
    | cons b mid =>
      obtain ⟨rfl, hrest⟩ := List.cons.inj hy
      exact .inr ⟨mid, hx', hrest⟩
  · cases mid with
    | nil => exact .inl ⟨by rw [hx', List.append_nil], (List.cons.inj hy).2.symm⟩
    | cons b mid =>
      obtain ⟨rfl, -⟩ := List.cons.inj hy
      exact absurd (hx' ▸ List.mem_append_right _ List.mem_cons_self) hx

theorem split_first_inj {s : UInt8} {x x' y y' : Bytes} (hx : s ∉ x) (hx' : s ∉ x')
    (h : x ++ s :: y = x' ++ s :: y') : x = x' ∧ y = y' := by
  obtain heq | ⟨mid, rfl, -⟩ := split_first hx h
  · exact heq
  · exact absurd (List.mem_append_right _ List.mem_cons_self) hx'

theorem split_last_inj {s : UInt8} {x x' y y' : Bytes} (hy : s ∉ y) (hy' : s ∉ y')
    (h : x ++ s :: y = x' ++ s :: y') : x = x' ∧ y = y' := by
  have hreverse : y.reverse ++ s :: x.reverse = y'.reverse ++ s :: x'.reverse := by
    have hrev := congrArg List.reverse h
    simpa using hrev
  obtain ⟨hys, hxs⟩ := split_first_inj (by simpa using hy) (by simpa using hy') hreverse
  exact ⟨List.reverse_injective hxs, List.reverse_injective hys⟩

/-! ## Settings -/

theorem mem_decimal {n : Nat} {b : UInt8} (h : b ∈ decimal n) : 48 ≤ b ∧ b ≤ 57 := by
  obtain ⟨c, hc, rfl⟩ := List.mem_map.mp h
  have hdigit := Nat.isDigit_of_mem_toDigits (by decide) (by decide) hc
  obtain ⟨hlow, hhigh⟩ := Char.isDigit_iff_toNat.mp hdigit
  have hle : c.toNat < 256 := lt_of_le_of_lt hhigh (by decide)
  rw [UInt8.le_iff_toNat_le, UInt8.le_iff_toNat_le, UInt8.toNat_ofNat_of_lt' hle]
  exact ⟨hlow, hhigh⟩

theorem decimal_inj {n m : Nat} (h : decimal n = decimal m) : n = m := by
  have hdigits : ∀ k, (decimal k).map (fun b => Char.ofNat b.toNat) = Nat.toDigits 10 k := by
    intro k
    rw [decimal, List.map_map]
    refine (List.map_congr_left fun c hc => ?_).trans (List.map_id _)
    have hdigit := Nat.isDigit_of_mem_toDigits (by decide) (by decide) hc
    have hle : c.toNat < 256 :=
      lt_of_le_of_lt (Char.isDigit_iff_toNat.mp hdigit).2 (by decide)
    rw [Function.comp_apply, UInt8.toNat_ofNat_of_lt' hle, Char.ofNat_toNat]
    rfl
  rw [← Nat.ofDigitChars_ten_toDigits (n := n), ← hdigits, h, hdigits,
    Nat.ofDigitChars_ten_toDigits]

theorem bar_not_mem_decimal (n : Nat) : bar ∉ decimal n := fun h =>
  absurd (mem_decimal h).2 (by decide)

theorem decimal_ne_nil (n : Nat) : decimal n ≠ [] := by
  unfold decimal
  rw [Ne, List.map_eq_nil_iff]
  exact Nat.toDigits_ne_nil

def maxInFlightText (maxInFlight : Option UInt32) : Bytes :=
  (maxInFlight.map fun v => decimal v.toNat).getD []

theorem bar_not_mem_maxInFlightText (maxInFlight : Option UInt32) :
    bar ∉ maxInFlightText maxInFlight := by
  cases maxInFlight with
  | none => exact List.not_mem_nil
  | some v => exact bar_not_mem_decimal v.toNat

theorem maxInFlightText_inj {m m' : Option UInt32} (h : maxInFlightText m = maxInFlightText m') :
    m = m' := by
  cases m with
  | none =>
    cases m' with
    | none => rfl
    | some v' => exact absurd h.symm (decimal_ne_nil _)
  | some v =>
    cases m' with
    | none => exact absurd h (decimal_ne_nil _)
    | some v' => rw [UInt32.toNat_inj.mp (decimal_inj h)]

theorem bar_not_mem_restartPolicyStr (policy : RestartPolicy) :
    bar ∉ restartPolicyStr policy := by
  cases policy <;> decide

theorem restartPolicyStr_inj {policy policy' : RestartPolicy}
    (h : restartPolicyStr policy = restartPolicyStr policy') : policy = policy' := by
  revert h
  cases policy <;> cases policy' <;> decide

theorem settings_inj {x x' : Bytes} {c c' : EventSourceConfig}
    (h : x ++ bar :: settingsText c = x' ++ bar :: settingsText c') :
    x = x' ∧ c.restartPolicy = c'.restartPolicy ∧ c.backoffSecs = c'.backoffSecs ∧
      c.maxInFlight = c'.maxInFlight := by
  have hassoc : ∀ (y : Bytes) (d : EventSourceConfig), y ++ bar :: settingsText d =
      ((y ++ bar :: restartPolicyStr d.restartPolicy) ++ bar :: decimal d.backoffSecs.toNat) ++
        bar :: maxInFlightText d.maxInFlight := by
    intro y d
    simp [settingsText, maxInFlightText]
  rw [hassoc, hassoc] at h
  obtain ⟨h, hmax⟩ := split_last_inj (bar_not_mem_maxInFlightText _)
    (bar_not_mem_maxInFlightText _) h
  obtain ⟨h, hsecs⟩ := split_last_inj (bar_not_mem_decimal _) (bar_not_mem_decimal _) h
  obtain ⟨h, hpolicy⟩ := split_last_inj (bar_not_mem_restartPolicyStr _)
    (bar_not_mem_restartPolicyStr _) h
  exact ⟨h, restartPolicyStr_inj hpolicy, UInt64.toNat_inj.mp (decimal_inj hsecs),
    maxInFlightText_inj hmax⟩

/-! ## What the texts of maps look like -/

def EnvLike (t : Bytes) : Prop := t = [] ∨ equals ∈ t ∧ t.getLast? = some semicolon

def InputLike (t : Bytes) : Prop :=
  t = [] ∨ ∃ k, ∃ v : JsonValue, t = k ++ equals :: (write v.1 ++ [semicolon])

theorem feedPairs_shape {α : Type} (text : α → Bytes) (k : Bytes) (v : α)
    (entries : List (Bytes × α)) :
    ∃ front e, k <+: front ∧ feedPairs text ((k, v) :: entries) =
      front ++ equals :: (text e ++ [semicolon]) := by
  induction entries generalizing k v with
  | nil => exact ⟨k, v, List.prefix_rfl, rfl⟩
  | cons entry entries ih =>
    obtain ⟨k', v'⟩ := entry
    obtain ⟨front, e, -, hfeed⟩ := ih k' v'
    refine ⟨k ++ equals :: (text v ++ semicolon :: front), e, List.prefix_append _ _, ?_⟩
    rw [feedPairs, hfeed]
    simp

theorem getLast?_entry (front text : Bytes) :
    (front ++ equals :: (text ++ [semicolon])).getLast? = some semicolon := by
  have hassoc : front ++ equals :: (text ++ [semicolon]) =
      (front ++ equals :: text) ++ [semicolon] := by simp
  rw [hassoc, List.getLast?_concat]

theorem envLike_envText (env : Dict Bytes Bytes) : EnvLike (envText env) := by
  unfold envText
  cases hpairs : sortedPairs env with
  | nil => exact .inl rfl
  | cons entry entries =>
    obtain ⟨front, e, -, hfeed⟩ := feedPairs_shape id entry.1 entry.2 entries
    rw [hfeed]
    exact .inr ⟨List.mem_append_right _ List.mem_cons_self, getLast?_entry front e⟩

theorem inputLike_inputText (input : Dict Bytes JsonValue) : InputLike (inputText input) := by
  unfold inputText
  cases hpairs : sortedPairs input with
  | nil => exact .inl rfl
  | cons entry entries =>
    obtain ⟨front, e, -, hfeed⟩ :=
      feedPairs_shape (fun v : JsonValue => write v.1) entry.1 entry.2 entries
    exact .inr ⟨front, e, hfeed⟩

theorem sortedPairs_singleton {α : Type} (k : Bytes) (v : α) :
    sortedPairs (AList.singleton k v : Dict Bytes α) = [(k, v)] := rfl

theorem exists_env_of_envLike {t : Bytes} (h : EnvLike t) : ∃ env, envText env = t := by
  obtain rfl | ⟨hequals, hlast⟩ := h
  · exact ⟨∅, rfl⟩
  · obtain ⟨k, rest, rfl, -⟩ := List.eq_append_cons_of_mem hequals
    have hrest : rest ≠ [] := by
      rintro rfl
      rw [List.getLast?_append_cons, List.getLast?_singleton] at hlast
      exact absurd hlast (by decide)
    rw [List.getLast?_append_cons, List.getLast?_cons_of_ne_nil hrest] at hlast
    obtain ⟨v, rfl⟩ := List.getLast?_eq_some_iff.mp hlast
    exact ⟨AList.singleton k v, rfl⟩

theorem exists_input_of_inputLike {t : Bytes} (h : InputLike t) :
    ∃ input, inputText input = t := by
  obtain rfl | ⟨k, v, rfl⟩ := h
  · exact ⟨∅, rfl⟩
  · exact ⟨AList.singleton k v, rfl⟩

theorem feedPairs_eq_nil {α : Type} {text : α → Bytes} {entries : List (Bytes × α)} :
    feedPairs text entries = [] ↔ entries = [] := by
  cases entries with
  | nil => exact iff_of_true rfl rfl
  | cons entry entries => simp [feedPairs]

variable {c c' : EventSourceConfig}

theorem sortedPairs_pair {α : Type} {k₁ k₂ : Bytes} (hlt : k₁ < k₂) (v₁ v₂ : α) :
    sortedPairs ((AList.singleton k₂ v₂).insert k₁ v₁ : Dict Bytes α) = [(k₁, v₁), (k₂, v₂)] := by
  have hne : k₁ ≠ k₂ := by
    rintro rfl
    exact Std.lt_irrefl hlt
  have hmem : k₁ ∉ (AList.singleton k₂ v₂ : Dict Bytes α) := by
    rwa [AList.mem_keys, AList.keys_singleton, List.mem_singleton]
  have hpairs : pairs ((AList.singleton k₂ v₂).insert k₁ v₁ : Dict Bytes α) =
      [(k₁, v₁), (k₂, v₂)] := by
    rw [pairs, AList.insert_of_notMem hmem]
    rfl
  rw [sortedPairs, hpairs]
  simp [List.insertionSort, Std.le_of_lt hlt]

theorem inputLike_behind (hinput : sortedPairs c.input ≠ []) (front : Bytes) :
    InputLike (front ++ inputText c.input) := by
  obtain hnil | ⟨k, v, htext⟩ := inputLike_inputText c.input
  · exact absurd (feedPairs_eq_nil.mp hnil) hinput
  · exact .inr ⟨front ++ k, v, by rw [htext, List.append_assoc]⟩

/-! ## No other reading -/

theorem front_inj {t t' u u' y y' : Bytes} (ht : bar ∉ t) (hu : bar ∉ u)
    (h : t ++ bar :: (u ++ bar :: y) = t' ++ bar :: (u' ++ bar :: y')) :
    (t = t' ∧ u = u' ∧ y = y') ∨ ∃ mid, y = mid ++ bar :: y' := by
  obtain ⟨rfl, hrest⟩ | ⟨mid, -, hrest⟩ := split_first ht h
  · obtain ⟨rfl, rfl⟩ | ⟨mid, -, hy⟩ := split_first hu hrest
    · exact .inl ⟨rfl, rfl, rfl⟩
    · exact .inr ⟨mid, hy⟩
  · obtain ⟨-, hy⟩ | ⟨mid', -, hy⟩ := split_first hu hrest
    · exact .inr ⟨_, hy⟩
    · refine .inr ⟨mid' ++ bar :: u', ?_⟩
      rw [hy, List.append_assoc, List.cons_append]

theorem bar_in_entry {k v front back : Bytes} (hk : bar ∉ k)
    (h : k ++ equals :: (v ++ [semicolon]) = front ++ bar :: back) :
    ∃ front' back', front = k ++ equals :: front' ∧ back = back' ++ [semicolon] ∧
      v = front' ++ bar :: back' := by
  obtain ⟨mid, hfront, hrest⟩ | ⟨mid, hkeq, hrest⟩ := List.append_eq_append_iff.mp h
  · cases mid with
    | nil => exact absurd (List.cons.inj hrest).1 (by decide)
    | cons b mid =>
      obtain ⟨rfl, hv⟩ := List.cons.inj hrest
      obtain ⟨mid', hmid, hback⟩ | ⟨mid', hv', hback⟩ := List.append_eq_append_iff.mp hv
      · -- The bar would be the semicolon or lie behind it.
        cases mid' with
        | nil => exact absurd (List.cons.inj hback).1 (by decide)
        | cons b' mid' =>
          have hlen := congrArg List.length (List.cons.inj hback).2
          simp at hlen
      · cases mid' with
        | nil => exact absurd (List.cons.inj hback).1 (by decide)
        | cons b' mid' =>
          obtain ⟨rfl, hend⟩ := List.cons.inj hback
          exact ⟨mid, mid', hfront, hend, hv'⟩
  · cases mid with
    | nil => exact absurd (List.cons.inj hrest).1 (by decide)
    | cons b mid =>
      obtain ⟨rfl, -⟩ := List.cons.inj hrest
      exact absurd (hkeq ▸ List.mem_append_right _ List.mem_cons_self) hk

inductive EnvAlone : Bytes → Prop
  | nil : EnvAlone []
  | entry (k v : Bytes) : bar ∉ k → equals ∉ k → equals ∉ v →
      EnvAlone (k ++ equals :: (v ++ [semicolon]))

theorem env_inj {e e' m : Bytes} (he : EnvAlone e) (he' : EnvLike e')
    (h : bar :: e = m ++ bar :: e') : m = [] ∧ e = e' := by
  cases m with
  | nil => exact ⟨rfl, (List.cons.inj h).2⟩
  | cons b m =>
    exfalso
    have hm : e = m ++ bar :: e' := (List.cons.inj h).2
    cases he with
    | nil => simp at hm
    | entry k v hbar hequals hvalue =>
      obtain ⟨front, back, -, rfl, rfl⟩ := bar_in_entry hbar hm
      obtain hnil | ⟨hmem, -⟩ := he'
      · simp at hnil
      · obtain hmem | hmem := List.mem_append.mp hmem
        · exact hvalue (List.mem_append_right _ (List.mem_cons_of_mem _ hmem))
        · exact absurd hmem (by decide)

theorem EnvAlone.not_bar_cons {t : Bytes} (h : EnvAlone (bar :: t)) : False := by
  generalize htext : bar :: t = e at h
  cases h with
  | nil => cases htext
  | entry k v hbar _ _ =>
    cases k with
    | nil => exact absurd (List.cons.inj htext).1 (by decide)
    | cons b k =>
      obtain ⟨rfl, -⟩ := List.cons.inj htext
      exact hbar List.mem_cons_self

theorem key_inj {e e' m k x : Bytes} (he : EnvAlone e) (he' : EnvLike e')
    (hsemi : ¬ [semicolon, bar] <:+: e) (htwo : ¬ [bar, bar] <:+: e)
    (hstart : ¬ [bar] <+: k) (hbars : ¬ [bar, bar] <:+: k)
    (hkey : ∀ front back, k = front ++ bar :: back → front.getLast? = some semicolon →
      e = [] ∧ equals ∉ front)
    (h : (bar :: e) ++ bar :: k = (m ++ bar :: e') ++ bar :: x) : m = [] ∧ e = e' ∧ k = x := by
  obtain ⟨mid, hmid, hrest⟩ | ⟨mid, hmid, hrest⟩ := List.append_eq_append_iff.mp h
  · cases mid with
    | nil =>
      rw [List.append_nil] at hmid
      obtain ⟨rfl, rfl⟩ := env_inj he he' hmid.symm
      exact ⟨rfl, rfl, (List.cons.inj hrest).2⟩
    | cons b n =>
      -- The other reading ends its variables inside the key.
      exfalso
      obtain ⟨rfl, hk⟩ := List.cons.inj hrest
      obtain rfl | ⟨n, c, rfl⟩ := List.eq_nil_or_concat n
      · exact hstart ⟨x, hk.symm⟩
      · rw [List.concat_eq_append] at hmid hk
        have hends : ((bar :: e) ++ bar :: (n ++ [c])).getLast? = some c := by
          have hassoc : (bar :: e) ++ bar :: (n ++ [c]) = ((bar :: e) ++ bar :: n) ++ [c] := by
            simp
          rw [hassoc, List.getLast?_concat]
        rw [← hmid] at hends
        obtain rfl | ⟨hequals, hlast⟩ := he'
        · rw [List.getLast?_concat] at hends
          have hc : bar = c := Option.some.inj hends
          refine hbars ⟨n, x, ?_⟩
          rw [hk, ← hc]
          simp
        · have hc : c = semicolon := by
            rw [← List.singleton_append, List.getLast?_append, List.getLast?_append, hlast,
              Option.some_or, Option.some_or] at hends
            exact (Option.some.inj hends).symm
          obtain ⟨rfl, hnone⟩ := hkey _ x hk (by rw [hc, List.getLast?_concat])
          have hmem : equals ∈ [bar] ++ bar :: (n ++ [c]) :=
            hmid ▸ List.mem_append_right m (List.mem_cons_of_mem _ hequals)
          simp only [List.singleton_append, List.mem_cons] at hmem
          obtain hbar | hbar | hmem := hmem
          · exact absurd hbar (by decide)
          · exact absurd hbar (by decide)
          · exact hnone hmem
  · cases mid with
    | nil =>
      rw [List.append_nil] at hmid
      obtain ⟨rfl, rfl⟩ := env_inj he he' hmid
      exact ⟨rfl, rfl, (List.cons.inj hrest).2.symm⟩
    | cons b n =>
      -- The other reading ends its variables inside the value.
      exfalso
      obtain ⟨rfl, hx⟩ := List.cons.inj hrest
      obtain rfl | ⟨-, hlast⟩ := he'
      · cases m with
        | nil =>
          rw [(List.cons.inj hmid).2] at he
          exact he.not_bar_cons
        | cons b m =>
          refine htwo ⟨m, n, ?_⟩
          rw [(List.cons.inj hmid).2]
          simp
      · obtain ⟨e₀, rfl⟩ := List.getLast?_eq_some_iff.mp hlast
        refine hsemi ⟨(m ++ bar :: e₀).tail, n, ?_⟩
        have htail := congrArg List.tail hmid
        rw [List.tail_cons] at htail
        rw [htail]
        cases m with
        | nil => simp
        | cons b m => simp

theorem eq_singleton_of_feedPairs {k v : Bytes} {entries : List (Bytes × Bytes)}
    (hk : equals ∉ k) (hv : equals ∉ v)
    (h : feedPairs id entries = k ++ equals :: (v ++ [semicolon])) : entries = [(k, v)] := by
  cases entries with
  | nil => simp [feedPairs] at h
  | cons entry entries =>
    obtain ⟨k', v'⟩ := entry
    have hend : equals ∉ v ++ [semicolon] := fun hmem =>
      (List.mem_append.mp hmem).elim hv fun hlast => absurd hlast (by decide)
    rw [feedPairs] at h
    obtain ⟨rfl, hrest⟩ | ⟨mid, -, hrest⟩ := split_first hk h.symm
    · cases entries with
      | nil =>
        obtain rfl : v = v' := List.append_cancel_right hrest
        rfl
      | cons entry entries =>
        obtain ⟨front, e, -, hfeed⟩ := feedPairs_shape id entry.1 entry.2 entries
        refine absurd ?_ hend
        rw [hrest, hfeed]
        simp
    · exact absurd (hrest ▸ List.mem_append_right _ List.mem_cons_self) hend

theorem eq_singleton_of_feedPairs_write {k : Bytes} {v : JsonValue}
    {entries : List (Bytes × JsonValue)} (hsorted : entries.Pairwise fun e e' => e.1 < e'.1)
    (hsplit : ∀ k₁ (v₁ : JsonValue) k₂,
      k = k₁ ++ equals :: (write v₁.1 ++ semicolon :: k₂) → ¬ k₁ < k₂)
    (h : feedPairs (fun v : JsonValue => write v.1) entries =
      k ++ equals :: (write v.1 ++ [semicolon])) : entries = [(k, v)] := by
  have hread : ∀ {front k : Bytes} {e v : JsonValue},
      front ++ equals :: (write e.1 ++ [semicolon]) = k ++ equals :: (write v.1 ++ [semicolon]) →
        front = k ∧ e = v := by
    intro front k e v heq
    have hcut : (front ++ equals :: write e.1) ++ [semicolon] =
        (k ++ equals :: write v.1) ++ [semicolon] := by simpa using heq
    obtain ⟨hfront, hvalue⟩ := behind_inj (by decide) (List.append_cancel_right hcut)
    exact ⟨hfront, Subtype.ext hvalue⟩
  cases entries with
  | nil => simp [feedPairs] at h
  | cons entry entries =>
    obtain ⟨k₁, v₁⟩ := entry
    cases entries with
    | nil =>
      obtain ⟨rfl, rfl⟩ := hread h
      rfl
    | cons entry entries =>
      obtain ⟨k₂, v₂⟩ := entry
      obtain ⟨front, e, hprefix, hfeed⟩ :=
        feedPairs_shape (fun v : JsonValue => write v.1) k₂ v₂ entries
      have hlt : k₁ < k₂ := (List.pairwise_cons.mp hsorted).1 _ List.mem_cons_self
      have hkey : (k₁ ++ equals :: (write v₁.1 ++ semicolon :: front)) ++
          equals :: (write e.1 ++ [semicolon]) = k ++ equals :: (write v.1 ++ [semicolon]) := by
        rw [← h, feedPairs, hfeed]
        simp
      exact absurd (Std.lt_of_lt_of_le hlt hprefix.le) (hsplit k₁ v₁ front (hread hkey).1.symm)

theorem EnvSeparated.alone (h : EnvSeparated c) : EnvAlone (envText c.env) := by
  unfold EnvSeparated at h
  unfold envText
  split at h
  · next hpairs =>
      rw [hpairs]
      exact .nil
  · next k v hpairs =>
      rw [hpairs]
      exact .entry k v h.1 h.2.1 h.2.2.1
  · exact h.elim

theorem EnvSeparated.unique (h : EnvSeparated c) {env : Dict Bytes Bytes}
    (htext : envText env = envText c.env) : sortedPairs env = sortedPairs c.env := by
  unfold EnvSeparated at h
  unfold envText at htext
  split at h
  · next hpairs =>
      rw [hpairs] at htext ⊢
      exact feedPairs_eq_nil.mp htext
  · next k v hpairs =>
      rw [hpairs] at htext ⊢
      exact eq_singleton_of_feedPairs h.2.1 h.2.2.1 htext
  · exact h.elim

theorem EnvSeparated.not_infix (h : EnvSeparated c) (hinput : sortedPairs c.input ≠ []) :
    ¬ [semicolon, bar] <:+: envText c.env ∧ ¬ [bar, bar] <:+: envText c.env := by
  unfold EnvSeparated at h
  unfold envText
  split at h
  · next hpairs =>
      rw [hpairs, feedPairs]
      exact ⟨by decide, by decide⟩
  · next k v hpairs =>
      obtain ⟨hbar, -, -, hvalue⟩ := h
      obtain ⟨hsemi, htwo⟩ := hvalue hinput
      rw [hpairs]
      constructor
      · rintro ⟨front, back, hinfix⟩
        have hsplit : k ++ equals :: (v ++ [semicolon]) =
          (front ++ [semicolon]) ++ bar :: back := by
          rw [List.append_assoc]
          simpa [feedPairs] using hinfix.symm
        obtain ⟨front', back', hfront, -, hv⟩ := bar_in_entry hbar hsplit
        obtain rfl | ⟨front', b, rfl⟩ := List.eq_nil_or_concat front'
        · have hlast := congrArg List.getLast? hfront
          rw [List.getLast?_concat, List.getLast?_concat] at hlast
          exact absurd hlast (by decide)
        · refine hsemi ⟨front', back', ?_⟩
          have hlast := congrArg List.getLast? hfront
          have hassoc : k ++ equals :: (front'.concat b) = (k ++ equals :: front') ++ [b] := by simp
          rw [hassoc, List.getLast?_concat, List.getLast?_concat] at hlast
          rw [hv, ← Option.some.inj hlast]
          simp
      · rintro ⟨front, back, hinfix⟩
        have hsplit : k ++ equals :: (v ++ [semicolon]) = front ++ bar :: (bar :: back) := by
          simpa [feedPairs] using hinfix.symm
        obtain ⟨front', back', -, hback, hv⟩ := bar_in_entry hbar hsplit
        cases back' with
        | nil => exact absurd (List.cons.inj hback).1 (by decide)
        | cons b back' =>
          obtain ⟨rfl, -⟩ := List.cons.inj hback
          exact htwo ⟨front', back', by rw [hv]; simp⟩
  · exact h.elim

theorem maps_inj (henv : EnvSeparated c) (hinput : InputSeparated c) {m : Bytes}
    (h : bar :: (envText c.env ++ bar :: inputText c.input) =
      m ++ bar :: (envText c'.env ++ bar :: inputText c'.input)) :
    m = [] ∧ sortedPairs c.env = sortedPairs c'.env ∧
      sortedPairs c.input = sortedPairs c'.input := by
  have hread : (bar :: envText c.env) ++ bar :: inputText c.input =
      (m ++ bar :: envText c'.env) ++ bar :: inputText c'.input := by simpa using h
  clear h
  unfold InputSeparated at hinput
  split at hinput
  · next hpairs =>
      have hnone : inputText c.input = [] := by rw [inputText, hpairs, feedPairs]
      obtain hnone' | ⟨k, v, hsome'⟩ := inputLike_inputText c'.input
      · rw [hnone, hnone'] at hread
        obtain ⟨rfl, htext⟩ := env_inj henv.alone (envLike_envText c'.env)
          (List.append_cancel_right hread)
        exact ⟨rfl, (henv.unique htext.symm).symm, by rw [hpairs, feedPairs_eq_nil.mp hnone']⟩
      · have hends := congrArg List.getLast? hread
        rw [hnone, hsome', List.getLast?_concat, ← List.cons_append, ← List.append_assoc,
          getLast?_entry] at hends
        exact absurd hends (by decide)
  · next k v hpairs =>
      have hne : sortedPairs c.input ≠ [] := by
        rw [hpairs]
        exact List.cons_ne_nil _ _
      obtain ⟨hstart, hbars, hkey, hsplit⟩ := hinput
      have hsome : inputText c.input = k ++ equals :: (write v.1 ++ [semicolon]) := by
        rw [inputText, hpairs]
        rfl
      obtain hnone' | ⟨k', v', hsome'⟩ := inputLike_inputText c'.input
      · have hends := congrArg List.getLast? hread
        rw [hnone', hsome, List.getLast?_concat, ← List.cons_append, ← List.append_assoc,
          getLast?_entry] at hends
        exact absurd hends (by decide)
      · rw [hsome, hsome'] at hread
        have hcut : (((bar :: envText c.env) ++ bar :: k) ++ equals :: write v.1) ++ [semicolon] =
            (((m ++ bar :: envText c'.env) ++ bar :: k') ++ equals :: write v'.1) ++
              [semicolon] := by simpa using hread
        obtain ⟨hfront, hvalue⟩ := behind_inj (by decide) (List.append_cancel_right hcut)
        obtain ⟨hsemi, htwo⟩ := henv.not_infix hne
        obtain ⟨rfl, htext, rfl⟩ := key_inj henv.alone (envLike_envText c'.env) hsemi htwo hstart
          hbars (fun front back hk hlast => by
            obtain ⟨hnone, hequals⟩ := hkey front back hk hlast
            exact ⟨by rw [envText, hnone, feedPairs], hequals⟩) hfront
        obtain rfl := Subtype.ext hvalue
        refine ⟨rfl, (henv.unique htext.symm).symm, ?_⟩
        rw [hpairs]
        exact (eq_singleton_of_feedPairs_write (sortedPairs_pairwise c'.input) hsplit hsome').symm
  · exact hinput.elim

theorem same_of_hashed (h : Separated c) (hhashed : hashed c' = hashed c) : Same c c' := by
  have hassoc : ∀ d : EventSourceConfig, hashed d = (d.task ++ bar :: (d.targetTask ++ bar ::
      (envText d.env ++ bar :: inputText d.input))) ++ bar :: settingsText d := by
    intro d
    simp [hashed]
  rw [hassoc, hassoc] at hhashed
  obtain ⟨hbody, hpolicy, hsecs, hmax⟩ := settings_inj hhashed.symm
  obtain ⟨htask, htarget, hmaps⟩ | ⟨mid, hmaps⟩ := front_inj h.task h.targetTask hbody
  · obtain ⟨-, henv, hinput⟩ := maps_inj (m := []) h.env h.input (congrArg (bar :: ·) hmaps)
    exact ⟨htask, htarget, sortedPairs_eq_iff.mp henv, sortedPairs_eq_iff.mp hinput, hpolicy, hsecs,
      hmax⟩
  · obtain ⟨hm, -⟩ := maps_inj (m := bar :: mid) h.env h.input (congrArg (bar :: ·) hmaps)
    cases hm

/-! ## Every other reading is a configuration -/

def Distinguished (c : EventSourceConfig) : Prop := ∀ c', hashed c' = hashed c → Same c c'

namespace Distinguished

theorem body (h : Distinguished c) {t u e i : Bytes} (he : EnvLike e) (hi : InputLike i)
    (htext : t ++ bar :: (u ++ bar :: (e ++ bar :: i)) =
      c.task ++ bar :: (c.targetTask ++ bar :: (envText c.env ++ bar :: inputText c.input))) :
    t = c.task ∧ u = c.targetTask ∧ e = envText c.env := by
  obtain ⟨env, rfl⟩ := exists_env_of_envLike he
  obtain ⟨input, rfl⟩ := exists_input_of_inputLike hi
  have hsame := h { c with task := t, targetTask := u, env := env, input := input } (by
    have hcut := congrArg (· ++ bar :: settingsText c) htext
    simpa [hashed, settingsText] using hcut)
  refine ⟨hsame.task.symm, hsame.targetTask.symm, ?_⟩
  rw [envText, envText, sortedPairs_eq_iff.mpr hsame.env]

theorem env (h : Distinguished c) (env : Dict Bytes Bytes) (htext : envText env = envText c.env) :
    sortedPairs env = sortedPairs c.env := by
  have hsame := h { c with env := env } (by simp only [hashed, htext, settingsText])
  exact (sortedPairs_eq_iff.mpr hsame.env).symm

theorem input (h : Distinguished c) (input : Dict Bytes JsonValue)
    (htext : inputText input = inputText c.input) : sortedPairs input = sortedPairs c.input := by
  have hsame := h { c with input := input } (by simp only [hashed, htext, settingsText])
  exact (sortedPairs_eq_iff.mpr hsame.input).symm

theorem task_separated (h : Distinguished c) : bar ∉ c.task := by
  intro hmem
  obtain ⟨a, b, htask, -⟩ := List.eq_append_cons_of_mem hmem
  obtain ⟨ha, -, -⟩ := h.body (t := a) (u := b ++ bar :: c.targetTask)
    (envLike_envText c.env) (inputLike_inputText c.input) (by rw [htask]; simp)
  rw [htask] at ha
  simp at ha

theorem targetTask_separated (h : Distinguished c) : bar ∉ c.targetTask := by
  intro hmem
  obtain ⟨a, b, htarget, -⟩ := List.eq_append_cons_of_mem hmem
  obtain ⟨ha, -, -⟩ := h.body (t := c.task ++ bar :: a) (u := b)
    (envLike_envText c.env) (inputLike_inputText c.input) (by rw [htarget]; simp)
  simp at ha

theorem env_separated (h : Distinguished c) : EnvSeparated c := by
  unfold EnvSeparated
  split
  · trivial
  · next k v hpairs =>
      have htext : envText c.env = k ++ equals :: (v ++ [semicolon]) := by
        rw [envText, hpairs]
        rfl
      refine ⟨?_, ?_, ?_, fun hinput => ⟨?_, ?_⟩⟩
      · intro hmem
        obtain ⟨a, b, hk, -⟩ := List.eq_append_cons_of_mem hmem
        have hlike : EnvLike (b ++ equals :: (v ++ [semicolon])) :=
          .inr ⟨List.mem_append_right _ List.mem_cons_self, getLast?_entry b v⟩
        obtain ⟨-, hu, -⟩ := h.body (t := c.task) (u := c.targetTask ++ bar :: a) hlike
          (inputLike_inputText c.input) (by rw [htext, hk]; simp)
        simp at hu
      · intro hmem
        obtain ⟨a, b, hk, -⟩ := List.eq_append_cons_of_mem hmem
        have hpair := h.env (AList.singleton a (b ++ equals :: v)) (by
          rw [htext, hk, envText, sortedPairs_singleton]
          simp [feedPairs])
        rw [hpairs, hk, sortedPairs_singleton] at hpair
        simp at hpair
      · intro hmem
        obtain ⟨a, b, hv, -⟩ := List.eq_append_cons_of_mem hmem
        have hpair := h.env (AList.singleton (k ++ equals :: a) b) (by
          rw [htext, hv, envText, sortedPairs_singleton]
          simp [feedPairs])
        rw [hpairs, sortedPairs_singleton] at hpair
        simp at hpair
      · rintro ⟨a, b, hv⟩
        have hlike : EnvLike (k ++ equals :: (a ++ [semicolon])) :=
          .inr ⟨List.mem_append_right _ List.mem_cons_self, getLast?_entry k a⟩
        obtain ⟨-, -, he⟩ := h.body (t := c.task) (u := c.targetTask) hlike
          (inputLike_behind hinput (b ++ semicolon :: [bar])) (by rw [htext, ← hv]; simp)
        rw [htext, ← hv] at he
        simp at he
      · rintro ⟨a, b, hv⟩
        obtain ⟨-, hu, -⟩ := h.body (t := c.task)
          (u := c.targetTask ++ bar :: (k ++ equals :: a)) (.inl rfl)
          (inputLike_behind hinput (b ++ semicolon :: [bar])) (by rw [htext, ← hv]; simp)
        simp at hu
  · next entry entry' entries hpairs =>
      obtain ⟨k₁, v₁⟩ := entry
      obtain ⟨k₂, v₂⟩ := entry'
      obtain ⟨front, e, -, hfeed⟩ := feedPairs_shape id k₂ v₂ entries
      have htext : envText c.env =
          k₁ ++ equals :: (v₁ ++ semicolon :: (front ++ equals :: (e ++ [semicolon]))) := by
        rw [envText, hpairs, feedPairs, hfeed]
        rfl
      have hpair := h.env (AList.singleton k₁ (v₁ ++ semicolon :: (front ++ equals :: e))) (by
        rw [htext, envText, sortedPairs_singleton]
        simp [feedPairs])
      rw [hpairs, sortedPairs_singleton] at hpair
      simp at hpair

theorem input_separated (h : Distinguished c) : InputSeparated c := by
  unfold InputSeparated
  split
  · trivial
  · next k v hpairs =>
      have htext : inputText c.input = k ++ equals :: (write v.1 ++ [semicolon]) := by
        rw [inputText, hpairs]
        rfl
      refine ⟨?_, ?_, ?_, ?_⟩
      · rintro ⟨x, hk⟩
        obtain ⟨-, hu, -⟩ := h.body (t := c.task) (u := c.targetTask ++ bar :: envText c.env)
          (.inl rfl) (.inr ⟨x, v, rfl⟩) (by rw [htext, ← hk]; simp)
        simp at hu
      · rintro ⟨a, b, hk⟩
        obtain ⟨-, hu, -⟩ := h.body (t := c.task)
          (u := c.targetTask ++ bar :: (envText c.env ++ bar :: a)) (.inl rfl)
          (.inr ⟨b, v, rfl⟩) (by rw [htext, ← hk]; simp)
        simp at hu
      · intro front back hk hlast
        by_contra hnone
        have hequals : equals ∈ envText c.env ++ bar :: front := by
          by_cases hempty : sortedPairs c.env = []
          · have hfront : equals ∈ front := not_not.mp fun hmem => hnone ⟨hempty, hmem⟩
            exact List.mem_append_right _ (List.mem_cons_of_mem _ hfront)
          · obtain hnil | ⟨hmem, -⟩ := envLike_envText c.env
            · exact absurd (feedPairs_eq_nil.mp hnil) hempty
            · exact List.mem_append_left _ hmem
        have hend : (envText c.env ++ bar :: front).getLast? = some semicolon := by
          obtain ⟨x, rfl⟩ := List.getLast?_eq_some_iff.mp hlast
          rw [← List.cons_append, ← List.append_assoc, List.getLast?_concat]
        obtain ⟨-, -, he⟩ := h.body (t := c.task) (u := c.targetTask) (.inr ⟨hequals, hend⟩)
          (.inr ⟨back, v, rfl⟩) (by rw [htext, hk]; simp)
        simp at he
      · intro k₁ v₁ k₂ hk hlt
        have hpair := h.input ((AList.singleton k₂ v).insert k₁ v₁) (by
          rw [htext, hk, inputText, sortedPairs_pair hlt]
          simp [feedPairs])
        rw [hpairs, sortedPairs_pair hlt] at hpair
        simp at hpair
  · next entry entry' entries hpairs =>
      obtain ⟨front, e, -, hfeed⟩ :=
        feedPairs_shape (fun v : JsonValue => write v.1) entry.1 entry.2
        (entry' :: entries)
      have hpair := h.input (AList.singleton front e) (by
        rw [inputText, inputText, hpairs, sortedPairs_singleton, hfeed]
        rfl)
      rw [hpairs, sortedPairs_singleton] at hpair
      simp at hpair

theorem separated (h : Distinguished c) : Separated c :=
  ⟨h.task_separated, h.targetTask_separated, h.env_separated, h.input_separated⟩

end Distinguished

/-- A fingerprint tells a configuration from every other one exactly when its texts are
separated. -/
theorem computeFingerprint_injective_iff {δ : Type} {sha256 : Bytes → δ}
    (hsha256 : Function.Injective sha256) (c : EventSourceConfig) :
    (∀ c', computeFingerprint sha256 c' = computeFingerprint sha256 c → Same c c') ↔
      Separated c := by
  constructor
  · intro h
    exact Distinguished.separated fun c' hc' => h c' (congrArg sha256 hc')
  · intro h c' hc'
    exact same_of_hashed h (hsha256 hc')

def sampleConfig (env : Dict Bytes Bytes) : EventSourceConfig where
  task := ascii "poll"
  targetTask := ascii "build"
  env := env
  input := AList.singleton (ascii "branch") ⟨.str (ascii "a|b=c;"), rfl⟩
  restartPolicy := .onFailure
  backoffSecs := 5
  maxInFlight := some 2

theorem computeFingerprint_injective_one :
    Separated (sampleConfig (AList.singleton (ascii "URL") (ascii "http://host"))) ∧ ∀ c',
      computeFingerprint id c' = computeFingerprint id
        (sampleConfig (AList.singleton (ascii "URL") (ascii "http://host"))) →
      Same (sampleConfig (AList.singleton (ascii "URL") (ascii "http://host"))) c' := by
  suffices hseparated :
      Separated (sampleConfig (AList.singleton (ascii "URL") (ascii "http://host"))) from
    ⟨hseparated, (computeFingerprint_injective_iff Function.injective_id _).mpr hseparated⟩
  refine ⟨?_, ?_, ?_, ?_⟩
  · decide
  · decide
  · change bar ∉ ascii "URL" ∧ equals ∉ ascii "URL" ∧ equals ∉ ascii "http://host" ∧ _
    exact ⟨by decide, by decide, by decide, fun _ => ⟨by decide, by decide⟩⟩
  · have hbar : bar ∉ ascii "branch" := by decide
    have hequals : equals ∉ ascii "branch" := by decide
    refine ⟨by decide, by decide, fun front back hk _ => absurd ?_ hbar,
      fun k₁ v₁ k₂ hk => absurd ?_ hequals⟩
    · change ascii "branch" = _ at hk
      rw [hk]
      exact List.mem_append_right _ List.mem_cons_self
    · change ascii "branch" = _ at hk
      rw [hk]
      exact List.mem_append_right _ List.mem_cons_self

/-- Two variables hash as one whose value holds the separators. -/
theorem two_variables_hash_as_one :
    ∃ env env' : Dict Bytes Bytes, hashed (sampleConfig env) = hashed (sampleConfig env') ∧
      ¬ Same (sampleConfig env) (sampleConfig env') := by
  refine ⟨(AList.singleton (ascii "y") (ascii "2")).insert (ascii "x") (ascii "1"),
    AList.singleton (ascii "x") (ascii "1;y=2"), by decide +kernel, fun h => ?_⟩
  have henv := h.env (ascii "y")
  revert henv
  decide

end Stroem.EventSource
