import Mathlib.Data.List.Basic
import Mathlib.Logic.Relation
import Mathlib.Tactic.Common

/-!
# Recursive queries

`WITH RECURSIVE q AS (start UNION ALL next)` is evaluated in rounds: the rows of a round are put
out, and what `next` makes of them are the rows of the following round.  The rows may go on
forever; a query that reads `q` with a limit stops at the limit.
-/

namespace Stroem.Foundation

section Recursive

variable {ρ : Type*} {next : ρ → List ρ}

def rounds (next : ρ → List ρ) : Nat → List ρ → List ρ
  | 0, _ => []
  | n + 1, working => working ++ rounds next n (working.flatMap next)

def working (next : ρ → List ρ) : Nat → List ρ → List ρ
  | 0, start => start
  | n + 1, start => working next n (start.flatMap next)

/--
`SELECT … FROM q LIMIT limit`.  No more than `limit` rounds are needed, since every round that is
followed by another has a row.
-/
def firstRows (next : ρ → List ρ) (limit : Nat) (start : List ρ) : List ρ :=
  (rounds next limit start).take limit

def Reaches (next : ρ → List ρ) (start : List ρ) (r : ρ) : Prop :=
  ∃ s ∈ start, Relation.ReflTransGen (fun a b => b ∈ next a) s r

def RowsWithin (next : ρ → List ρ) (start : List ρ) (max : Nat) : Prop :=
  ∀ n, (rounds next n start).length ≤ max

@[simp] theorem rounds_nil (n : Nat) : rounds next n [] = [] := by
  induction n with
  | zero => rfl
  | succ n ih => simpa [rounds] using ih

variable {start : List ρ}

theorem Reaches.of_mem {r : ρ} (h : r ∈ start) : Reaches next start r :=
  ⟨r, h, .refl⟩

theorem Reaches.tail {start : List ρ} {r r' : ρ} (h : Reaches next start r) (h' : r' ∈ next r) :
    Reaches next start r' := by
  obtain ⟨s, hs, hreach⟩ := h
  exact ⟨s, hs, hreach.tail h'⟩

theorem Reaches.invariant {r : ρ} (h : Reaches next start r) (P : ρ → Prop)
    (hstart : ∀ s ∈ start, P s) (hnext : ∀ u, Reaches next start u → P u → ∀ v ∈ next u, P v) :
    P r := by
  obtain ⟨s, hs, hreach⟩ := h
  induction hreach with
  | refl => exact hstart s hs
  | tail hsu hv ih => exact hnext _ ⟨s, hs, hsu⟩ ih _ hv

theorem reaches_of_mem_rounds {n : Nat} {r : ρ} (h : r ∈ rounds next n start) :
    Reaches next start r := by
  induction n generalizing start with
  | zero => simp [rounds] at h
  | succ n ih =>
    rcases List.mem_append.mp h with hr | hr
    · exact .of_mem hr
    · obtain ⟨s, hs, hreach⟩ := ih hr
      obtain ⟨t, ht, hst⟩ := List.mem_flatMap.mp hs
      exact ⟨t, ht, hreach.head hst⟩

theorem next_mem_rounds {n : Nat} (hend : working next n start = []) {r r' : ρ}
    (h : r ∈ rounds next n start) (h' : r' ∈ next r) : r' ∈ rounds next n start := by
  induction n generalizing start with
  | zero => simp [rounds] at h
  | succ n ih =>
    rcases List.mem_append.mp h with hr | hr
    · have hmem : r' ∈ start.flatMap next := List.mem_flatMap.mpr ⟨r, hr, h'⟩
      refine List.mem_append_right _ ?_
      cases n with
      | zero =>
        rw [show start.flatMap next = [] from hend] at hmem
        cases hmem
      | succ n => exact List.mem_append_left _ hmem
    · exact List.mem_append_right _ (ih hend hr)

theorem mem_rounds_iff_reaches {n : Nat} (hend : working next n start = []) {r : ρ} :
    r ∈ rounds next n start ↔ Reaches next start r := by
  refine ⟨reaches_of_mem_rounds, fun h => ?_⟩
  refine h.invariant (· ∈ rounds next n start) (fun s hs => ?_)
    (fun u _ hu v hv => next_mem_rounds hend hu hv)
  cases n with
  | zero =>
    rw [show start = [] from hend] at hs
    cases hs
  | succ n => exact List.mem_append_left _ hs

theorem le_length_rounds {n : Nat} (h : working next n start ≠ []) :
    n ≤ (rounds next n start).length := by
  induction n generalizing start with
  | zero => exact Nat.zero_le _
  | succ n ih =>
    have hn := ih h
    have hstart : start ≠ [] := by
      rintro rfl
      have hnil : working next n [] = [] := by
        clear ih hn h
        induction n with
        | zero => rfl
        | succ n ih => exact ih
      exact h hnil
    have hpos : 0 < start.length := List.length_pos_of_ne_nil hstart
    rw [rounds, List.length_append]
    omega

theorem mem_firstRows_iff {limit : Nat} (h : (firstRows next limit start).length < limit) {r : ρ} :
    r ∈ firstRows next limit start ↔ Reaches next start r := by
  have hlen : (rounds next limit start).length < limit := by
    rw [firstRows, List.length_take] at h
    omega
  have hend : working next limit start = [] := by
    by_contra hne
    have hle := le_length_rounds hne
    omega
  rw [firstRows, List.take_of_length_le (Nat.le_of_lt hlen)]
  exact mem_rounds_iff_reaches hend

theorem rowsWithin_of_working_eq_nil {k : Nat} (h : working next k start = []) :
    RowsWithin next start (rounds next k start).length := by
  intro n
  induction k generalizing n start with
  | zero =>
    rw [show start = [] from h, rounds_nil]
    exact Nat.zero_le _
  | succ k ih =>
    cases n with
    | zero => exact Nat.zero_le _
    | succ n =>
      have hle := ih h n
      simp only [rounds, List.length_append]
      omega

theorem rounds_eq_of_working_eq_nil {k limit : Nat} (h : working next k start = [])
    (hle : k ≤ limit) : rounds next limit start = rounds next k start := by
  induction k generalizing limit start with
  | zero =>
    obtain rfl : start = [] := h
    rw [rounds_nil, rounds_nil]
  | succ k ih =>
    obtain ⟨m, rfl⟩ : ∃ m, limit = m + 1 := ⟨limit - 1, by omega⟩
    rw [rounds, rounds, ih h (by omega)]

theorem firstRows_eq_rounds {k limit : Nat} (h : working next k start = []) (hle : k ≤ limit)
    (hlen : (rounds next k start).length ≤ limit) :
    firstRows next limit start = rounds next k start := by
  rw [firstRows, rounds_eq_of_working_eq_nil h hle, List.take_of_length_le hlen]

theorem length_firstRows_le {limit max : Nat} (h : RowsWithin next start max) :
    (firstRows next limit start).length ≤ max := by
  refine Nat.le_trans ?_ (h limit)
  rw [firstRows, List.length_take]
  exact Nat.min_le_right limit _

end Recursive

end Stroem.Foundation
