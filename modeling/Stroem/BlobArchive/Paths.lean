import Stroem.BlobArchive

/-!
# Keys as paths

The files of an archive lie where the keys say: the path of a key determines it, the sidecar of a
key lies at the path of the key with `.ct` behind it, and one path runs through another exactly
when one key continues the other behind a slash.
-/

namespace Stroem.BlobArchive

def sidecar (key : String) : String := key ++ ".ct"

def Above (upper lower : String) : Prop := upper.toList ++ ['/'] <+: lower.toList

instance (upper lower : String) : Decidable (Above upper lower) :=
  inferInstanceAs (Decidable (_ <+: _))

/-! ## Splitting at slashes -/

private theorem intercalate_append {sep : List Char} {init rest : List Name} (hinit : init ≠ [])
    (hrest : rest ≠ []) :
    sep.intercalate (init ++ rest) = sep.intercalate init ++ sep ++ sep.intercalate rest := by
  induction init with
  | nil => exact absurd rfl hinit
  | cons name init ih =>
    by_cases h : init = []
    · subst h
      rw [List.singleton_append, List.intercalate_cons_of_ne_nil hrest,
        List.intercalate_singleton]
    · rw [List.cons_append, List.intercalate_cons_of_ne_nil (by simp [h]), ih h,
        List.intercalate_cons_of_ne_nil h]
      simp only [List.append_assoc]

theorem splitOn_prefix_iff (upper lower : List Char) :
    upper.splitOn '/' <+: lower.splitOn '/' ↔ upper = lower ∨ upper ++ ['/'] <+: lower := by
  constructor
  · rintro ⟨rest, hrest⟩
    have hlower : ['/'].intercalate (lower.splitOn '/') = lower := List.intercalate_splitOn '/'
    rw [← hrest] at hlower
    by_cases h : rest = []
    · left
      rw [h, List.append_nil, List.intercalate_splitOn] at hlower
      exact hlower
    · right
      rw [intercalate_append (List.splitOn_ne_nil _ _) h, List.intercalate_splitOn] at hlower
      exact ⟨_, hlower⟩
  · rintro (rfl | ⟨rest, rfl⟩)
    · exact List.prefix_rfl
    · rw [List.append_assoc, List.singleton_append, List.splitOn_append_cons_self]
      exact List.prefix_append _ _

theorem splitOn_append_last {text ending : List Char} (h : '/' ∉ ending) :
    (text ++ ending).splitOn '/' =
      (text.splitOn '/').dropLast ++ [(text.splitOn '/').getLastD [] ++ ending] := by
  induction hn : text.length using Nat.strong_induction_on generalizing text with
  | _ n ih =>
    by_cases hslash : '/' ∈ text
    · obtain ⟨first, rest, rfl, hfirst⟩ := List.eq_append_cons_of_mem hslash
      have hrest := ih rest.length (by simp at hn; omega) rfl
      have hne := List.splitOn_ne_nil '/' rest
      rw [List.append_assoc, List.cons_append, List.splitOn_append_cons_self,
        List.splitOn_append_cons_self, hrest, List.splitOn_eq_singleton hfirst,
        List.singleton_append, List.singleton_append, List.dropLast_cons_of_ne_nil hne,
        List.cons_append]
      cases hsplit : rest.splitOn '/' with
      | nil => exact absurd hsplit hne
      | cons name names => simp
    · rw [List.splitOn_eq_singleton hslash, List.splitOn_eq_singleton (by simp [hslash, h])]
      rfl

/-! ## Paths -/

theorem components_ne_nil (key : String) : components key ≠ [] :=
  List.splitOn_ne_nil _ _

theorem components_inj {key key' : String} : components key = components key' ↔ key = key' := by
  refine ⟨fun h => ?_, congrArg components⟩
  have htext := congrArg (List.intercalate ['/']) h
  unfold components at htext
  rw [List.intercalate_splitOn, List.intercalate_splitOn] at htext
  exact String.toList_injective htext

theorem components_prefix_iff {upper lower : String} :
    components upper <+: components lower ↔ upper = lower ∨ Above upper lower := by
  unfold components Above
  rw [splitOn_prefix_iff, String.toList_inj]

theorem prefix_parent_iff {upper lower : String} :
    components upper <+: (components lower).dropLast ↔ Above upper lower := by
  have hlower := List.dropLast_append_getLast (components_ne_nil lower)
  constructor
  · intro h
    have hprefix := h.trans (List.dropLast_prefix (components lower))
    rcases components_prefix_iff.mp hprefix with rfl | habove
    · have hlen := h.length_le
      rw [List.length_dropLast] at hlen
      have := List.length_pos_iff.mpr (components_ne_nil upper)
      omega
    · exact habove
  · intro h
    have hprefix := components_prefix_iff.mpr (.inr h)
    rw [← hlower, List.prefix_concat_iff] at hprefix
    rcases hprefix with heq | hprefix
    · rw [hlower, components_inj] at heq
      have hlen := h.length_le
      rw [heq, List.length_append, List.length_singleton] at hlen
      omega
    · exact hprefix

theorem ctPathFor_components (key : String) :
    ctPathFor (components key) = components (sidecar key) := by
  unfold ctPathFor withFileName fileName components sidecar
  rw [String.toList_append, splitOn_append_last (by decide)]

theorem dropLast_sidecar (key : String) :
    (components (sidecar key)).dropLast = (components key).dropLast := by
  rw [← ctPathFor_components]
  simp [ctPathFor, withFileName]

theorem above_sidecar_iff {upper lower : String} :
    Above upper (sidecar lower) ↔ Above upper lower := by
  rw [← prefix_parent_iff, ← prefix_parent_iff, dropLast_sidecar]

theorem sidecar_ne (key : String) : sidecar key ≠ key := by
  intro h
  have hlen := congrArg (fun text => text.toList.length) h
  simp [sidecar] at hlen

theorem sidecar_inj {key key' : String} : sidecar key = sidecar key' ↔ key = key' := by
  simp [sidecar]

theorem not_prefix_parent {key : String} {q : List Name}
    (hlen : q.length = (components key).length) : ¬q <+: (components key).dropLast := by
  intro hprefix
  have hle := hprefix.length_le
  have hpos := List.length_pos_iff.mpr (components_ne_nil key)
  rw [List.length_dropLast] at hle
  omega

theorem length_components_sidecar (key : String) :
    (components (sidecar key)).length = (components key).length := by
  have := List.length_pos_iff.mpr (components_ne_nil key)
  rw [← ctPathFor_components]
  simp only [ctPathFor, withFileName, List.length_append, List.length_dropLast,
    List.length_singleton]
  omega

end Stroem.BlobArchive
