import Mathlib.Data.List.Basic
import Mathlib.Logic.Relation
import Mathlib.Tactic.Common

/-!
# Lineages

A history of births: every item came either from a root or from another item.  Where every root
and every item has at most one child, the descendants of a root form a line, and only its last
item has no child.
-/

namespace Stroem.Foundation

open Relation

variable {ρ τ : Type*}

inductive Origin (ρ τ : Type*) where
  | root (root : ρ)
  | parent (item : τ)
  deriving DecidableEq

structure Birth (ρ τ : Type*) where
  item : τ
  origin : Origin ρ τ
  deriving DecidableEq

abbrev Lineage (ρ τ : Type*) := List (Birth ρ τ)

def Born (history : Lineage ρ τ) (item : τ) : Prop :=
  ∃ birth ∈ history, birth.item = item

def IsChild (history : Lineage ρ τ) (parent child : τ) : Prop :=
  ⟨child, .parent parent⟩ ∈ history

def IsFirst (history : Lineage ρ τ) (root : ρ) (item : τ) : Prop :=
  ⟨item, .root root⟩ ∈ history

def Descends (history : Lineage ρ τ) (item : τ) (root : ρ) : Prop :=
  ∃ first, IsFirst history root first ∧ ReflTransGen (IsChild history) first item

structure Linear (history : Lineage ρ τ) : Prop where
  once : ∀ birth ∈ history, ∀ birth' ∈ history, birth.item = birth'.item → birth = birth'
  parentBorn : ∀ parent child, IsChild history parent child → Born history parent
  oneFirst : ∀ root item item', IsFirst history root item → IsFirst history root item' →
    item = item'
  oneChild : ∀ parent item item', IsChild history parent item → IsChild history parent item' →
    item = item'

/-! ## Descent -/

theorem Descends.first {history : Lineage ρ τ} {root : ρ} {item : τ}
    (h : Descends history item root) : ∃ first, IsFirst history root first :=
  h.imp fun _ => And.left

theorem IsFirst.descends {history : Lineage ρ τ} {root : ρ} {item : τ}
    (h : IsFirst history root item) : Descends history item root :=
  ⟨item, h, .refl⟩

theorem Descends.child {history : Lineage ρ τ} {root : ρ} {parent child : τ}
    (h : Descends history parent root) (hchild : IsChild history parent child) :
    Descends history child root := by
  obtain ⟨first, hfirst, hpath⟩ := h
  exact ⟨first, hfirst, hpath.tail hchild⟩

theorem descends_iff {history : Lineage ρ τ} {root : ρ} {item : τ} :
    Descends history item root ↔ IsFirst history root item ∨
      ∃ parent, Descends history parent root ∧ IsChild history parent item := by
  constructor
  · rintro ⟨first, hfirst, hpath⟩
    obtain rfl | ⟨parent, hparent, hchild⟩ := ReflTransGen.cases_tail hpath
    · exact .inl hfirst
    · exact .inr ⟨parent, ⟨first, hfirst, hparent⟩, hchild⟩
  · rintro (hfirst | ⟨parent, hparent, hchild⟩)
    · exact hfirst.descends
    · exact hparent.child hchild

namespace Linear

theorem nil : Linear ([] : Lineage ρ τ) :=
  ⟨fun _ h => (by cases h), fun _ _ h => (by cases h), fun _ _ _ h => (by cases h),
    fun _ _ _ h => (by cases h)⟩

theorem last_unique {history : Lineage ρ τ} (h : Linear history) {root : ρ} {item item' : τ}
    (hitem : Descends history item root) (hitem' : Descends history item' root)
    (hlast : ∀ child, ¬IsChild history item child)
    (hlast' : ∀ child, ¬IsChild history item' child) : item = item' := by
  obtain ⟨first, hfirst, hpath⟩ := hitem
  obtain ⟨first', hfirst', hpath'⟩ := hitem'
  obtain rfl := h.oneFirst root first first' hfirst hfirst'
  have hunique : Relator.RightUnique (IsChild history) := fun parent child child' =>
    h.oneChild parent child child'
  obtain hpath | hpath := ReflTransGen.total_of_right_unique hunique hpath hpath'
  · obtain rfl | ⟨child, hchild, -⟩ := ReflTransGen.cases_head hpath
    · rfl
    · exact absurd hchild (hlast child)
  · obtain rfl | ⟨child, hchild, -⟩ := ReflTransGen.cases_head hpath
    · rfl
    · exact absurd hchild (hlast' child)

/-! ## A new item -/

section Cons

variable {history : Lineage ρ τ} {item : τ} {origin : Origin ρ τ}

theorem descends_cons_iff (h : Linear history) (hfresh : ¬Born history item) {root : ρ}
    {other : τ} (hne : other ≠ item) :
    Descends (⟨item, origin⟩ :: history) other root ↔ Descends history other root := by
  have hold : ∀ {child : τ} {origin' : Origin ρ τ}, child ≠ item →
      (⟨child, origin'⟩ ∈ (⟨item, origin⟩ :: history : Lineage ρ τ) ↔
        ⟨child, origin'⟩ ∈ history) := by
    intro child origin' hchild
    rw [List.mem_cons, Birth.mk.injEq]
    exact or_iff_right fun heq => hchild heq.1
  constructor
  · rintro ⟨first, hfirst, hpath⟩
    induction hpath with
    | refl => exact IsFirst.descends ((hold hne).mp hfirst)
    | @tail parent child _ hchild ih =>
      have hchild' : IsChild history parent child := (hold hne).mp hchild
      have hparent : parent ≠ item := by
        rintro rfl
        exact hfresh (h.parentBorn parent child hchild')
      exact (ih hparent).child hchild'
  · rintro ⟨first, hfirst, hpath⟩
    have hgrows : ∀ parent child, IsChild history parent child →
        IsChild (⟨item, origin⟩ :: history) parent child :=
      fun _ _ hchild => List.mem_cons_of_mem _ hchild
    exact ⟨first, List.mem_cons_of_mem _ hfirst, ReflTransGen.mono hgrows _ _ hpath⟩

theorem mem_cons_self_iff (hfresh : ¬Born history item) {origin' : Origin ρ τ} :
    ⟨item, origin'⟩ ∈ (⟨item, origin⟩ :: history : Lineage ρ τ) ↔ origin' = origin := by
  rw [List.mem_cons, Birth.mk.injEq, and_iff_right rfl]
  exact or_iff_left fun hmem => hfresh ⟨_, hmem, rfl⟩

theorem descends_first_iff (hfresh : ¬Born history item) {root root' : ρ} :
    Descends (⟨item, .root root'⟩ :: history) item root ↔ root = root' := by
  rw [descends_iff]
  constructor
  · rintro (hfirst | ⟨parent, -, hchild⟩)
    · exact Origin.root.inj ((mem_cons_self_iff hfresh).mp hfirst)
    · cases (mem_cons_self_iff hfresh).mp hchild
  · rintro rfl
    exact .inl List.mem_cons_self

theorem descends_child_iff (h : Linear history) (hfresh : ¬Born history item) {parent : τ}
    (hparent : Born history parent) {root : ρ} :
    Descends (⟨item, .parent parent⟩ :: history) item root ↔ Descends history parent root := by
  have hne : parent ≠ item := by
    rintro rfl
    exact hfresh hparent
  rw [descends_iff]
  constructor
  · rintro (hfirst | ⟨parent', hdescends, hchild⟩)
    · cases (mem_cons_self_iff hfresh).mp hfirst
    · obtain rfl := Origin.parent.inj ((mem_cons_self_iff hfresh).mp hchild)
      exact (descends_cons_iff h hfresh hne).mp hdescends
  · exact fun hdescends =>
      .inr ⟨parent, (descends_cons_iff h hfresh hne).mpr hdescends, List.mem_cons_self⟩

theorem cons (h : Linear history) (hfresh : ¬Born history item)
    (hroot : ∀ root, origin = .root root → ∀ other, ¬IsFirst history root other)
    (hparent : ∀ parent, origin = .parent parent →
      Born history parent ∧ ∀ other, ¬IsChild history parent other) :
    Linear (⟨item, origin⟩ :: history) := by
  refine ⟨?_, ?_, ?_, ?_⟩
  · intro birth hbirth birth' hbirth' heq
    obtain rfl | hold := List.mem_cons.mp hbirth
    · obtain rfl | hold' := List.mem_cons.mp hbirth'
      · rfl
      · exact absurd ⟨birth', hold', heq.symm⟩ hfresh
    · obtain rfl | hold' := List.mem_cons.mp hbirth'
      · exact absurd ⟨birth, hold, heq⟩ hfresh
      · exact h.once birth hold birth' hold' heq
  · intro parent child hchild
    have hborn : Born history parent := by
      obtain heq | hold := List.mem_cons.mp hchild
      · exact (hparent parent (Birth.mk.inj heq).2.symm).1
      · exact h.parentBorn parent child hold
    obtain ⟨birth, hbirth, heq⟩ := hborn
    exact ⟨birth, List.mem_cons_of_mem _ hbirth, heq⟩
  · intro root first first' hfirst hfirst'
    obtain heq | hold := List.mem_cons.mp hfirst
    · obtain heq' | hold' := List.mem_cons.mp hfirst'
      · exact (Birth.mk.inj heq).1.trans (Birth.mk.inj heq').1.symm
      · exact absurd hold' (hroot root (Birth.mk.inj heq).2.symm first')
    · obtain heq' | hold' := List.mem_cons.mp hfirst'
      · exact absurd hold (hroot root (Birth.mk.inj heq').2.symm first)
      · exact h.oneFirst root first first' hold hold'
  · intro parent child child' hchild hchild'
    obtain heq | hold := List.mem_cons.mp hchild
    · obtain heq' | hold' := List.mem_cons.mp hchild'
      · exact (Birth.mk.inj heq).1.trans (Birth.mk.inj heq').1.symm
      · exact absurd hold' ((hparent parent (Birth.mk.inj heq).2.symm).2 child')
    · obtain heq' | hold' := List.mem_cons.mp hchild'
      · exact absurd hold ((hparent parent (Birth.mk.inj heq').2.symm).2 child)
      · exact h.oneChild parent child child' hold hold'

end Cons

end Linear

end Stroem.Foundation
