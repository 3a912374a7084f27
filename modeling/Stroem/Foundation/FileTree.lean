import Mathlib.Data.List.Infix
import Mathlib.Tactic.Common

/-!
# Trees of files and directories

A file tree maps a path, the list of names from the root, to the file or directory that stands
there.  The operations are the system calls of a POSIX file system without links: a path is
resolved name by name, so one that runs through a file and one that runs through nothing are
different errors.
-/

namespace Stroem.Foundation

inductive Node (C : Type*)
  | file (content : C)
  | dir
  deriving DecidableEq

inductive IoError
  | notFound
  | notADirectory
  | isADirectory
  deriving DecidableEq

abbrev FileTree (N C : Type*) := List N → Option (Node C)

namespace FileTree

variable {N C : Type*}

structure WellFormed (t : FileTree N C) : Prop where
  root : t [] = some .dir
  parent : ∀ p n node, t (p ++ [n]) = some node → t p = some .dir

def Blocked (t : FileTree N C) (p : List N) : Prop := ∃ q c, q <+: p ∧ t q = some (.file c)

def walk (t : FileTree N C) (seen : List N) : List N → Except IoError (Node C)
  | [] => match t seen with
      | none => .error .notFound
      | some node => .ok node
  | n :: rest => match t seen with
      | none => .error .notFound
      | some (.file _) => .error .notADirectory
      | some .dir => walk t (seen ++ [n]) rest

def find (t : FileTree N C) (p : List N) : Except IoError (Node C) := walk t [] p

def read (t : FileTree N C) (p : List N) : Except IoError C :=
  match find t p with
  | .error e => .error e
  | .ok (.file c) => .ok c
  | .ok .dir => .error .isADirectory

def empty : FileTree N C := fun p => if p = [] then some .dir else none

theorem wellFormed_empty : (empty : FileTree N C).WellFormed := by
  refine ⟨rfl, fun p n node h => ?_⟩
  simp [empty] at h

section Operations

variable [DecidableEq N]

def set (t : FileTree N C) (p : List N) (node : Option (Node C)) : FileTree N C :=
  fun q => if q = p then node else t q

/-- `fs::create_dir_all`: a path that runs through a file, or is one, is refused before anything
is created. -/
def mkdirs (t : FileTree N C) (p : List N) : Except IoError (FileTree N C) :=
  match p.inits.find? (fun q => match t q with | some (.file _) => true | _ => false) with
  | some _ => .error .notADirectory
  | none => .ok fun q => if q <+: p then some .dir else t q

def write (t : FileTree N C) (p : List N) (c : C) : Except IoError (FileTree N C) :=
  match find t p.dropLast with
  | .error e => .error e
  | .ok (.file _) => .error .notADirectory
  | .ok .dir => match t p with
      | some .dir => .error .isADirectory
      | _ => .ok (t.set p (some (.file c)))

def rename (t : FileTree N C) (p q : List N) : Except IoError (FileTree N C) :=
  match read t p, find t q.dropLast with
  | .error e, _ => .error e
  | _, .error e => .error e
  | _, .ok (.file _) => .error .notADirectory
  | .ok c, .ok .dir => match t q with
      | some .dir => .error .isADirectory
      | _ => .ok ((t.set p none).set q (some (.file c)))

def removeFile (t : FileTree N C) (p : List N) : Except IoError (FileTree N C) :=
  match read t p with
  | .error e => .error e
  | .ok _ => .ok (t.set p none)

def removeDirAll (t : FileTree N C) (p : List N) : Except IoError (FileTree N C) :=
  match find t p with
  | .error e => .error e
  | .ok (.file _) => .error .notADirectory
  | .ok .dir => .ok fun q => if p <+: q then none else t q

@[simp] theorem set_self (t : FileTree N C) (p : List N) (node : Option (Node C)) :
    t.set p node p = node :=
  if_pos rfl

@[simp] theorem set_eq_self (t : FileTree N C) (p : List N) : t.set p (t p) = t := by
  funext q
  unfold set
  split
  · next hq => rw [hq]
  · rfl

theorem set_of_ne (t : FileTree N C) {p q : List N} (node : Option (Node C)) (h : q ≠ p) :
    t.set p node q = t q :=
  if_neg h

end Operations

/-! ## Resolving a path -/

variable {t : FileTree N C} {p q : List N}

variable {rest : List N} {node : Node C}

theorem WellFormed.dir_of_prefix (h : t.WellFormed) (hne : rest ≠ [])
    (hnode : t (p ++ rest) = some node) : t p = some .dir := by
  induction rest using List.reverseRecOn generalizing node with
  | nil => exact absurd rfl hne
  | append_singleton rest n ih =>
    rw [← List.append_assoc] at hnode
    have hparent := h.parent (p ++ rest) n node hnode
    by_cases hrest : rest = []
    · simpa [hrest] using hparent
    · exact ih hrest hparent

theorem WellFormed.dir_above (h : t.WellFormed) (hp : t p = some node) (hbelow : q <+: p)
    (hne : q ≠ p) : t q = some .dir := by
  obtain ⟨rest, rfl⟩ := hbelow
  refine h.dir_of_prefix ?_ hp
  rintro rfl
  exact hne (List.append_nil q).symm

theorem WellFormed.not_blocked_of_removed (h : t.WellFormed) {t' : FileTree N C}
    (hp : t p = some node) (hnone : t' p = none)
    (hle : ∀ q c, t' q = some (.file c) → t q = some (.file c)) : ¬Blocked t' p := by
  rintro ⟨q, c, hprefix, hfile⟩
  by_cases hq : q = p
  · rw [hq, hnone] at hfile
    cases hfile
  · have hdir := h.dir_above hp hprefix hq
    rw [hle q c hfile] at hdir
    cases hdir

theorem WellFormed.eq_none_below (h : t.WellFormed) (hp : t p ≠ some .dir) (hq : p <+: q)
    (hne : q ≠ p) : t q = none := by
  obtain ⟨rest, rfl⟩ := hq
  have hrest : rest ≠ [] := by
    rintro rfl
    exact hne (List.append_nil p)
  cases hnode : t (p ++ rest) with
  | none => rfl
  | some node => exact absurd (h.dir_of_prefix hrest hnode) hp

theorem walk_eq_ok (h : t.WellFormed) {seen : List N} (hnode : t (seen ++ rest) = some node) :
    walk t seen rest = .ok node := by
  induction rest generalizing seen with
  | nil =>
    rw [List.append_nil] at hnode
    simp only [walk, hnode]
  | cons n rest ih =>
    have hdir := h.dir_of_prefix (List.cons_ne_nil n rest) hnode
    simp only [walk, hdir]
    exact ih (by simpa using hnode)

theorem walk_eq_notFound {seen : List N} (hnone : t (seen ++ rest) = none)
    (hfree : ¬Blocked t (seen ++ rest)) : walk t seen rest = .error .notFound := by
  induction rest generalizing seen with
  | nil =>
    rw [List.append_nil] at hnone
    simp only [walk, hnone]
  | cons n rest ih =>
    cases hseen : t seen with
    | none => simp only [walk, hseen]
    | some node =>
      cases node with
      | file c => exact absurd ⟨seen, c, List.prefix_append _ _, hseen⟩ hfree
      | dir =>
        simp only [walk, hseen]
        refine ih ?_ ?_
        · simpa using hnone
        · simpa using hfree

theorem walk_eq_notADirectory (h : t.WellFormed) {seen : List N}
    (hnone : t (seen ++ rest) = none) {below : List N} {c : C}
    (hfile : t (seen ++ below) = some (.file c)) (hbelow : below <+: rest) :
    walk t seen rest = .error .notADirectory := by
  induction rest generalizing seen below with
  | nil =>
    rw [List.prefix_nil.mp hbelow] at hfile
    exact absurd (hnone.symm.trans hfile) (by simp)
  | cons n rest ih =>
    cases below with
    | nil =>
      rw [List.append_nil] at hfile
      simp only [walk, hfile]
    | cons m below =>
      obtain ⟨rfl, hrest⟩ := List.cons_prefix_cons.mp hbelow
      simp only [walk, h.dir_of_prefix (List.cons_ne_nil m below) hfile]
      refine ih ?_ ?_ hrest
      · simpa using hnone
      · simpa using hfile

theorem find_eq_ok (h : t.WellFormed) (hnode : t p = some node) : find t p = .ok node :=
  walk_eq_ok h hnode

theorem find_eq_notFound (hnone : t p = none) (hfree : ¬Blocked t p) :
    find t p = .error .notFound :=
  walk_eq_notFound hnone hfree

theorem find_eq_notADirectory (h : t.WellFormed) (hnone : t p = none) (hblocked : Blocked t p) :
    find t p = .error .notADirectory := by
  obtain ⟨q, c, hprefix, hfile⟩ := hblocked
  exact walk_eq_notADirectory h hnone hfile hprefix

theorem eq_of_walk_eq_ok {seen : List N} (h : walk t seen rest = .ok node) :
    t (seen ++ rest) = some node := by
  induction rest generalizing seen with
  | nil =>
    rw [List.append_nil]
    simp only [walk] at h
    split at h
    · cases h
    · next node' hnode => rw [hnode, Except.ok.inj h]
  | cons n rest ih =>
    simp only [walk] at h
    split at h
    · cases h
    · cases h
    · simpa using ih h

theorem find_eq_ok_iff (h : t.WellFormed) : find t p = .ok node ↔ t p = some node :=
  ⟨eq_of_walk_eq_ok, find_eq_ok h⟩

theorem find_eq_notFound_iff (h : t.WellFormed) :
    find t p = .error .notFound ↔ t p = none ∧ ¬Blocked t p := by
  refine ⟨fun hfind => ?_, fun ⟨hnone, hfree⟩ => find_eq_notFound hnone hfree⟩
  have hnone : t p = none := by
    cases hp : t p with
    | none => rfl
    | some node =>
      rw [find_eq_ok h hp] at hfind
      cases hfind
  refine ⟨hnone, fun hblocked => ?_⟩
  rw [find_eq_notADirectory h hnone hblocked] at hfind
  cases hfind

theorem eq_of_read_eq_ok {c : C} (h : read t p = .ok c) : t p = some (.file c) := by
  unfold read at h
  split at h
  · cases h
  · next c' hfind =>
    rw [← Except.ok.inj h]
    exact eq_of_walk_eq_ok hfind
  · cases h

theorem read_eq_ok_iff (h : t.WellFormed) {c : C} : read t p = .ok c ↔ t p = some (.file c) := by
  rw [← find_eq_ok_iff h]
  unfold read
  cases find t p with
  | error e => simp
  | ok node => cases node <;> simp

theorem read_eq_notFound_iff (h : t.WellFormed) :
    read t p = .error .notFound ↔ t p = none ∧ ¬Blocked t p := by
  rw [← find_eq_notFound_iff h]
  unfold read
  cases find t p with
  | error e => simp
  | ok node => cases node <;> simp

/-! ## What the operations leave -/

section Operations

variable [DecidableEq N] {t' : FileTree N C}

theorem mkdirs_eq_ok (h : mkdirs t p = .ok t') :
    ¬Blocked t p ∧ t' = fun q => if q <+: p then some .dir else t q := by
  unfold mkdirs at h
  split at h
  · cases h
  · next hfind =>
    refine ⟨?_, (Except.ok.inj h).symm⟩
    rintro ⟨q, c, hprefix, hfile⟩
    have hq := List.find?_eq_none.mp hfind q ((List.mem_inits q p).mpr hprefix)
    simp [hfile] at hq

theorem write_eq_ok {c : C} (h : write t p c = .ok t') :
    t p ≠ some .dir ∧ t' = t.set p (some (.file c)) := by
  unfold write at h
  split at h
  · cases h
  · cases h
  · split at h
    · cases h
    · next hdir => exact ⟨hdir, (Except.ok.inj h).symm⟩

theorem WellFormed.write_file (h : t.WellFormed) {c c' : C} (hp : t p = some (.file c)) :
    write t p c' = .ok (t.set p (some (.file c'))) := by
  have hparent : t p.dropLast = some .dir := by
    rcases List.eq_nil_or_concat p with rfl | ⟨q, n, rfl⟩
    · rw [h.root] at hp
      cases hp
    · rw [List.concat_eq_append] at hp ⊢
      rw [List.dropLast_concat]
      exact h.parent q n _ hp
  simp only [FileTree.write, find_eq_ok h hparent, hp]

theorem rename_eq_ok (h : rename t p q = .ok t') :
    ∃ c, read t p = .ok c ∧ t q ≠ some .dir ∧
      t' = (t.set p none).set q (some (.file c)) := by
  unfold rename at h
  split at h
  · cases h
  · cases h
  · cases h
  · next c hread _ =>
    split at h
    · cases h
    · next hdir => exact ⟨c, hread, hdir, (Except.ok.inj h).symm⟩

theorem removeFile_eq_ok (h : removeFile t p = .ok t') :
    (∃ c, read t p = .ok c) ∧ t' = t.set p none := by
  unfold removeFile at h
  split at h
  · cases h
  · next c hread => exact ⟨⟨c, hread⟩, (Except.ok.inj h).symm⟩

theorem removeDirAll_eq_ok (h : removeDirAll t p = .ok t') :
    find t p = .ok .dir ∧ t' = fun q => if p <+: q then none else t q := by
  unfold removeDirAll at h
  split at h
  · cases h
  · cases h
  · next hfind => exact ⟨hfind, (Except.ok.inj h).symm⟩

theorem removeDirAll_eq_notFound (h : t.WellFormed)
    (hremove : removeDirAll t p = .error .notFound) : t p = none ∧ ¬Blocked t p := by
  rw [← find_eq_notFound_iff h]
  unfold removeDirAll at hremove
  split at hremove
  · next e hfind => rw [hfind, Except.error.inj hremove]
  · cases hremove
  · cases hremove

theorem removeFile_eq_notFound (h : t.WellFormed)
    (hremove : removeFile t p = .error .notFound) : t p = none ∧ ¬Blocked t p := by
  rw [← read_eq_notFound_iff h]
  unfold removeFile at hremove
  split at hremove
  · next e hread => rw [hread, Except.error.inj hremove]
  · cases hremove

theorem WellFormed.set_none (h : t.WellFormed) (hdir : t p ≠ some .dir) :
    (t.set p none).WellFormed := by
  have hkeep : ∀ q, t q = some .dir → t.set p none q = some .dir := by
    intro q hq
    rw [set_of_ne]
    · exact hq
    · rintro rfl
      exact hdir hq
  refine ⟨hkeep [] h.root, fun q n node hnode => hkeep q ?_⟩
  by_cases hq : q ++ [n] = p
  · rw [← hq, set_self] at hnode
    cases hnode
  · rw [set_of_ne t _ hq] at hnode
    exact h.parent q n node hnode

theorem WellFormed.set_file (h : t.WellFormed) {c : C} (hdir : t p ≠ some .dir)
    (hparent : t p.dropLast = some .dir) : (t.set p (some (.file c))).WellFormed := by
  have hkeep : ∀ q, t q = some .dir → t.set p (some (.file c)) q = some .dir := by
    intro q hq
    rw [set_of_ne]
    · exact hq
    · rintro rfl
      exact hdir hq
  refine ⟨hkeep [] h.root, fun q n node hnode => hkeep q ?_⟩
  by_cases hq : q ++ [n] = p
  · rwa [← hq, List.dropLast_concat] at hparent
  · rw [set_of_ne t _ hq] at hnode
    exact h.parent q n node hnode

theorem WellFormed.write (h : t.WellFormed) {c : C} (hwrite : write t p c = .ok t') :
    t'.WellFormed := by
  have hfind : find t p.dropLast = .ok .dir := by
    unfold FileTree.write at hwrite
    split at hwrite
    · cases hwrite
    · cases hwrite
    · assumption
  obtain ⟨hdir, rfl⟩ := write_eq_ok hwrite
  exact h.set_file hdir ((find_eq_ok_iff h).mp hfind)

theorem WellFormed.rename (h : t.WellFormed) (hpq : p ≠ q.dropLast)
    (hrename : rename t p q = .ok t') : t'.WellFormed := by
  have hfind : find t q.dropLast = .ok .dir := by
    unfold FileTree.rename at hrename
    split at hrename
    · cases hrename
    · cases hrename
    · cases hrename
    · assumption
  obtain ⟨c, hread, hdir, rfl⟩ := rename_eq_ok hrename
  have hp : t p ≠ some .dir := by
    rw [eq_of_read_eq_ok hread]
    intro heq
    cases heq
  refine (h.set_none hp).set_file ?_ ?_
  · by_cases hq : q = p
    · rw [hq, set_self]
      intro heq
      cases heq
    · rwa [set_of_ne t _ hq]
  · rw [set_of_ne t _ hpq.symm]
    exact (find_eq_ok_iff h).mp hfind

theorem WellFormed.mkdirs (h : t.WellFormed) (hmkdirs : mkdirs t p = .ok t') :
    t'.WellFormed := by
  obtain ⟨-, rfl⟩ := mkdirs_eq_ok hmkdirs
  refine ⟨if_pos List.nil_prefix, fun q n node hnode => ?_⟩
  by_cases hq : q <+: p
  · exact if_pos hq
  · rw [if_neg fun hconcat => hq ((List.prefix_append q [n]).trans hconcat)] at hnode
    exact (if_neg hq).trans (h.parent q n node hnode)

theorem WellFormed.remove_below (h : t.WellFormed) (hp : p ≠ []) :
    WellFormed (fun q => if p <+: q then none else t q) := by
  refine ⟨?_, fun q n node hnode => ?_⟩
  · rw [if_neg fun hnil => hp (List.prefix_nil.mp hnil)]
    exact h.root
  · by_cases hq : p <+: q ++ [n]
    · rw [if_pos hq] at hnode
      cases hnode
    · rw [if_neg hq] at hnode
      rw [if_neg fun hq' => hq (hq'.trans (List.prefix_append q [n]))]
      exact h.parent q n node hnode

end Operations

end FileTree

end Stroem.Foundation
