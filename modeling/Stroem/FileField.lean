import Stroem.Foundation.Text

/-!
# Safe file names

`safe_name` reduces the name of an uploaded file to one path component.  Positions are counted in
characters: once the characters are replaced, every one of them is one byte long.
-/

namespace Stroem.FileField

open Foundation

def maxSafeNameBytes : Nat := 128

def maxKeptExtensionBytes : Nat := 32

def isSlash (c : Char) : Bool := c = '/' || c = '\\'

def baseOf (original : String) : List Char := lastPart isSlash original.toList

def unusable (base : List Char) : Bool := base = [] || base = ['.'] || base = ['.', '.']

def isSafeChar (c : Char) : Bool := c.isAlphanum || c = '.' || c = '_' || c = '-'

def safeChar (c : Char) : Char := if isSafeChar c then c else '_'

def replaceFirst : List Char → List Char
  | [] => []
  | c :: name => if c = '.' ∨ c = '-' then '_' :: name else c :: name

def shorten (name : List Char) : List Char :=
  if name.length > maxSafeNameBytes then
    match rfind '.' name with
    | some pos =>
      if pos > 0 ∧ name.length - pos ≤ maxKeptExtensionBytes then
        let ext := name.drop pos
        name.take (maxSafeNameBytes - ext.length) ++ ext
      else name.take maxSafeNameBytes
    | none => name.take maxSafeNameBytes
  else name

def safeName (original : String) : Option String :=
  let base := baseOf original
  if unusable base then none
  else some (String.ofList (shorten (replaceFirst (base.map safeChar))))

/-! ## Replacing -/

theorem safeChar_safe (c : Char) : isSafeChar (safeChar c) = true := by
  unfold safeChar
  split
  · assumption
  · decide

theorem safeChar_of_safe {c : Char} (h : isSafeChar c = true) : safeChar c = c :=
  if_pos h

theorem not_slash_of_safe {c : Char} (h : isSafeChar c = true) : isSlash c = false := by
  rw [isSlash, Bool.or_eq_false_iff, decide_eq_false_iff_not, decide_eq_false_iff_not]
  constructor
  · rintro rfl
    exact absurd h (by decide)
  · rintro rfl
    exact absurd h (by decide)

theorem ascii_of_safe {c : Char} (h : isSafeChar c = true) : c.toNat < 128 := by
  simp only [isSafeChar, Bool.or_eq_true, decide_eq_true_eq, isAlphanum_iff] at h
  obtain ((hletterOrDigit | rfl) | rfl) | rfl := h
  · omega
  · decide
  · decide
  · decide

theorem safeChar_eq_dot {c : Char} (h : safeChar c = '.') : c = '.' := by
  unfold safeChar at h
  split at h
  · exact h
  · cases h

structure SafeText (name : List Char) : Prop where
  nonempty : name ≠ []
  safe : ∀ c ∈ name, isSafeChar c = true
  first : ∀ c, name.head? = some c → c ≠ '.' ∧ c ≠ '-'

theorem safeText_replaceFirst {base : List Char} (hne : base ≠ []) :
    SafeText (replaceFirst (base.map safeChar)) := by
  cases base with
  | nil => exact absurd rfl hne
  | cons c base =>
    have hrest : ∀ d ∈ base.map safeChar, isSafeChar d = true := by
      intro d hd
      obtain ⟨c', -, rfl⟩ := List.mem_map.mp hd
      exact safeChar_safe c'
    rw [List.map_cons, replaceFirst]
    split
    · refine ⟨List.cons_ne_nil _ _, List.forall_mem_cons.mpr ⟨by decide, hrest⟩, fun d hd => ?_⟩
      cases hd
      decide
    · next hfirst =>
      refine ⟨List.cons_ne_nil _ _, List.forall_mem_cons.mpr ⟨safeChar_safe c, hrest⟩,
        fun d hd => ?_⟩
      cases hd
      exact not_or.mp hfirst

theorem replaceFirst_of_safe {name : List Char} (h : SafeText name) : replaceFirst name = name := by
  cases name with
  | nil => rfl
  | cons c name =>
    obtain ⟨hdot, hdash⟩ := h.first c rfl
    rw [replaceFirst, if_neg (not_or.mpr ⟨hdot, hdash⟩)]

theorem replaceFirst_append {stem rest : List Char} (hne : stem ≠ []) :
    ∃ stem', replaceFirst (stem ++ rest) = stem' ++ rest := by
  cases stem with
  | nil => exact absurd rfl hne
  | cons c stem =>
    rw [List.cons_append, replaceFirst]
    split
    · exact ⟨'_' :: stem, rfl⟩
    · exact ⟨c :: stem, rfl⟩

/-! ## Cutting -/

theorem length_shorten (name : List Char) : (shorten name).length ≤ maxSafeNameBytes := by
  have htake : (name.take maxSafeNameBytes).length ≤ maxSafeNameBytes := List.length_take_le _ _
  unfold shorten
  split
  · split
    · split
      · next pos _ hshort =>
        obtain ⟨-, hext⟩ := hshort
        have hcap : maxKeptExtensionBytes ≤ maxSafeNameBytes := by decide
        simp only [List.length_append, List.length_take, List.length_drop]
        omega
      · exact htake
    · exact htake
  · next hle => exact Nat.le_of_not_lt hle

theorem shorten_of_short {name : List Char} (h : name.length ≤ maxSafeNameBytes) :
    shorten name = name :=
  if_neg (Nat.not_lt_of_le h)

theorem head_shorten (name : List Char) : (shorten name).head? = name.head? := by
  cases name with
  | nil => rfl
  | cons c name =>
    have htake : ∀ n, 0 < n → ((c :: name).take n).head? = some c := by
      intro n hn
      rw [List.head?_take, if_neg (Nat.ne_of_gt hn)]
      rfl
    unfold shorten
    split
    · split
      · split
        · next pos _ hshort =>
          have hcut : 0 < maxSafeNameBytes - ((c :: name).drop pos).length := by
            have hcap : maxKeptExtensionBytes < maxSafeNameBytes := by decide
            have hext := hshort.2
            rw [List.length_drop]
            omega
          dsimp only
          rw [List.head?_append, htake _ hcut]
          rfl
        · exact htake _ (by decide)
      · exact htake _ (by decide)
    · rfl

theorem mem_of_mem_shorten {name : List Char} {c : Char} (h : c ∈ shorten name) : c ∈ name := by
  unfold shorten at h
  split at h
  · split at h
    · split at h
      · obtain h | h := List.mem_append.mp h
        · exact List.mem_of_mem_take h
        · exact List.mem_of_mem_drop h
      · exact List.mem_of_mem_take h
    · exact List.mem_of_mem_take h
  · exact h

theorem SafeText.shorten {name : List Char} (h : SafeText name) : SafeText (shorten name) := by
  refine ⟨fun hnil => ?_, fun c hc => h.safe c (mem_of_mem_shorten hc), fun c hc => ?_⟩
  · have hhead := head_shorten name
    rw [hnil] at hhead
    exact h.nonempty (List.head?_eq_none_iff.mp hhead.symm)
  · exact h.first c (head_shorten name ▸ hc)

theorem shorten_keeps_extension {stem ext : List Char} (hext : '.' ∉ ext)
    (hshort : ext.length + 1 ≤ maxKeptExtensionBytes) :
    '.' :: ext <:+ shorten (stem ++ '.' :: ext) := by
  unfold shorten
  split
  · next hlong =>
    rw [rfind_append hext]
    have hlong' : stem.length + (ext.length + 1) > maxSafeNameBytes := by
      simpa using hlong
    have hcap : maxKeptExtensionBytes ≤ maxSafeNameBytes := by decide
    have hlen : (stem ++ '.' :: ext).length - stem.length = ext.length + 1 := by
      simp
    dsimp only
    rw [if_pos ⟨by omega, by omega⟩, List.drop_left]
    exact List.suffix_append _ _
  · exact List.suffix_append _ _

/-! ## Safe names -/

theorem safeName_eq_none_iff {original : String} :
    safeName original = none ↔
      baseOf original = [] ∨ baseOf original = ['.'] ∨ baseOf original = ['.', '.'] := by
  unfold safeName
  dsimp only
  split
  · next hunusable => simpa [unusable, or_assoc] using hunusable
  · next hunusable => simpa [unusable, or_assoc] using hunusable

theorem safeName_of_safeText {name : List Char} (h : SafeText name)
    (hshort : name.length ≤ maxSafeNameBytes) :
    safeName (String.ofList name) = some (String.ofList name) := by
  have hbase : baseOf (String.ofList name) = name := by
    rw [baseOf, String.toList_ofList]
    exact lastPart_eq fun c hc => not_slash_of_safe (h.safe c hc)
  have hmap : name.map safeChar = name := by
    refine (List.map_congr_left fun c hc => safeChar_of_safe (h.safe c hc)).trans ?_
    exact List.map_id' name
  have husable : unusable name = false := by
    cases name with
    | nil => exact absurd rfl h.nonempty
    | cons c name =>
      have hdot := (h.first c rfl).1
      simp [unusable, hdot]
  rw [safeName, hbase, husable, hmap, replaceFirst_of_safe h, shorten_of_short hshort]
  rfl

/--
A safe name is usable as one component of a path and is the safe name of itself.  A name that is
cut keeps its extension, which is counted with its dot.
-/
theorem safeName_spec (original : String) :
    (safeName original = none ↔
      baseOf original = [] ∨ baseOf original = ['.'] ∨ baseOf original = ['.', '.']) ∧
    ∀ n, safeName original = some n →
      n ≠ "" ∧ n.utf8ByteSize ≤ maxSafeNameBytes ∧ (∀ c ∈ n.toList, isSafeChar c = true) ∧
      n ≠ "." ∧ n ≠ ".." ∧ (∀ c, n.toList.head? = some c → c ≠ '.' ∧ c ≠ '-') ∧
      safeName n = some n ∧
      ∀ stem ext, baseOf original = stem ++ '.' :: ext → '.' ∉ ext →
        ext.length + 1 ≤ maxKeptExtensionBytes →
        maxSafeNameBytes < (baseOf original).length →
        ('.' :: ext).map safeChar <:+ n.toList := by
  refine ⟨safeName_eq_none_iff, fun n hn => ?_⟩
  have hsome :
      ¬(baseOf original = [] ∨ baseOf original = ['.'] ∨ baseOf original = ['.', '.']) := by
    rw [← safeName_eq_none_iff, hn]
    exact Option.some_ne_none n
  have hname : n = String.ofList (shorten (replaceFirst ((baseOf original).map safeChar))) := by
    unfold safeName at hn
    dsimp only at hn
    split at hn
    · cases hn
    · exact (Option.some.inj hn).symm
  have hbase : baseOf original ≠ [] := fun hnil => hsome (.inl hnil)
  have hsafe := (safeText_replaceFirst hbase).shorten
  have hlength := length_shorten (replaceFirst ((baseOf original).map safeChar))
  have hself := safeName_of_safeText hsafe hlength
  have hbytes := utf8ByteSize_of_ascii fun c hc => ascii_of_safe (hsafe.safe c hc)
  rw [← hname] at hself hbytes
  have htext : n.toList = shorten (replaceFirst ((baseOf original).map safeChar)) := by
    rw [hname, String.toList_ofList]
  refine ⟨?_, hbytes ▸ hlength, ?_, ?_, ?_, ?_, hself, ?_⟩
  · rintro rfl
    exact hsafe.nonempty htext.symm
  · rw [htext]
    exact hsafe.safe
  · rintro rfl
    exact (hsafe.first '.' (by rw [← htext]; rfl)).1 rfl
  · rintro rfl
    exact (hsafe.first '.' (by rw [← htext]; rfl)).1 rfl
  · rw [htext]
    exact hsafe.first
  · intro stem ext hsplit hext hshort hlong
    have hstem : stem.map safeChar ≠ [] := by
      intro hnil
      have hcap : maxKeptExtensionBytes ≤ maxSafeNameBytes := by decide
      rw [hsplit, List.map_eq_nil_iff.mp hnil, List.nil_append, List.length_cons] at hlong
      omega
    have hext' : '.' ∉ ext.map safeChar := by
      intro hmem
      obtain ⟨c, hc, hdot⟩ := List.mem_map.mp hmem
      exact hext (safeChar_eq_dot hdot ▸ hc)
    obtain ⟨stem', hstem'⟩ :=
      @replaceFirst_append (stem.map safeChar) ('.' :: ext.map safeChar) hstem
    have hmap : (baseOf original).map safeChar = stem.map safeChar ++ '.' :: ext.map safeChar := by
      rw [hsplit, List.map_append]
      rfl
    rw [htext, hmap, hstem']
    exact shorten_keeps_extension hext' (by rwa [List.length_map])

theorem safeName_spec_long :
    safeName (String.ofList ("../../-".toList ++ List.replicate 140 'ä' ++ ".csv".toList)) =
      some (String.ofList (List.replicate 124 '_' ++ ".csv".toList)) ∧
    ".csv".toList <:+ (String.ofList (List.replicate 124 '_' ++ ".csv".toList)).toList := by
  have hbase : baseOf (String.ofList ("../../-".toList ++ List.replicate 140 'ä' ++ ".csv".toList))
      = '-' :: List.replicate 140 'ä' ++ ['.', 'c', 's', 'v'] := by
    rw [baseOf, String.toList_ofList]
    decide +kernel
  have hname : safeName (String.ofList
      ("../../-".toList ++ List.replicate 140 'ä' ++ ".csv".toList)) =
        some (String.ofList (List.replicate 124 '_' ++ ".csv".toList)) := by
    have hshorten : shorten (replaceFirst
        (('-' :: List.replicate 140 'ä' ++ ['.', 'c', 's', 'v']).map safeChar)) =
          List.replicate 124 '_' ++ ".csv".toList := by decide +kernel
    rw [safeName, hbase, hshorten]
    rfl
  obtain ⟨-, -, -, -, -, -, -, hext⟩ := (safeName_spec _).2 _ hname
  refine ⟨hname, hext ('-' :: List.replicate 140 'ä') ['c', 's', 'v'] hbase ?_ ?_ ?_⟩
  · decide
  · decide
  · rw [hbase]
    decide +kernel

end Stroem.FileField
