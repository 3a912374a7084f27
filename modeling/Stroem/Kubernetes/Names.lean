import Mathlib.Data.List.Infix
import Stroem.Foundation.Label

/-!
# The names of pods

A step's pod is named after the job, the task and the step.  A name within the limit is the three
of them in the alphabet of DNS labels; a longer one is cut and ends in a hash of the three.
-/

namespace Stroem.Kubernetes

open Stroem.Foundation

variable {c : Char}

def k8sNameMax : Nat := 63

/-! ## Hash -/

def fnv1a32 (bytes : List UInt8) : UInt32 :=
  bytes.foldl (fun h b => (h ^^^ b.toUInt32) * 0x01000193) 0x811c9dc5

def hashInput (jobId taskName stepName : String) : List UInt8 :=
  (jobId ++ "\x00" ++ taskName ++ "\x00" ++ stepName).toUTF8.data.toList

/-! ## Sanitized texts -/

/-- `char::to_lowercase`, where the result is made of ASCII; what it makes of the other characters
outside ASCII is outside ASCII. -/
def lowerChar (c : Char) : List Char :=
  if c = '\u0130' then ['i', '\u0307']
  else if c = '\u212a' then ['k']
  else [c.toLower]

def dashed (c : Char) : Char := if c.isAlphanum then c else '-'

def pushCollapsed (collapsed : List Char) (c : Char) : List Char :=
  if c = '-' ∧ collapsed.getLast? = some '-' then collapsed else collapsed ++ [c]

def sanitizeK8sName (s : String) : String :=
  let sanitized := (s.toList.flatMap lowerChar).map dashed
  let collapsed := sanitized.foldl pushCollapsed []
  String.ofList (trimBy (· = '-') collapsed)

def labelChar (c : Char) : Char :=
  if c.isAlphanum ∨ c = '-' ∨ c = '_' ∨ c = '.' then c else '-'

def sanitizeLabelValue (s : String) : String :=
  let capped := ((s.toList.map labelChar).dropWhile fun c => !c.isAlphanum).take k8sNameMax
  String.ofList (capped.rdropWhile fun c => !c.isAlphanum)

/-! ## Names and labels -/

def fullName (jobId stepName taskName : String) : String :=
  let jobShort := String.ofList (jobId.toList.take 8)
  let taskSanitized := sanitizeK8sName taskName
  let stepSanitized := sanitizeK8sName stepName
  if taskSanitized = "" then "stroem-" ++ jobShort ++ "-" ++ stepSanitized
  else "stroem-" ++ jobShort ++ "-" ++ taskSanitized ++ "-" ++ stepSanitized

def hashDigits (jobId taskName stepName : String) : List Char :=
  hexDigits 8 (fnv1a32 (hashInput jobId taskName stepName)).toNat

def podName (jobId stepName taskName : String) : String :=
  let name := fullName jobId stepName taskName
  if name.utf8ByteSize ≤ k8sNameMax then String.ofList (name.toList.rdropWhile (· = '-'))
  else
    let suffix := "-" ++ String.ofList (hashDigits jobId taskName stepName)
    let head := name.toList.take (k8sNameMax - suffix.utf8ByteSize)
    String.ofList (head.rdropWhile (· = '-')) ++ suffix

def stepLabels (jobId taskName stepName : String) : List (String × String) :=
  let taskLabel := sanitizeLabelValue (sanitizeK8sName taskName)
  [("app", "stroem-step"),
    ("stroem.io/job-id", sanitizeLabelValue jobId),
    ("stroem.io/step", sanitizeLabelValue stepName)] ++
    if taskLabel = "" then [] else [("stroem.io/task", taskLabel)]

/-! ## What Kubernetes accepts -/

def isDnsAlnum (c : Char) : Bool := c.isLower || c.isDigit

def isDnsChar (c : Char) : Bool := isDnsAlnum c || c == '-'

def isLabelChar (c : Char) : Bool := c.isAlphanum || c == '-' || c == '_' || c == '.'

def DnsLabel (name : String) : Prop :=
  name ≠ "" ∧ Bounded isDnsChar isDnsAlnum k8sNameMax name.toList

def LabelValue (value : String) : Prop :=
  Bounded isLabelChar Char.isAlphanum k8sNameMax value.toList

/-! ## Characters -/

theorem isLower_iff : c.isLower = true ↔ 97 ≤ c.toNat ∧ c.toNat ≤ 122 := by
  change (decide (97 ≤ c.val) && decide (c.val ≤ 122)) = true ↔ _
  rw [Bool.and_eq_true, decide_eq_true_eq, decide_eq_true_eq]
  exact Iff.rfl

theorem isDnsAlnum_iff : isDnsAlnum c = true ↔
    (97 ≤ c.toNat ∧ c.toNat ≤ 122) ∨ (48 ≤ c.toNat ∧ c.toNat ≤ 57) := by
  rw [isDnsAlnum, Bool.or_eq_true, isLower_iff, isDigit_iff]

theorem isDnsChar_iff : isDnsChar c = true ↔ isDnsAlnum c = true ∨ c = '-' := by
  rw [isDnsChar, Bool.or_eq_true, beq_iff_eq]

theorem isAlphanum_of_isDnsAlnum (h : isDnsAlnum c = true) : c.isAlphanum = true := by
  rw [isDnsAlnum_iff] at h
  rw [isAlphanum_iff]
  omega

theorem toNat_lt_of_isDnsChar (h : isDnsChar c = true) : c.toNat < 128 := by
  obtain h | rfl := isDnsChar_iff.mp h
  · rw [isDnsAlnum_iff] at h
    omega
  · decide

theorem isDnsAlnum_digitChar {digit : Nat} (h : digit < 16) :
    isDnsAlnum digit.digitChar = true := by
  have hall : ∀ digit < 16, isDnsAlnum (Nat.digitChar digit) = true := by decide
  exact hall digit h

theorem isDnsAlnum_of_mem_hexDigits {width n : Nat} (h : c ∈ hexDigits width n) :
    isDnsAlnum c = true := by
  obtain ⟨digit, hdigit, rfl⟩ := mem_hexDigits h
  exact isDnsAlnum_digitChar hdigit

theorem dash_not_isDnsAlnum : isDnsAlnum '-' = false := by decide

theorem toNat_toLower (c : Char) :
    c.toLower.toNat = if 65 ≤ c.toNat ∧ c.toNat ≤ 90 then c.toNat + 32 else c.toNat := by
  have hcapital : (c.val ≥ 'A'.val ∧ c.val ≤ 'Z'.val) ↔ 65 ≤ c.toNat ∧ c.toNat ≤ 90 := Iff.rfl
  unfold Char.toLower
  split
  · next h =>
      rw [if_pos (hcapital.mp h)]
      have hle := (hcapital.mp h).2
      change (c.val + 32).toNat = c.val.toNat + 32
      rw [UInt32.toNat_add]
      have hval : c.val.toNat ≤ 90 := hle
      exact Nat.mod_eq_of_lt (by simp only [UInt32.reduceToNat]; omega)
  · next h => rw [if_neg fun hc => h (hcapital.mpr hc)]

theorem isDnsAlnum_toLower (h : c.toLower.isAlphanum = true) :
    isDnsAlnum c.toLower = true := by
  rw [isAlphanum_iff, toNat_toLower] at h
  rw [isDnsAlnum_iff, toNat_toLower]
  split at h
  · next hc =>
      rw [if_pos hc]
      omega
  · next hc =>
      rw [if_neg hc]
      omega

theorem isDnsChar_dashed {d : Char} (h : d ∈ lowerChar c) : isDnsChar (dashed d) = true := by
  unfold dashed
  split
  · next halnum =>
      refine isDnsChar_iff.mpr (.inl ?_)
      unfold lowerChar at h
      split at h
      · obtain rfl | h := List.mem_cons.mp h
        · decide
        · obtain rfl := List.mem_singleton.mp h
          exact absurd halnum (by decide)
      · split at h
        · obtain rfl := List.mem_singleton.mp h
          decide
        · obtain rfl := List.mem_singleton.mp h
          exact isDnsAlnum_toLower halnum
  · decide

theorem lowerChar_eq (h : isDnsChar c = true) : lowerChar c = [c] := by
  have hlt := toNat_lt_of_isDnsChar h
  unfold lowerChar
  rw [if_neg, if_neg]
  · congr 1
    apply Char.toNat_inj.mp
    rw [toNat_toLower, if_neg]
    obtain h | rfl := isDnsChar_iff.mp h
    · rw [isDnsAlnum_iff] at h
      omega
    · decide
  · rintro rfl
    exact absurd hlt (by decide)
  · rintro rfl
    exact absurd hlt (by decide)

theorem dashed_eq (h : isDnsChar c = true) : dashed c = c := by
  unfold dashed
  split
  · rfl
  · next halnum =>
      obtain h | rfl := isDnsChar_iff.mp h
      · exact absurd (isAlphanum_of_isDnsAlnum h) halnum
      · rfl

/-! ## Sanitized names -/

theorem pushCollapsed_mem {collapsed : List Char} {d : Char}
    (h : d ∈ pushCollapsed collapsed c) : d ∈ collapsed ∨ d = c := by
  unfold pushCollapsed at h
  split at h
  · exact .inl h
  · rw [List.mem_append, List.mem_singleton] at h
    exact h

theorem foldl_pushCollapsed_mem {text collapsed : List Char} {d : Char}
    (h : d ∈ text.foldl pushCollapsed collapsed) : d ∈ collapsed ∨ d ∈ text := by
  induction text generalizing collapsed with
  | nil => exact .inl h
  | cons c text ih =>
    obtain h | h := ih h
    · obtain h | rfl := pushCollapsed_mem h
      · exact .inl h
      · exact .inr List.mem_cons_self
    · exact .inr (List.mem_cons_of_mem _ h)

theorem mem_of_mem_trimBy {α : Type*} {p : α → Bool} {text : List α} {c : α}
    (h : c ∈ trimBy p text) : c ∈ text :=
  (List.dropWhile_suffix p).subset (mem_of_mem_rdropWhile h)

theorem sanitizeK8sName_isDnsChar {s : String}
    (h : c ∈ (sanitizeK8sName s).toList) : isDnsChar c = true := by
  unfold sanitizeK8sName at h
  rw [String.toList_ofList] at h
  obtain h | h := foldl_pushCollapsed_mem (mem_of_mem_trimBy h)
  · exact absurd h List.not_mem_nil
  · obtain ⟨d, hd, rfl⟩ := List.mem_map.mp h
    obtain ⟨e, -, hd⟩ := List.mem_flatMap.mp hd
    exact isDnsChar_dashed hd

theorem sanitizeK8sName_getLast? {s : String}
    (h : (sanitizeK8sName s).toList.getLast? = some c) : c ≠ '-' := by
  unfold sanitizeK8sName at h
  rw [String.toList_ofList] at h
  exact of_decide_eq_false (getLast?_rdropWhile (p := fun c => decide (c = '-')) h)

theorem foldl_pushCollapsed_eq {text collapsed : List Char}
    (h : ¬ ['-', '-'] <:+: collapsed ++ text) :
    text.foldl pushCollapsed collapsed = collapsed ++ text := by
  induction text generalizing collapsed with
  | nil => exact (List.append_nil _).symm
  | cons c text ih =>
    have hpush : pushCollapsed collapsed c = collapsed ++ [c] := by
      refine if_neg ?_
      rintro ⟨rfl, hlast⟩
      obtain ⟨before, rfl⟩ := List.getLast?_eq_some_iff.mp hlast
      exact h ⟨before, text, by simp⟩
    rw [List.foldl_cons, hpush, ih]
    · simp
    · rw [List.append_assoc, List.singleton_append]
      exact h

theorem sanitizeK8sName_eq {s : String} (h : DnsLabel s) (hdash : ¬ ['-', '-'] <:+: s.toList) :
    sanitizeK8sName s = s := by
  obtain ⟨-, hbounded⟩ := h
  have hlower : s.toList.flatMap lowerChar = s.toList := by
    have hmap := List.flatMap_congr (f := lowerChar) (g := fun c => [c])
      fun c hc => lowerChar_eq (hbounded.inner c hc)
    rw [hmap, List.flatMap_singleton']
  have hdashed : s.toList.map dashed = s.toList := by
    have hmap := List.map_congr_left (f := dashed) (g := id)
      fun c hc => dashed_eq (hbounded.inner c hc)
    rw [hmap, List.map_id]
  have hends : ∀ c, isDnsAlnum c = true → decide (c = '-') = false := by
    rintro c hc
    refine decide_eq_false ?_
    rintro rfl
    rw [dash_not_isDnsAlnum] at hc
    cases hc
  unfold sanitizeK8sName
  dsimp only
  rw [hlower, hdashed, foldl_pushCollapsed_eq (by rw [List.nil_append]; exact hdash),
    List.nil_append, trimBy_eq_self (fun c hc => hends c (hbounded.head c hc))
      (fun c hc => hends c (hbounded.last c hc)), String.ofList_toList]

/-! ## Label values -/

theorem isLabelChar_iff :
    isLabelChar c = true ↔ c.isAlphanum = true ∨ c = '-' ∨ c = '_' ∨ c = '.' := by
  simp only [isLabelChar, Bool.or_eq_true, beq_iff_eq, or_assoc]

theorem isLabelChar_labelChar (c : Char) : isLabelChar (labelChar c) = true := by
  unfold labelChar
  split
  · next h => exact isLabelChar_iff.mpr h
  · decide

theorem sanitizeLabelValue_valid (s : String) : LabelValue (sanitizeLabelValue s) := by
  unfold LabelValue sanitizeLabelValue
  rw [String.toList_ofList]
  refine bounded_trim_take _ _ _ fun c hc => ?_
  obtain ⟨d, -, rfl⟩ := List.mem_map.mp hc
  exact isLabelChar_labelChar d

theorem sanitizeLabelValue_eq {s : String} (h : LabelValue s) : sanitizeLabelValue s = s := by
  have hmap : s.toList.map labelChar = s.toList := by
    have hid := List.map_congr_left (f := labelChar) (g := id)
      fun c hc => if_pos (isLabelChar_iff.mp (h.inner c hc))
    rw [hid, List.map_id]
  unfold sanitizeLabelValue
  dsimp only
  rw [hmap, h.trim_take, String.ofList_toList]

theorem labelValue_of_dnsLabel {s : String} (h : DnsLabel s) : LabelValue s := by
  obtain ⟨-, hbounded⟩ := h
  refine ⟨hbounded.length_le, fun c hc => ?_, fun c hc => ?_, fun c hc => ?_⟩
  · rw [isLabelChar_iff]
    obtain hc | rfl := isDnsChar_iff.mp (hbounded.inner c hc)
    · exact .inl (isAlphanum_of_isDnsAlnum hc)
    · exact .inr (.inl rfl)
  · exact isAlphanum_of_isDnsAlnum (hbounded.head c hc)
  · exact isAlphanum_of_isDnsAlnum (hbounded.last c hc)

theorem stepLabels_valid {jobId taskName stepName : String} {label : String × String}
    (h : label ∈ stepLabels jobId taskName stepName) : LabelValue label.2 := by
  have happ : LabelValue "stroem-step" := by
    rw [← show sanitizeLabelValue "stroem-step" = "stroem-step" by decide]
    exact sanitizeLabelValue_valid _
  unfold stepLabels at h
  dsimp only at h
  rw [List.mem_append] at h
  obtain h | h := h
  · simp only [List.mem_cons, List.not_mem_nil, or_false] at h
    obtain rfl | rfl | rfl := h
    · exact happ
    · exact sanitizeLabelValue_valid _
    · exact sanitizeLabelValue_valid _
  · split at h
    · exact absurd h List.not_mem_nil
    · rw [List.mem_singleton.mp h]
      exact sanitizeLabelValue_valid _

theorem mem_stepLabels_jobId (jobId taskName stepName : String) :
    ("stroem.io/job-id", sanitizeLabelValue jobId) ∈ stepLabels jobId taskName stepName :=
  List.mem_append_left _ (List.mem_cons_of_mem _ List.mem_cons_self)

theorem mem_stepLabels_step (jobId taskName stepName : String) :
    ("stroem.io/step", sanitizeLabelValue stepName) ∈ stepLabels jobId taskName stepName :=
  List.mem_append_left _ (List.mem_cons_of_mem _ (List.mem_cons_of_mem _ List.mem_cons_self))

theorem mem_stepLabels_task {jobId taskName stepName : String} (h : DnsLabel taskName)
    (hdash : ¬ ['-', '-'] <:+: taskName.toList) :
    ("stroem.io/task", taskName) ∈ stepLabels jobId taskName stepName := by
  have hlabel : sanitizeLabelValue (sanitizeK8sName taskName) = taskName := by
    rw [sanitizeK8sName_eq h hdash, sanitizeLabelValue_eq (labelValue_of_dnsLabel h)]
  unfold stepLabels
  dsimp only
  rw [hlabel, if_neg h.1]
  exact List.mem_append_right _ List.mem_cons_self

/-! ## Names of pods -/

def namePrefix (jobId taskName : String) : List Char :=
  "stroem-".toList ++ jobId.toList.take 8 ++
    if sanitizeK8sName taskName = "" then ['-']
    else '-' :: (sanitizeK8sName taskName).toList ++ ['-']

variable {jobId taskName stepName : String}

theorem fullName_toList : (fullName jobId stepName taskName).toList =
    namePrefix jobId taskName ++ (sanitizeK8sName stepName).toList := by
  unfold fullName namePrefix
  dsimp only
  split
  · simp
  · simp

theorem namePrefix_concat (jobId taskName : String) :
    ∃ before, namePrefix jobId taskName = before ++ ['-'] := by
  unfold namePrefix
  split
  · exact ⟨_, rfl⟩
  · exact ⟨"stroem-".toList ++ jobId.toList.take 8 ++ '-' :: (sanitizeK8sName taskName).toList,
      by simp⟩

theorem fullName_head? : (fullName jobId stepName taskName).toList.head? = some 's' := by
  rw [fullName_toList]
  rfl

theorem mem_fullName_jobShort (h : c ∈ jobId.toList.take 8) :
    c ∈ (fullName jobId stepName taskName).toList.take 54 := by
  have hseven : "stroem-".toList.length = 7 := by decide
  have hlength : ("stroem-".toList ++ jobId.toList.take 8).length ≤ 54 := by
    rw [List.length_append, List.length_take, hseven]
    omega
  obtain ⟨after, hafter⟩ : ∃ after, namePrefix jobId taskName =
      "stroem-".toList ++ jobId.toList.take 8 ++ after := ⟨_, rfl⟩
  rw [fullName_toList, hafter, List.append_assoc ("stroem-".toList ++ _), List.take_append,
    List.take_of_length_le hlength]
  exact List.mem_append_left _ (List.mem_append_right _ h)

theorem fullName_isDnsChar (h : ∀ c ∈ jobId.toList.take 8, isDnsChar c = true)
    (hc : c ∈ (fullName jobId stepName taskName).toList) : isDnsChar c = true := by
  have hfixed : ∀ c ∈ "stroem-".toList, isDnsChar c = true := List.all_eq_true.mp (by decide)
  rw [fullName_toList, List.mem_append] at hc
  obtain hc | hc := hc
  · unfold namePrefix at hc
    obtain hc | hc := List.mem_append.mp hc
    · obtain hc | hc := List.mem_append.mp hc
      · exact hfixed c hc
      · exact h c hc
    · split at hc
      · rw [List.mem_singleton.mp hc]
        decide
      · obtain hc | hc := List.mem_append.mp hc
        · obtain rfl | hc := List.mem_cons.mp hc
          · decide
          · exact sanitizeK8sName_isDnsChar hc
        · rw [List.mem_singleton.mp hc]
          decide
  · exact sanitizeK8sName_isDnsChar hc

theorem utf8ByteSize_suffix (jobId taskName stepName : String) :
    ("-" ++ String.ofList (hashDigits jobId taskName stepName)).utf8ByteSize = 9 := by
  have hascii : ∀ c ∈ hashDigits jobId taskName stepName, c.toNat < 128 := fun c hc =>
    toNat_lt_of_isDnsChar (isDnsChar_iff.mpr (.inl (isDnsAlnum_of_mem_hexDigits hc)))
  rw [String.utf8ByteSize_append, utf8ByteSize_of_ascii hascii, hashDigits, length_hexDigits]
  rfl

theorem podName_short (h : (fullName jobId stepName taskName).utf8ByteSize ≤ k8sNameMax) :
    (podName jobId stepName taskName).toList =
      (fullName jobId stepName taskName).toList.rdropWhile (· = '-') := by
  unfold podName
  dsimp only
  rw [if_pos h, String.toList_ofList]

theorem podName_long (h : ¬ (fullName jobId stepName taskName).utf8ByteSize ≤ k8sNameMax) :
    (podName jobId stepName taskName).toList =
      ((fullName jobId stepName taskName).toList.take 54).rdropWhile (· = '-') ++
        '-' :: hashDigits jobId taskName stepName := by
  have hcut : k8sNameMax - 9 = 54 := rfl
  have hsuffix : ("-" ++ String.ofList (hashDigits jobId taskName stepName)).toList =
      '-' :: hashDigits jobId taskName stepName := by
    rw [String.toList_append, String.toList_ofList, String.toList_ofList]
    rfl
  unfold podName
  dsimp only
  rw [if_neg h, utf8ByteSize_suffix, String.toList_append, String.toList_ofList, hsuffix, hcut]

theorem isDnsAlnum_of_isDnsChar (h : isDnsChar c = true)
    (hne : decide (c = '-') = false) : isDnsAlnum c = true :=
  (isDnsChar_iff.mp h).resolve_right (of_decide_eq_false hne)

theorem podName_head? : (podName jobId stepName taskName).toList.head? = some 's' := by
  by_cases hshort : (fullName jobId stepName taskName).utf8ByteSize ≤ k8sNameMax
  · rw [podName_short hshort]
    exact head?_rdropWhile_eq fullName_head? rfl
  · have htake : ((fullName jobId stepName taskName).toList.take 54).head? = some 's' := by
      rw [List.head?_take, fullName_head?]
      rfl
    rw [podName_long hshort, List.head?_append, head?_rdropWhile_eq htake rfl]
    rfl

theorem podName_dnsLabel (h : ∀ c ∈ jobId.toList.take 8, isDnsChar c = true) :
    DnsLabel (podName jobId stepName taskName) := by
  have hname := @podName_head? jobId taskName stepName
  refine ⟨?_, ?_⟩
  · intro hempty
    rw [hempty] at hname
    cases hname
  by_cases hshort : (fullName jobId stepName taskName).utf8ByteSize ≤ k8sNameMax
  · have hsize := @utf8ByteSize_of_ascii (fullName jobId stepName taskName).toList
      fun c hc => toNat_lt_of_isDnsChar (fullName_isDnsChar h hc)
    rw [String.ofList_toList] at hsize
    refine ⟨?_, fun c hc => ?_, fun c hc => ?_, fun c hc => ?_⟩
    · rw [podName_short hshort]
      refine (List.rdropWhile_prefix _ _).length_le.trans ?_
      rw [← hsize]
      exact hshort
    · rw [podName_short hshort] at hc
      exact fullName_isDnsChar h (mem_of_mem_rdropWhile hc)
    · rw [hname] at hc
      rw [← Option.some.inj hc]
      decide
    · rw [podName_short hshort] at hc
      exact isDnsAlnum_of_isDnsChar
        (fullName_isDnsChar h (mem_of_mem_rdropWhile (List.mem_of_getLast? hc)))
        (getLast?_rdropWhile (p := fun c => decide (c = '-')) hc)
  · refine ⟨?_, fun c hc => ?_, fun c hc => ?_, fun c hc => ?_⟩
    · have hcut := (List.rdropWhile_prefix (fun c => decide (c = '-'))
        ((fullName jobId stepName taskName).toList.take 54)).length_le
      rw [List.length_take] at hcut
      rw [podName_long hshort, List.length_append, List.length_cons, hashDigits, length_hexDigits]
      change _ ≤ 63
      omega
    · rw [podName_long hshort, List.mem_append, List.mem_cons] at hc
      obtain hc | rfl | hc := hc
      · exact fullName_isDnsChar h (List.mem_of_mem_take (mem_of_mem_rdropWhile hc))
      · decide
      · exact isDnsChar_iff.mpr (.inl (isDnsAlnum_of_mem_hexDigits hc))
    · rw [hname] at hc
      rw [← Option.some.inj hc]
      decide
    · obtain ⟨digits, digit, hdigits⟩ : ∃ digits digit,
          hashDigits jobId taskName stepName = digits ++ [digit] := ⟨_, _, rfl⟩
      have hmem : digit ∈ hashDigits jobId taskName stepName := by
        rw [hdigits]
        exact List.mem_append_right _ List.mem_cons_self
      rw [podName_long hshort, hdigits, ← List.cons_append, ← List.append_assoc,
        List.getLast?_concat] at hc
      rw [← Option.some.inj hc]
      exact isDnsAlnum_of_mem_hexDigits hmem

theorem isDnsChar_of_podName (h : DnsLabel (podName jobId stepName taskName))
    (hc : c ∈ jobId.toList.take 8) : isDnsChar c = true := by
  have hcut : c ∈ (fullName jobId stepName taskName).toList.take 54 := mem_fullName_jobShort hc
  have hkept : c ∈ (podName jobId stepName taskName).toList ∨ decide (c = '-') = true := by
    by_cases hshort : (fullName jobId stepName taskName).utf8ByteSize ≤ k8sNameMax
    · rw [podName_short hshort]
      exact mem_rdropWhile_or (List.mem_of_mem_take hcut)
    · rw [podName_long hshort]
      obtain hmem | hdash := mem_rdropWhile_or (p := fun c => decide (c = '-')) hcut
      · exact .inl (List.mem_append_left _ hmem)
      · exact .inr hdash
  obtain hmem | hdash := hkept
  · exact h.2.inner c hmem
  · exact isDnsChar_iff.mpr (.inr (of_decide_eq_true hdash))

/-! ## Pods of one job -/

def CollisionFree (bytes bytes' : List UInt8) : Prop :=
  fnv1a32 bytes = fnv1a32 bytes' → bytes = bytes'

def Truncated (jobId taskName stepName : String) : Prop :=
  k8sNameMax < (fullName jobId stepName taskName).utf8ByteSize

def SpellsHash (jobId taskName stepName longStep : String) : Prop :=
  ¬ Truncated jobId taskName stepName ∧ Truncated jobId taskName longStep ∧
    (sanitizeK8sName stepName = "" ∨
      hashDigits jobId taskName longStep <:+ (sanitizeK8sName stepName).toList)

theorem hashInput_inj {stepName stepName' : String}
    (h : hashInput jobId taskName stepName = hashInput jobId taskName stepName') :
    stepName = stepName' := by
  have hbytes := ByteArray.ext (Array.toList_inj.mp h)
  rw [String.toUTF8_eq_toByteArray, String.toUTF8_eq_toByteArray, String.toByteArray_inj] at hbytes
  have htext := congrArg String.toList hbytes
  rw [String.toList_append, @String.toList_append _ stepName'] at htext
  exact String.toList_inj.mp (List.append_cancel_left htext)

theorem hashDigits_inj {stepName stepName' : String}
    (hfree : CollisionFree (hashInput jobId taskName stepName)
      (hashInput jobId taskName stepName'))
    (h : hashDigits jobId taskName stepName = hashDigits jobId taskName stepName') :
    stepName = stepName' := by
  have hsize : ∀ hash : UInt32, hash.toNat < 16 ^ 8 := fun hash => hash.toNat_lt
  exact hashInput_inj (hfree (UInt32.toNat_inj.mp (hexDigits_inj (hsize _) (hsize _) h)))

theorem rdropWhile_fullName (hstep : sanitizeK8sName stepName ≠ "") :
    (fullName jobId stepName taskName).toList.rdropWhile (· = '-') =
      namePrefix jobId taskName ++ (sanitizeK8sName stepName).toList := by
  rw [fullName_toList]
  refine rdropWhile_eq_self fun c hc => decide_eq_false ?_
  have hne : (sanitizeK8sName stepName).toList ≠ [] := fun hnil =>
    hstep (String.toList_eq_nil_iff.mp hnil)
  rw [List.getLast?_append_of_ne_nil _ hne] at hc
  exact sanitizeK8sName_getLast? hc

theorem length_rdropWhile_fullName (hstep : sanitizeK8sName stepName = "") :
    ((fullName jobId stepName taskName).toList.rdropWhile (· = '-')).length <
      (namePrefix jobId taskName).length := by
  obtain ⟨before, hbefore⟩ := namePrefix_concat jobId taskName
  rw [fullName_toList, hstep, String.toList_empty, List.append_nil, hbefore,
    List.rdropWhile_concat_pos _ _ _ (by decide), List.length_append, List.length_singleton]
  exact Nat.lt_succ_of_le (List.rdropWhile_prefix _ _).length_le

theorem podName_short_eq {stepName' : String} (h : ¬ Truncated jobId taskName stepName)
    (h' : ¬ Truncated jobId taskName stepName')
    (heq : podName jobId stepName taskName = podName jobId stepName' taskName) :
    sanitizeK8sName stepName = sanitizeK8sName stepName' := by
  have htext := congrArg String.toList heq
  rw [podName_short (Nat.not_lt.mp h), podName_short (Nat.not_lt.mp h')] at htext
  by_cases hstep : sanitizeK8sName stepName = ""
  · by_cases hstep' : sanitizeK8sName stepName' = ""
    · rw [hstep, hstep']
    · have hlength := @length_rdropWhile_fullName jobId taskName stepName hstep
      rw [htext, rdropWhile_fullName hstep', List.length_append] at hlength
      omega
  · by_cases hstep' : sanitizeK8sName stepName' = ""
    · have hlength := @length_rdropWhile_fullName jobId taskName stepName' hstep'
      rw [← htext, rdropWhile_fullName hstep, List.length_append] at hlength
      omega
    · rw [rdropWhile_fullName hstep, rdropWhile_fullName hstep'] at htext
      exact String.toList_inj.mp (List.append_cancel_left htext)

theorem podName_long_eq {stepName' : String}
    (hfree : CollisionFree (hashInput jobId taskName stepName)
      (hashInput jobId taskName stepName'))
    (h : Truncated jobId taskName stepName) (h' : Truncated jobId taskName stepName')
    (heq : podName jobId stepName taskName = podName jobId stepName' taskName) :
    stepName = stepName' := by
  have htext := congrArg String.toList heq
  rw [podName_long (Nat.not_le.mpr h), podName_long (Nat.not_le.mpr h')] at htext
  have hlength : ∀ step, ('-' :: hashDigits jobId taskName step).length = 9 := fun step => by
    rw [List.length_cons, hashDigits, length_hexDigits]
  have hdigits := List.append_inj_right' htext ((hlength _).trans (hlength _).symm)
  exact hashDigits_inj hfree (List.cons.inj hdigits).2

theorem spellsHash_of_podName_eq {longStep : String} (h : ¬ Truncated jobId taskName stepName)
    (hlong : Truncated jobId taskName longStep)
    (heq : podName jobId stepName taskName = podName jobId longStep taskName) :
    SpellsHash jobId taskName stepName longStep := by
  refine ⟨h, hlong, or_iff_not_imp_left.mpr fun hstep => ?_⟩
  have htext := congrArg String.toList heq
  rw [podName_short (Nat.not_lt.mp h), podName_long (Nat.not_le.mpr hlong),
    rdropWhile_fullName hstep, List.append_cons] at htext
  have hstepSuffix : (sanitizeK8sName stepName).toList <:+
      namePrefix jobId taskName ++ (sanitizeK8sName stepName).toList := List.suffix_append _ _
  have hdigits : hashDigits jobId taskName longStep <:+
      namePrefix jobId taskName ++ (sanitizeK8sName stepName).toList := by
    rw [htext]
    exact List.suffix_append _ _
  by_cases hlength : (hashDigits jobId taskName longStep).length ≤
      (sanitizeK8sName stepName).toList.length
  · exact List.suffix_of_suffix_length_le hdigits hstepSuffix hlength
  · -- the dash before the step would be one of the digits
    obtain ⟨before, hbefore⟩ := namePrefix_concat jobId taskName
    have hdash : '-' :: (sanitizeK8sName stepName).toList <:+
        namePrefix jobId taskName ++ (sanitizeK8sName stepName).toList :=
      ⟨before, by rw [hbefore, List.append_assoc, List.singleton_append]⟩
    have hinside : '-' :: (sanitizeK8sName stepName).toList <:+
        hashDigits jobId taskName longStep :=
      List.suffix_of_suffix_length_le hdash hdigits (Nat.lt_of_not_le hlength)
    have halnum := isDnsAlnum_of_mem_hexDigits (hinside.subset List.mem_cons_self)
    rw [dash_not_isDnsAlnum] at halnum
    cases halnum

theorem podName_eq {stepName' : String} (hne : stepName ≠ stepName')
    (hfree : CollisionFree (hashInput jobId taskName stepName)
      (hashInput jobId taskName stepName'))
    (heq : podName jobId stepName taskName = podName jobId stepName' taskName) :
    (¬ Truncated jobId taskName stepName ∧ ¬ Truncated jobId taskName stepName' ∧
        sanitizeK8sName stepName = sanitizeK8sName stepName') ∨
      SpellsHash jobId taskName stepName stepName' ∨
      SpellsHash jobId taskName stepName' stepName := by
  by_cases h : Truncated jobId taskName stepName
  · by_cases h' : Truncated jobId taskName stepName'
    · exact absurd (podName_long_eq hfree h h' heq) hne
    · exact .inr (.inr (spellsHash_of_podName_eq h' h heq.symm))
  · by_cases h' : Truncated jobId taskName stepName'
    · exact .inr (.inl (spellsHash_of_podName_eq h h' heq))
    · exact .inl ⟨h, h', podName_short_eq h h' heq⟩

/-! ## Identity of pods -/

theorem podIdentity (jobId taskName stepName : String) :
    (DnsLabel (podName jobId stepName taskName) ↔
        ∀ c ∈ jobId.toList.take 8, isDnsChar c = true) ∧
      (∀ label ∈ stepLabels jobId taskName stepName, LabelValue label.2) ∧
      (LabelValue jobId → ("stroem.io/job-id", jobId) ∈ stepLabels jobId taskName stepName) ∧
      (LabelValue stepName → ("stroem.io/step", stepName) ∈ stepLabels jobId taskName stepName) ∧
      (DnsLabel taskName → ¬ ['-', '-'] <:+: taskName.toList →
        ("stroem.io/task", taskName) ∈ stepLabels jobId taskName stepName) ∧
      ∀ stepName', stepName ≠ stepName' →
        CollisionFree (hashInput jobId taskName stepName) (hashInput jobId taskName stepName') →
        podName jobId stepName taskName = podName jobId stepName' taskName →
        (¬ Truncated jobId taskName stepName ∧ ¬ Truncated jobId taskName stepName' ∧
            sanitizeK8sName stepName = sanitizeK8sName stepName') ∨
          SpellsHash jobId taskName stepName stepName' ∨
          SpellsHash jobId taskName stepName' stepName := by
  refine ⟨⟨fun h c => isDnsChar_of_podName h, podName_dnsLabel⟩, fun label => stepLabels_valid,
    fun h => ?_, fun h => ?_, mem_stepLabels_task, fun stepName' => podName_eq⟩
  · have hmem := mem_stepLabels_jobId jobId taskName stepName
    rw [sanitizeLabelValue_eq h] at hmem
    exact hmem
  · have hmem := mem_stepLabels_step jobId taskName stepName
    rw [sanitizeLabelValue_eq h] at hmem
    exact hmem

/-- Capitals in the job's part, and a task that is a label value but no DNS label. -/
theorem capitals_not_dnsLabel :
    ¬ DnsLabel (podName "ABCDEF12" "build" "deploy") ∧
      LabelValue "My_Task" ∧
      ("stroem.io/task", "My_Task") ∉ stepLabels "64cbab91" "My_Task" "build" := by
  refine ⟨fun h => ?_, ?_, by decide +kernel⟩
  · have hcapital := isDnsChar_of_podName h (c := 'A') (by decide)
    exact absurd hcapital (by decide)
  · have hself : sanitizeLabelValue "My_Task" = "My_Task" := by decide +kernel
    rw [← hself]
    exact sanitizeLabelValue_valid _

theorem podIdentity_loop :
    DnsLabel (podName "64cbab91-b444" "ml-traffic-impressions[10]"
        "ai-traffic-model-historical-backfill") ∧
      ("stroem.io/job-id", "64cbab91-b444") ∈ stepLabels "64cbab91-b444" "backfill" "ml" ∧
      ("stroem.io/step", "ml") ∈ stepLabels "64cbab91-b444" "backfill" "ml" ∧
      ("stroem.io/task", "backfill") ∈ stepLabels "64cbab91-b444" "backfill" "ml" ∧
      podName "64cbab91-b444" "ml-traffic-impressions[10]"
          "ai-traffic-model-historical-backfill" ≠
        podName "64cbab91-b444" "ml-traffic-impressions[11]"
          "ai-traffic-model-historical-backfill" := by
  have hvalue : ∀ s, sanitizeLabelValue s = s → LabelValue s := fun s hs => by
    rw [← hs]
    exact sanitizeLabelValue_valid s
  have htask : DnsLabel "backfill" :=
    ⟨by decide, bounded_of_all (by decide) (by decide) (by decide) (by decide)⟩
  refine ⟨(podIdentity _ _ _).1.mpr (List.all_eq_true.mp (by decide +kernel)),
    (podIdentity _ _ _).2.2.1 (hvalue _ (by decide +kernel)),
    (podIdentity _ _ _).2.2.2.1 (hvalue _ (by decide +kernel)),
    (podIdentity _ _ _).2.2.2.2.1 htask (by decide +kernel), fun heq => ?_⟩
  have hfree : CollisionFree
      (hashInput "64cbab91-b444" "ai-traffic-model-historical-backfill"
        "ml-traffic-impressions[10]")
      (hashInput "64cbab91-b444" "ai-traffic-model-historical-backfill"
        "ml-traffic-impressions[11]") := fun h => absurd h (by decide +kernel)
  obtain ⟨hshort, -⟩ | ⟨hshort, -⟩ | ⟨hshort, -⟩ :=
    (podIdentity _ _ _).2.2.2.2.2 _ (by decide) hfree heq
  · exact hshort (by unfold Truncated; decide +kernel)
  · exact hshort (by unfold Truncated; decide +kernel)
  · exact hshort (by unfold Truncated; decide +kernel)

end Stroem.Kubernetes
