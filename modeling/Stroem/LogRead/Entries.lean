import Stroem.LogRead.Union

/-!
# Log entries and their step

A log entry as the server writes it, and the filter that finds the entries of a step again.  The
filter looks for the name of the step in the text of the line before it reads the line as JSON, so
a name that JSON has to escape is found only where its bytes happen to stand.
-/

namespace Stroem.LogRead

open Stroem.Foundation
open Stroem.Foundation.JsonText

/-! ## Entries -/

structure LogEntry where
  ts : Bytes
  stream : Bytes
  step : Bytes
  line : Bytes
  deriving DecidableEq

def streamName : Bytes := [115, 116, 114, 101, 97, 109]

def lineName : Bytes := [108, 105, 110, 101]

def serverStep : Bytes := [95, 115, 101, 114, 118, 101, 114]

def stderrName : Bytes := [115, 116, 100, 101, 114, 114]

def LogEntry.declared (entry : LogEntry) : List (Bytes × Value) :=
  [(tsName, .str entry.ts), (streamName, .str entry.stream), (stepKey, .str entry.step),
    (lineName, .str entry.line)]

def LogEntry.sorted (entry : LogEntry) : List (Bytes × Value) :=
  [(lineName, .str entry.line), (stepKey, .str entry.step), (streamName, .str entry.stream),
    (tsName, .str entry.ts)]

def appendLog (entries : List LogEntry) : Bytes :=
  [newline].intercalate (entries.map fun entry => write (.obj entry.declared)) ++ [newline]

def serverLog (now message : Bytes) : Bytes :=
  write (.obj (LogEntry.sorted ⟨now, stderrName, serverStep, message⟩)) ++ [newline]

def asStr : Value → Option Bytes
  | .str s => some s
  | .null | .bool _ | .num _ | .arr _ | .obj _ => none

def ReadsBack (json : SerdeJson) (members : List (Bytes × Value)) : Prop :=
  json (write (.obj members)) = some (members.map fun m => (m.1, asStr m.2))

def readerOf (members : List (Bytes × Value)) : SerdeJson := fun text =>
  if text = write (.obj members) then some (members.map fun m => (m.1, asStr m.2)) else none

theorem readsBack_readerOf (members : List (Bytes × Value)) :
    ReadsBack (readerOf members) members :=
  if_pos rfl

/-! ## Lines -/

theorem newline_not_mem_write (v : Value) : newline ∉ write v := fun h =>
  absurd (le_of_mem_write h) (by decide)

theorem appendLog_eq {entries : List LogEntry} (h : entries ≠ []) :
    appendLog entries = joinLines (entries.map fun entry => write (.obj entry.declared)) := by
  unfold appendLog
  induction entries with
  | nil => exact absurd rfl h
  | cons entry entries ih =>
    cases entries with
    | nil => simp [joinLines]
    | cons next entries =>
      have hrest := ih (List.cons_ne_nil _ _)
      rw [List.map_cons, joinLines_cons, ← hrest]
      simp [List.intercalate]

theorem extractTs_entry {entry : LogEntry} (h : Plain entry.ts) :
    extractTs (write (.obj entry.declared)) = some entry.ts ∧
      extractTs (write (.obj entry.sorted)) = some entry.ts := by
  refine ⟨@extractTs_write _ h [] _ fun _ hkey => absurd hkey List.not_mem_nil,
    @extractTs_write _ h [(lineName, .str entry.line), (stepKey, .str entry.step),
      (streamName, .str entry.stream)] [] ?_⟩
  have hkeys : keysMembers [(lineName, .str entry.line), (stepKey, .str entry.step),
      (streamName, .str entry.stream)] = [lineName, stepKey, streamName] := rfl
  rw [hkeys]
  decide

/-! ## The step filter -/

theorem infix_write_obj {members : List (Bytes × Value)} {key value : Bytes}
    (hmem : (key, .str value) ∈ members) (hvalue : Plain value) :
    value <:+: write (.obj members) := by
  obtain ⟨before, after, rfl⟩ := List.append_of_mem hmem
  refine ⟨123 :: writeMembers true before ++
      (separator (true && before.isEmpty) ++ quoted key ++ [colon, quote]),
    quote :: writeMembers false after ++ [125], ?_⟩
  have hquoted : quoted value = quote :: value ++ [quote] := by
    rw [quoted, hvalue.escaped_eq]
  rw [write, writeMembers_append, writeMembers, write, hquoted]
  simp

theorem visitMap_entry (entry : LogEntry) {members : List (Bytes × Value)}
    (hmembers : members = entry.declared ∨ members = entry.sorted) (stepName : Bytes) :
    visitMap (members.map fun m => (m.1, asStr m.2)) stepName =
      decide (entry.step = stepName) := by
  have hts : tsName ≠ stepKey := by decide
  have hstream : streamName ≠ stepKey := by decide
  have hline : lineName ≠ stepKey := by decide
  obtain rfl | rfl := hmembers
  · simp [visitMap, LogEntry.declared, asStr, hts, hstream, hline]
  · simp [visitMap, LogEntry.sorted, asStr, hts, hstream, hline]

theorem mem_entry_step (entry : LogEntry) {members : List (Bytes × Value)}
    (hmembers : members = entry.declared ∨ members = entry.sorted) :
    (stepKey, .str entry.step) ∈ members := by
  obtain rfl | rfl := hmembers
  · simp [LogEntry.declared]
  · simp [LogEntry.sorted]

/--
An entry is attributed to its own step and to no other, provided the name of the step stands in
the line as it is.
-/
theorem lineMatchesStep_entry (json : SerdeJson) (entry : LogEntry) (stepName : Bytes)
    {members : List (Bytes × Value)}
    (hmembers : members = entry.declared ∨ members = entry.sorted)
    (hjson : ReadsBack json members) :
    (lineMatchesStep json (write (.obj members)) stepName = true ↔
      entry.step = stepName ∧ stepName <:+: write (.obj members)) ∧
    (Plain stepName →
      (lineMatchesStep json (write (.obj members)) stepName = true ↔ entry.step = stepName)) ∧
    ((∃ b ∈ stepName, b < 32) →
      lineMatchesStep json (write (.obj members)) stepName = false) := by
  have hiff : lineMatchesStep json (write (.obj members)) stepName = true ↔
      entry.step = stepName ∧ stepName <:+: write (.obj members) := by
    unfold lineMatchesStep
    rw [hjson]
    dsimp only
    rw [visitMap_entry entry hmembers]
    split
    · rename_i h
      simp [h]
    · rename_i h
      simp [h]
  refine ⟨hiff, fun hplain => ?_, ?_⟩
  · rw [hiff]
    refine ⟨And.left, fun h => ⟨h, ?_⟩⟩
    rw [← h]
    exact infix_write_obj (mem_entry_step entry hmembers) (h ▸ hplain)
  · rintro ⟨b, hb, hlow⟩
    rw [Bool.eq_false_iff, ne_eq, hiff]
    rintro ⟨-, hwithin⟩
    exact absurd (le_of_mem_write (hwithin.subset hb)) (UInt8.not_le.mpr hlow)

def nestedEntry : LogEntry :=
  ⟨[50, 48, 50, 54], stderrName, [97], [34, 115, 116, 101, 112, 34, 58, 34, 98, 34]⟩

theorem lineMatchesStep_entry_nested :
    (lineMatchesStep (readerOf nestedEntry.declared) (write (.obj nestedEntry.declared)) [97] =
      true ↔ nestedEntry.step = [97]) ∧
    (lineMatchesStep (readerOf nestedEntry.declared) (write (.obj nestedEntry.declared)) [98] =
      true ↔ nestedEntry.step = [98]) :=
  ⟨(lineMatchesStep_entry _ nestedEntry [97] (.inl rfl) (readsBack_readerOf _)).2.1
      (by decide +kernel),
    (lineMatchesStep_entry _ nestedEntry [98] (.inl rfl) (readsBack_readerOf _)).2.1
      (by decide +kernel)⟩

def quotedEntry : LogEntry := ⟨[50, 48, 50, 54], stderrName, [97, 34, 98], [104, 105]⟩

/-- Its line has `a\"b`, so the search for `a"b` fails. -/
theorem quotedName_not_found :
    ReadsBack (readerOf quotedEntry.declared) quotedEntry.declared ∧
    ¬ (lineMatchesStep (readerOf quotedEntry.declared) (write (.obj quotedEntry.declared))
        quotedEntry.step = true ↔ quotedEntry.step = quotedEntry.step) :=
  ⟨readsBack_readerOf _, by decide +kernel⟩

end Stroem.LogRead
