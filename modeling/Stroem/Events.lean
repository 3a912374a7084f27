import Stroem.LogRead.Entries

/-!
# Log chunks on the event bus

A replica forwards the log chunks it receives to the other replicas through `pg_notify`, whose
payloads must be shorter than 8000 bytes.  A longer chunk goes in several messages that end between
lines; a line that is too long for one message goes as a signal without its bytes.
-/

namespace Stroem.Events

open Stroem.Foundation.JsonText
open Stroem.LogRead

/-! ## Cutting a chunk -/

def notifyMaxBytes : Nat := 3500

def splitInclusive : Bytes → List Bytes
  | [] => []
  | b :: text =>
    if b = newline then [b] :: splitInclusive text
    else
      match splitInclusive text with
      | [] => [[b]]
      | line :: lines => (b :: line) :: lines

inductive ChunkSegment
  | inline (text : Bytes)
  | signalOnly
  deriving DecidableEq

def pushInline (result : List ChunkSegment) (current : Bytes) : List ChunkSegment :=
  result ++ [.inline current]

def flushInline (result : List ChunkSegment) (current : Bytes) : List ChunkSegment :=
  if current = [] then result else pushInline result current

def splitLoop (maxBytes : Nat) :
    List ChunkSegment → Bytes → List Bytes → List ChunkSegment
  | result, current, [] => flushInline result current
  | result, current, line :: lines =>
    if maxBytes < line.length then
      splitLoop maxBytes (flushInline result current ++ [.signalOnly]) [] lines
    else if maxBytes < current.length + line.length then
      splitLoop maxBytes (pushInline result current) line lines
    else splitLoop maxBytes result (current ++ line) lines

def splitJsonlChunk (chunk : Bytes) (maxBytes : Nat) : List ChunkSegment :=
  splitLoop maxBytes [] [] (splitInclusive chunk)

/-! ## Payloads -/

def uuidByte (b : UInt8) : Bool :=
  decide (48 ≤ b ∧ b ≤ 57) || decide (97 ≤ b ∧ b ≤ 102) || decide (b = 45)

structure Uuid where
  text : Bytes
  length_text : text.length = 36
  bytes : ∀ b ∈ text, uuidByte b = true

structure JobLogChunkPayload where
  replicaId : Uuid
  jobId : Uuid
  chunk : Option Bytes

def replicaIdName : Bytes := [114, 101, 112, 108, 105, 99, 97, 95, 105, 100]

def jobIdName : Bytes := [106, 111, 98, 95, 105, 100]

def chunkName : Bytes := [99, 104, 117, 110, 107]

def JobLogChunkPayload.members (payload : JobLogChunkPayload) : List (Bytes × Value) :=
  [(replicaIdName, .str payload.replicaId.text), (jobIdName, .str payload.jobId.text),
    (chunkName, payload.chunk.elim .null .str)]

def JobLogChunkPayload.json (payload : JobLogChunkPayload) : Bytes :=
  write (.obj payload.members)

/-! ## Publishing -/

structure PublishLogResult where
  failedSegments : Nat := 0
  lastError : Option String := none
  deriving DecidableEq

/-- What `pg_notify` does with a payload. -/
abbrev Notify := Bytes → Except String Unit

structure EventBus where
  pool : Option Notify
  replicaId : Uuid

abbrev Published := List JobLogChunkPayload × PublishLogResult

def publishLogSegment (notify : Notify) (replicaId jobId : Uuid) (published : Published)
    (chunk : Option Bytes) : Published :=
  let payload : JobLogChunkPayload := ⟨replicaId, jobId, chunk⟩
  (published.1 ++ [payload],
    match notify payload.json with
    | .ok () => published.2
    | .error e => ⟨published.2.failedSegments + 1, some e⟩)

def ChunkSegment.chunk : ChunkSegment → Option Bytes
  | .inline text => some text
  | .signalOnly => none

def publishLogChunk (bus : EventBus) (jobId : Uuid) (chunk : Bytes) : Published :=
  match bus.pool with
  | none => ([], {})
  | some notify =>
    if chunk.length ≤ notifyMaxBytes then
      publishLogSegment notify bus.replicaId jobId ([], {}) (some chunk)
    else
      (splitJsonlChunk chunk notifyMaxBytes).foldl
        (fun published segment =>
          publishLogSegment notify bus.replicaId jobId published segment.chunk) ([], {})

/-! ## What is sent -/

theorem splitInclusive_append {line : Bytes} (h : newline ∉ line) (rest : Bytes) :
    splitInclusive (line ++ newline :: rest) = (line ++ [newline]) :: splitInclusive rest := by
  induction line with
  | nil => simp [splitInclusive]
  | cons b line ih =>
    rw [List.mem_cons, not_or] at h
    rw [List.cons_append, splitInclusive, if_neg fun hb => h.1 hb.symm, ih h.2]
    rfl

theorem splitInclusive_joinLines {lines : List Bytes} (h : ∀ line ∈ lines, newline ∉ line) :
    splitInclusive (joinLines lines) = lines.map (· ++ [newline]) := by
  induction lines with
  | nil => rfl
  | cons line lines ih =>
    rw [joinLines_cons, splitInclusive_append (h line List.mem_cons_self),
      ih fun l hl => h l (List.mem_cons_of_mem _ hl), List.map_cons]

/-- What a message delivers: its bytes, or `none` once for a signal. -/
def delivered : Option Bytes → List (Option UInt8)
  | some text => text.map some
  | none => [none]

def deliveredLine (maxBytes : Nat) (line : Bytes) : List (Option UInt8) :=
  if maxBytes < line.length then [none] else line.map some

def EndsLine (text : Bytes) : Prop := text = [] ∨ text.getLast? = some newline

theorem EndsLine.append {line : Bytes} (h : line.getLast? = some newline) (text : Bytes) :
    EndsLine (text ++ line) := by
  refine .inr ?_
  rw [List.getLast?_append, h]
  rfl

def deliveredAll (segments : List ChunkSegment) : List (Option UInt8) :=
  segments.flatMap fun segment => delivered segment.chunk

theorem deliveredAll_pushInline (result : List ChunkSegment) (current : Bytes) :
    deliveredAll (pushInline result current) = deliveredAll result ++ current.map some := by
  simp [deliveredAll, pushInline, ChunkSegment.chunk, delivered]

theorem deliveredAll_flushInline (result : List ChunkSegment) (current : Bytes) :
    deliveredAll (flushInline result current) = deliveredAll result ++ current.map some := by
  unfold flushInline
  split
  · rename_i hnil
    rw [hnil, List.map_nil, List.append_nil]
  · exact deliveredAll_pushInline result current

theorem deliveredAll_signalOnly (result : List ChunkSegment) :
    deliveredAll (result ++ [.signalOnly]) = deliveredAll result ++ [none] := by
  simp [deliveredAll, ChunkSegment.chunk, delivered]

def Sendable (maxBytes : Nat) : ChunkSegment → Prop
  | .inline text => EndsLine text ∧ text.length ≤ maxBytes
  | .signalOnly => True

section Loop

variable {maxBytes : Nat} {result : List ChunkSegment} {current : Bytes}

theorem sendable_pushInline (hresult : ∀ segment ∈ result, Sendable maxBytes segment)
    (hends : EndsLine current) (hfits : current.length ≤ maxBytes) :
    ∀ segment ∈ pushInline result current, Sendable maxBytes segment := by
  intro segment hmem
  obtain hmem | hmem := List.mem_append.mp hmem
  · exact hresult segment hmem
  · rw [List.mem_singleton.mp hmem]
    exact ⟨hends, hfits⟩

theorem sendable_flushInline (hresult : ∀ segment ∈ result, Sendable maxBytes segment)
    (hends : EndsLine current) (hfits : current.length ≤ maxBytes) :
    ∀ segment ∈ flushInline result current, Sendable maxBytes segment := by
  unfold flushInline
  split
  · exact hresult
  · exact sendable_pushInline hresult hends hfits

theorem splitLoop_sendable {lines : List Bytes}
    (hlines : ∀ line ∈ lines, line.getLast? = some newline)
    (hresult : ∀ segment ∈ result, Sendable maxBytes segment)
    (hends : EndsLine current) (hfits : current.length ≤ maxBytes) :
    ∀ segment ∈ splitLoop maxBytes result current lines, Sendable maxBytes segment := by
  induction lines generalizing result current with
  | nil => exact sendable_flushInline hresult hends hfits
  | cons line lines ih =>
    have hline := hlines line List.mem_cons_self
    have htail : ∀ l ∈ lines, l.getLast? = some newline := fun l hl =>
      hlines l (List.mem_cons_of_mem _ hl)
    rw [splitLoop]
    by_cases hlong : maxBytes < line.length
    · rw [if_pos hlong]
      refine ih htail ?_ (.inl rfl) (Nat.zero_le _)
      intro segment hmem
      obtain hmem | hmem := List.mem_append.mp hmem
      · exact sendable_flushInline hresult hends hfits segment hmem
      · rw [List.mem_singleton.mp hmem]
        trivial
    · rw [if_neg hlong]
      by_cases hfull : maxBytes < current.length + line.length
      · rw [if_pos hfull]
        exact ih htail (sendable_pushInline hresult hends hfits) (.inr hline)
          (Nat.le_of_not_lt hlong)
      · rw [if_neg hfull]
        refine ih htail hresult (.append hline current) ?_
        rw [List.length_append]
        omega

theorem splitLoop_delivered (lines : List Bytes) :
    deliveredAll (splitLoop maxBytes result current lines) =
      deliveredAll result ++ current.map some ++ lines.flatMap (deliveredLine maxBytes) := by
  induction lines generalizing result current with
  | nil =>
    rw [splitLoop, deliveredAll_flushInline, List.flatMap_nil, List.append_nil]
  | cons line lines ih =>
    rw [splitLoop, List.flatMap_cons]
    by_cases hlong : maxBytes < line.length
    · rw [if_pos hlong, ih, deliveredAll_signalOnly, deliveredAll_flushInline, deliveredLine,
        if_pos hlong]
      simp
    · rw [if_neg hlong, deliveredLine, if_neg hlong]
      by_cases hfull : maxBytes < current.length + line.length
      · rw [if_pos hfull, ih, deliveredAll_pushInline, List.append_assoc]
      · rw [if_neg hfull, ih, List.map_append]
        simp only [List.append_assoc]

end Loop

/-! ## The size of a payload -/

def logByte (b : UInt8) : Prop := 32 ≤ b ∨ b = newline

theorem length_escapeByte_le {b : UInt8} (h : logByte b) : (escapeByte b).length ≤ 2 := by
  have hb := escape_escapeByte b
  generalize escapeByte b = code at hb ⊢
  cases hb with
  | short d _ => exact Nat.le_refl 2
  | control hlow h10 =>
    obtain hle | hnewline := h
    · exact absurd hlow (UInt8.not_lt.mpr hle)
    · exact absurd hnewline h10
  | plain _ _ _ => exact Nat.le_succ 1

theorem length_escaped_le {text : Bytes} (h : ∀ b ∈ text, logByte b) :
    (escaped text).length ≤ 2 * text.length := by
  unfold escaped
  induction text with
  | nil => exact Nat.le_refl 0
  | cons b text ih =>
    have hb := length_escapeByte_le (h b List.mem_cons_self)
    have htail := ih fun c hc => h c (List.mem_cons_of_mem b hc)
    rw [List.flatMap_cons, List.length_append, List.length_cons]
    omega

theorem Uuid.plain (id : Uuid) : Plain id.text := by
  intro b hb
  have hbyte := id.bytes b hb
  refine escapeByte_eq_self ?_ ?_ ?_
  · rintro rfl
    exact absurd hbyte (by decide)
  · rintro rfl
    exact absurd hbyte (by decide)
  · simp only [uuidByte, Bool.or_eq_true, decide_eq_true_eq] at hbyte
    obtain (hdigit | hletter) | rfl := hbyte
    · exact UInt8.le_trans (by decide) hdigit.1
    · exact UInt8.le_trans (by decide) hletter.1
    · decide

theorem Uuid.length_quoted (id : Uuid) : (quoted id.text).length = 38 := by
  rw [quoted, id.plain.escaped_eq, List.length_append, List.length_cons, id.length_text]
  rfl

theorem JobLogChunkPayload.length_json (payload : JobLogChunkPayload) :
    payload.json.length =
      110 + (write (payload.chunk.elim .null .str)).length := by
  have hreplica : (quoted replicaIdName).length = 12 := by decide
  have hjob : (quoted jobIdName).length = 8 := by decide
  have hchunk : (quoted chunkName).length = 7 := by decide
  simp only [JobLogChunkPayload.json, JobLogChunkPayload.members, write, writeMembers, separator,
    List.length_append, List.length_cons, Uuid.length_quoted, hreplica, hjob, hchunk,
    List.length_nil, if_true, Bool.false_eq_true, if_false]
  omega

theorem length_json_lt {payload : JobLogChunkPayload}
    (hbytes : ∀ text, payload.chunk = some text → ∀ b ∈ text, logByte b)
    (hfits : ∀ text, payload.chunk = some text → text.length ≤ notifyMaxBytes) :
    payload.json.length < 8000 := by
  rw [JobLogChunkPayload.length_json]
  cases h : payload.chunk with
  | none =>
    have hnull : (write .null).length = 4 := rfl
    rw [Option.elim_none, hnull]
    omega
  | some text =>
    have hescaped := length_escaped_le (hbytes text h)
    have hlen := hfits text h
    rw [Option.elim_some, write, quoted, List.length_append, List.length_cons, List.length_cons,
      List.length_nil]
    unfold notifyMaxBytes at hlen
    omega

/-! ## A published chunk -/

theorem publishLogSegment_sent (notify : Notify) (replicaId jobId : Uuid) (published : Published)
    (chunk : Option Bytes) :
    (publishLogSegment notify replicaId jobId published chunk).1 =
      published.1 ++ [⟨replicaId, jobId, chunk⟩] := rfl

theorem publishSegments_sent (notify : Notify) (replicaId jobId : Uuid) (published : Published)
    (segments : List ChunkSegment) :
    (segments.foldl (fun published segment =>
      publishLogSegment notify replicaId jobId published segment.chunk) published).1 =
        published.1 ++ segments.map fun segment => ⟨replicaId, jobId, segment.chunk⟩ := by
  induction segments generalizing published with
  | nil => exact (List.append_nil _).symm
  | cons segment segments ih =>
    rw [List.foldl_cons, ih, publishLogSegment_sent, List.map_cons, List.append_assoc]
    rfl

theorem publishLogChunk_sent (notify : Notify) (replicaId jobId : Uuid) (chunk : Bytes) :
    ∃ segments : List ChunkSegment,
      (publishLogChunk ⟨some notify, replicaId⟩ jobId chunk).1 =
        segments.map (fun segment => ⟨replicaId, jobId, segment.chunk⟩) ∧
      segments = if chunk.length ≤ notifyMaxBytes then [.inline chunk]
        else splitJsonlChunk chunk notifyMaxBytes := by
  refine ⟨_, ?_, rfl⟩
  unfold publishLogChunk
  dsimp only
  by_cases hfits : chunk.length ≤ notifyMaxBytes
  · rw [if_pos hfits, if_pos hfits]
    rfl
  · rw [if_neg hfits, if_neg hfits]
    exact publishSegments_sent notify replicaId jobId ([], {}) _

theorem deliveredLine_of_chunk_fits {lines : List Bytes}
    (h : (joinLines lines).length ≤ notifyMaxBytes) :
    (joinLines lines).map some =
      (lines.map (· ++ [newline])).flatMap (deliveredLine notifyMaxBytes) := by
  induction lines with
  | nil => rfl
  | cons line lines ih =>
    rw [joinLines_cons, List.length_append, List.length_cons] at h
    have hshort : ¬ notifyMaxBytes < (line ++ [newline]).length := by
      rw [List.length_append, List.length_singleton]
      omega
    rw [List.map_cons, List.flatMap_cons, deliveredLine, if_neg hshort, ← ih (by omega),
      joinLines_cons]
    simp

theorem segments_of_written (values : List Value) {segments : List ChunkSegment}
    (h : segments = if (joinLines (values.map write)).length ≤ notifyMaxBytes
      then [.inline (joinLines (values.map write))]
      else splitJsonlChunk (joinLines (values.map write)) notifyMaxBytes) :
    deliveredAll segments =
        (values.map fun v => write v ++ [newline]).flatMap (deliveredLine notifyMaxBytes) ∧
      ∀ segment ∈ segments, Sendable notifyMaxBytes segment := by
  have hmap : (values.map write).map (· ++ [newline]) =
      values.map fun v => write v ++ [newline] := List.map_map
  have hfree : ∀ line ∈ values.map write, newline ∉ line := by
    intro line hline
    obtain ⟨v, -, rfl⟩ := List.mem_map.mp hline
    exact newline_not_mem_write v
  by_cases hfits : (joinLines (values.map write)).length ≤ notifyMaxBytes
  · rw [if_pos hfits] at h
    subst h
    constructor
    · rw [← hmap, ← deliveredLine_of_chunk_fits hfits]
      exact List.flatMap_singleton _ _
    · intro segment hmem
      rw [List.mem_singleton.mp hmem]
      refine ⟨?_, hfits⟩
      obtain hnil | ⟨front, v, hlast⟩ := values.eq_nil_or_concat
      · exact .inl (by rw [hnil]; rfl)
      · refine .inr ?_
        rw [hlast, List.concat_eq_append, List.map_append, joinLines_append]
        simp [joinLines]
  · rw [if_neg hfits] at h
    subst h
    unfold splitJsonlChunk
    rw [splitInclusive_joinLines hfree, hmap]
    constructor
    · rw [splitLoop_delivered]
      rfl
    · refine splitLoop_sendable ?_ (fun _ h => absurd h List.not_mem_nil) (.inl rfl)
        (Nat.zero_le _)
      intro line hline
      obtain ⟨v, -, rfl⟩ := List.mem_map.mp hline
      exact List.getLast?_concat

/--
A chunk of JSON lines crosses the bus intact: its lines in order, each line over the cap as one
signal, and every payload short enough for `pg_notify`.
-/
theorem publishLogChunk_intact (notify : Notify) (replicaId jobId : Uuid) (values : List Value) :
    let sent := (publishLogChunk ⟨some notify, replicaId⟩ jobId (joinLines (values.map write))).1
    sent.flatMap (fun payload => delivered payload.chunk) =
        (values.map fun v => write v ++ [newline]).flatMap (deliveredLine notifyMaxBytes) ∧
      (∀ payload ∈ sent, payload.replicaId = replicaId ∧ payload.jobId = jobId ∧
        ∀ text, payload.chunk = some text → EndsLine text) ∧
      ∀ payload ∈ sent, payload.json.length < 8000 := by
  intro sent
  obtain ⟨segments, hsent, hsegments⟩ :=
    publishLogChunk_sent notify replicaId jobId (joinLines (values.map write))
  obtain ⟨hdelivered, hsendable⟩ := segments_of_written values hsegments
  have hsent' : sent = segments.map fun segment => ⟨replicaId, jobId, segment.chunk⟩ := hsent
  have hbytes : ∀ segment ∈ segments, ∀ text, segment.chunk = some text →
      ∀ b ∈ text, logByte b := by
    intro segment hmem text htext b hb
    have hin : some b ∈ deliveredAll segments := by
      refine List.mem_flatMap.mpr ⟨segment, hmem, ?_⟩
      rw [htext]
      exact List.mem_map_of_mem hb
    rw [hdelivered] at hin
    obtain ⟨line, hline, hb'⟩ := List.mem_flatMap.mp hin
    obtain ⟨v, -, rfl⟩ := List.mem_map.mp hline
    unfold deliveredLine at hb'
    split at hb'
    · exact absurd (List.mem_singleton.mp hb') (by simp)
    · obtain ⟨c, hc, heq⟩ := List.mem_map.mp hb'
      cases heq
      obtain hmem | hnl := List.mem_append.mp hc
      · exact .inl (le_of_mem_write hmem)
      · exact .inr (List.mem_singleton.mp hnl)
  rw [hsent']
  refine ⟨?_, ?_, ?_⟩
  · rw [List.flatMap_map]
    exact hdelivered
  · intro payload hmem
    obtain ⟨segment, hsegment, rfl⟩ := List.mem_map.mp hmem
    refine ⟨rfl, rfl, ?_⟩
    intro text htext
    cases segment with
    | inline body =>
      cases htext
      exact (hsendable _ hsegment).1
    | signalOnly => cases htext
  · intro payload hmem
    obtain ⟨segment, hsegment, rfl⟩ := List.mem_map.mp hmem
    refine length_json_lt (hbytes segment hsegment) ?_
    intro text htext
    cases segment with
    | inline body =>
      cases htext
      exact (hsendable _ hsegment).2
    | signalOnly => cases htext

end Stroem.Events
