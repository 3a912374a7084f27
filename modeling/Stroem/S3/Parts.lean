import Mathlib.Data.List.Basic
import Mathlib.Tactic.Common

/-!
# Uploads to S3 in parts

`put_parts` fills one buffer from the chunks of a body.  A full buffer is sent as a part when more
data follows; a body that ends inside the first part is stored with one plain request.
-/

namespace Stroem.S3

abbrev Bytes := List UInt8

def s3PartBytes : Nat := 8 * 1024 * 1024

theorem s3PartBytes_pos : 0 < s3PartBytes := by decide

def i32Max : Nat := 2147483647

/-! ## The part buffer -/

structure Buffer where
  data : Bytes
  capacity : Nat
  fits : data.length ≤ capacity
  capped : capacity ≤ s3PartBytes

def Buffer.new : Buffer := ⟨[], 0, Nat.le_refl 0, Nat.zero_le _⟩

def Buffer.withCapacity : Buffer := ⟨[], s3PartBytes, Nat.zero_le _, Nat.le_refl _⟩

def grownCapacity (capacity need : Nat) : Nat :=
  if capacity < need then min (max (capacity * 2) need) s3PartBytes else capacity

def pushCapped (part : Buffer) (data : Bytes)
    (h : part.data.length + data.length ≤ s3PartBytes) : Buffer where
  data := part.data ++ data
  capacity := grownCapacity part.capacity (part.data.length + data.length)
  fits := by
    rw [List.length_append]
    unfold grownCapacity
    split
    · exact Nat.le_min.mpr ⟨Nat.le_max_right _ _, h⟩
    · omega
  capped := by
    unfold grownCapacity
    split
    · exact Nat.min_le_right _ _
    · exact part.capped

/-! ## Requests -/

inductive Request
  | createMultipartUpload
  | uploadPart (number : Nat) (body : Bytes)
  | completeMultipartUpload (numbers : List Nat)
  | putObject (body : Bytes)
  deriving DecidableEq

/-- What S3 makes of a request after those before it: `none`, or an error. -/
abbrev Respond := List Request → Request → Option String

structure Session where
  requests : List Request
  upload : Option (List Nat)
  part : Buffer

variable (respond : Respond)

def send (s : Session) (request : Request) : Except String Session :=
  match respond s.requests request with
  | none => .ok { s with requests := s.requests ++ [request] }
  | some e => .error e

def openUpload (s : Session) : Except String (Session × List Nat) :=
  match s.upload with
  | some parts => .ok (s, parts)
  | none => (send respond s .createMultipartUpload).map fun s => (s, [])

def sendPart (s : Session) (parts : List Nat) (data : Bytes) : Except String Session :=
  if i32Max < parts.length + 1 then .error "too many parts"
  else
    (send respond s (.uploadPart (parts.length + 1) data)).map fun s =>
      { s with upload := some (parts ++ [parts.length + 1]) }

/-! ## `put_parts` -/

abbrev Roomy := { s : Session // s.part.data.length < s3PartBytes }

def withEmptyPart (s : Session) : Roomy := ⟨⟨s.requests, s.upload, .withCapacity⟩, s3PartBytes_pos⟩

def sendFull (s : Session) : Except String Roomy :=
  if h : s.part.data.length = s3PartBytes then
    match openUpload respond { s with part := .new } with
    | .error e => .error e
    | .ok opened => (sendPart respond opened.1 opened.2 s.part.data).map withEmptyPart
  else
    .ok ⟨s, Nat.lt_of_le_of_ne (Nat.le_trans s.part.fits s.part.capped) h⟩

def takeSize (part : Buffer) (chunk : Bytes) : Nat :=
  min chunk.length (s3PartBytes - part.data.length)

theorem length_take_le {part : Buffer} (h : part.data.length < s3PartBytes) (chunk : Bytes) :
    part.data.length + (chunk.take (takeSize part chunk)).length ≤ s3PartBytes := by
  rw [List.length_take, takeSize]
  omega

variable {chunk : Bytes}

theorem length_drop_lt {part : Buffer} (h : part.data.length < s3PartBytes) (hchunk : chunk ≠ []) :
    (chunk.drop (takeSize part chunk)).length < chunk.length := by
  have hpos := List.length_pos_of_ne_nil hchunk
  rw [List.length_drop, takeSize]
  omega

def fill (s : Roomy) (chunk : Bytes) : Session where
  requests := s.1.requests
  upload := s.1.upload
  part := pushCapped s.1.part (chunk.take (takeSize s.1.part chunk)) (length_take_le s.2 chunk)

def feedChunk (s : Session) (chunk : Bytes) : Except String Session :=
  if _hchunk : chunk = [] then .ok s
  else
    match sendFull respond s with
    | .error e => .error e
    | .ok s' => feedChunk (fill s' chunk) (chunk.drop (takeSize s'.1.part chunk))
termination_by chunk.length
decreasing_by exact length_drop_lt s'.2 _hchunk

def feed (s : Session) : List (Except String Bytes) → Except String Session
  | [] => .ok s
  | .error e :: _ => .error e
  | .ok chunk :: body =>
    match feedChunk respond s chunk with
    | .error e => .error e
    | .ok s => feed s body

def finish (s : Session) : Except String Session :=
  match s.upload with
  | none => send respond s (.putObject s.part.data)
  | some parts =>
    match sendPart respond { s with part := .new } parts s.part.data with
    | .error e => .error e
    | .ok s => send respond s (.completeMultipartUpload (s.upload.getD []))

def putParts (body : List (Except String Bytes)) : Except String Session :=
  match feed respond ⟨[], none, .new⟩ body with
  | .error e => .error e
  | .ok s => finish respond s

/-! ## What one request does -/

variable {respond}

variable {s s' : Session}

theorem send_eq_ok {request : Request} :
    send respond s request = .ok s' ↔
      respond s.requests request = none ∧
        s' = { s with requests := s.requests ++ [request] } := by
  unfold send
  cases h : respond s.requests request with
  | none => simp [eq_comm]
  | some e => simp

theorem sendPart_eq_ok {parts : List Nat} {data : Bytes} :
    sendPart respond s parts data = .ok s' ↔
      parts.length + 1 ≤ i32Max ∧
        respond s.requests (.uploadPart (parts.length + 1) data) = none ∧
        s' = { s with
          requests := s.requests ++ [.uploadPart (parts.length + 1) data]
          upload := some (parts ++ [parts.length + 1]) } := by
  unfold sendPart
  by_cases hmany : i32Max < parts.length + 1
  · rw [if_pos hmany]
    simp [Nat.not_le.mpr hmany]
  · rw [if_neg hmany]
    cases hsend : send respond s (.uploadPart (parts.length + 1) data) with
    | error e =>
      have hrefused : respond s.requests (.uploadPart (parts.length + 1) data) ≠ none := by
        intro hnone
        rw [send_eq_ok.mpr ⟨hnone, rfl⟩] at hsend
        cases hsend
      simp [Except.map, hrefused]
    | ok s₁ =>
      obtain ⟨hnone, rfl⟩ := send_eq_ok.mp hsend
      simp [Except.map, hnone, Nat.le_of_not_lt hmany, eq_comm]

/-! ## What has been sent -/

def partNumbers (n : Nat) : List Nat := List.range' 1 n

def uploads (sent : List Bytes) : List Request :=
  sent.mapIdx fun i data => .uploadPart (i + 1) data

theorem partNumbers_succ (n : Nat) : partNumbers (n + 1) = partNumbers n ++ [n + 1] := by
  unfold partNumbers
  rw [List.range'_concat, Nat.add_comm 1]
  simp

theorem uploads_concat (sent : List Bytes) (data : Bytes) :
    uploads (sent ++ [data]) = uploads sent ++ [.uploadPart (sent.length + 1) data] := by
  unfold uploads
  rw [List.mapIdx_append]
  simp

structure Sent (s : Session) (sent : List Bytes) : Prop where
  full : ∀ data ∈ sent, data.length = s3PartBytes
  upload : s.upload = if sent = [] then none else some (partNumbers sent.length)
  requests : s.requests = if sent = [] then [] else .createMultipartUpload :: uploads sent

structure Cut (s : Session) (sent : List Bytes) (consumed : Bytes) : Prop extends Sent s sent where
  bytes : sent.flatten ++ s.part.data = consumed
  more : sent ≠ [] → s.part.data ≠ []

variable {sent : List Bytes}

theorem openUpload_eq_ok (hsent : Sent s sent) {opened : Session × List Nat}
    (h : openUpload respond s = .ok opened) :
    opened.2 = partNumbers sent.length ∧ opened.1.part = s.part ∧
      opened.1.requests = .createMultipartUpload :: uploads sent := by
  unfold openUpload at h
  by_cases hnil : sent = []
  · have hupload := hsent.upload
    rw [if_pos hnil] at hupload
    rw [hupload] at h
    cases hsend : send respond s .createMultipartUpload with
    | error e =>
      rw [hsend] at h
      cases h
    | ok s₁ =>
      rw [hsend] at h
      cases h
      obtain ⟨-, rfl⟩ := send_eq_ok.mp hsend
      have hrequests := hsent.requests
      rw [if_pos hnil] at hrequests
      subst hnil
      refine ⟨rfl, rfl, ?_⟩
      change s.requests ++ [_] = _
      rw [hrequests]
      rfl
  · have hupload := hsent.upload
    rw [if_neg hnil] at hupload
    rw [hupload] at h
    cases h
    have hrequests := hsent.requests
    rw [if_neg hnil] at hrequests
    exact ⟨rfl, rfl, hrequests⟩

theorem sendPart_sent {data : Bytes} (hfull : ∀ part ∈ sent, part.length = s3PartBytes)
    (hdata : data.length = s3PartBytes)
    (hrequests : s.requests = .createMultipartUpload :: uploads sent)
    (h : sendPart respond s (partNumbers sent.length) data = .ok s') :
    Sent s' (sent ++ [data]) := by
  obtain ⟨-, -, rfl⟩ := sendPart_eq_ok.mp h
  have hlen : (partNumbers sent.length).length = sent.length := List.length_range'
  refine ⟨?_, ?_, ?_⟩
  · intro part hpart
    obtain hpart | hpart := List.mem_append.mp hpart
    · exact hfull part hpart
    · rw [List.mem_singleton.mp hpart]
      exact hdata
  · rw [if_neg (by simp), List.length_append, List.length_singleton, partNumbers_succ]
    dsimp only
    rw [hlen]
  · rw [if_neg (by simp), uploads_concat]
    dsimp only
    rw [hlen, hrequests]
    rfl

theorem sendFull_eq_ok (hsent : Sent s sent) {s' : Roomy} (h : sendFull respond s = .ok s') :
    (s.part.data.length < s3PartBytes ∧ s'.1 = s) ∨
      (s.part.data.length = s3PartBytes ∧ Sent s'.1 (sent ++ [s.part.data]) ∧
        s'.1.part.data = []) := by
  unfold sendFull at h
  split at h
  · rename_i hfull
    refine .inr ⟨hfull, ?_⟩
    have hclear : Sent { s with part := .new } sent := ⟨hsent.full, hsent.upload, hsent.requests⟩
    split at h
    · cases h
    · rename_i opened hopen
      obtain ⟨hparts, -, hrequests⟩ := openUpload_eq_ok hclear hopen
      rw [hparts] at h
      cases hpart : sendPart respond opened.1 (partNumbers sent.length) s.part.data with
      | error e =>
        rw [hpart] at h
        cases h
      | ok s₁ =>
        rw [hpart] at h
        cases h
        have hsent₁ := sendPart_sent hsent.full hfull hrequests hpart
        exact ⟨⟨hsent₁.full, hsent₁.upload, hsent₁.requests⟩, rfl⟩
  · rename_i hroom
    cases h
    exact .inl ⟨Nat.lt_of_le_of_ne (Nat.le_trans s.part.fits s.part.capped) hroom, rfl⟩

theorem Sent.fill {s : Roomy} (h : Sent s.1 sent) (chunk : Bytes) : Sent (S3.fill s chunk) sent :=
  ⟨h.full, h.upload, h.requests⟩

theorem fill_data (s : Roomy) (chunk : Bytes) :
    (fill s chunk).part.data = s.1.part.data ++ chunk.take (takeSize s.1.part chunk) := rfl

theorem take_ne_nil (s : Roomy) (hchunk : chunk ≠ []) :
    chunk.take (takeSize s.1.part chunk) ≠ [] := by
  have hpos := List.length_pos_of_ne_nil hchunk
  have hroom := s.2
  intro hnil
  have hzero := congrArg List.length hnil
  rw [List.length_take, takeSize, List.length_nil] at hzero
  omega

variable {consumed : Bytes}

theorem Cut.fill (h : Cut s sent consumed) {s' : Roomy} (hfull : sendFull respond s = .ok s')
    (hchunk : chunk ≠ []) :
    ∃ sent', Cut (S3.fill s' chunk) sent' (consumed ++ chunk.take (takeSize s'.1.part chunk)) := by
  have hmore : (S3.fill s' chunk).part.data ≠ [] :=
    List.append_ne_nil_of_right_ne_nil _ (take_ne_nil s' hchunk)
  obtain ⟨-, heq⟩ | ⟨-, hsent, hnil⟩ := sendFull_eq_ok h.toSent hfull
  · have hsame : Sent s'.1 sent := by
      rw [heq]
      exact h.toSent
    refine ⟨sent, hsame.fill chunk, ?_, fun _ => hmore⟩
    rw [fill_data, ← List.append_assoc, heq, h.bytes]
  · refine ⟨sent ++ [s.part.data], hsent.fill chunk, ?_, fun _ => hmore⟩
    rw [fill_data, hnil, List.flatten_concat, List.nil_append, h.bytes]

theorem Cut.feedChunk (h : Cut s sent consumed) (hok : feedChunk respond s chunk = .ok s') :
    ∃ sent', Cut s' sent' (consumed ++ chunk) := by
  induction s, chunk using S3.feedChunk.induct respond generalizing sent consumed with
  | case1 s =>
    rw [S3.feedChunk, dif_pos rfl] at hok
    cases hok
    rw [List.append_nil]
    exact ⟨sent, h⟩
  | case2 s chunk hchunk e hfull =>
    rw [S3.feedChunk, dif_neg hchunk, hfull] at hok
    cases hok
  | case3 s chunk hchunk s₁ hfull ih =>
    rw [S3.feedChunk, dif_neg hchunk, hfull] at hok
    obtain ⟨sent₁, hcut⟩ := h.fill hfull hchunk
    obtain ⟨sent', hcut'⟩ := ih hcut hok
    rw [List.append_assoc, List.take_append_drop] at hcut'
    exact ⟨sent', hcut'⟩

theorem Cut.feed {chunks : List Bytes} (h : Cut s sent consumed)
    (hok : feed respond s (chunks.map .ok) = .ok s') :
    ∃ sent', Cut s' sent' (consumed ++ chunks.flatten) := by
  induction chunks generalizing s sent consumed with
  | nil =>
    cases hok
    rw [List.flatten_nil, List.append_nil]
    exact ⟨sent, h⟩
  | cons chunk chunks ih =>
    rw [List.map_cons, S3.feed] at hok
    split at hok
    · cases hok
    · rename_i s₁ hchunk
      obtain ⟨sent₁, hcut⟩ := h.feedChunk hchunk
      obtain ⟨sent', hcut'⟩ := ih hcut hok
      rw [List.append_assoc] at hcut'
      exact ⟨sent', hcut'⟩

/-! ## Progress -/

theorem length_flatten_full (h : ∀ data ∈ sent, data.length = s3PartBytes) :
    sent.flatten.length = sent.length * s3PartBytes := by
  induction sent with
  | nil => rw [List.flatten_nil, List.length_nil, List.length_nil, Nat.zero_mul]
  | cons data sent ih =>
    rw [List.flatten_cons, List.length_append, h data List.mem_cons_self,
      ih fun d hd => h d (List.mem_cons_of_mem _ hd), List.length_cons, Nat.succ_mul]
    omega

theorem Cut.length_eq (h : Cut s sent consumed) :
    sent.length * s3PartBytes + s.part.data.length = consumed.length := by
  rw [← h.bytes, List.length_append, length_flatten_full h.full]

theorem Cut.numbered (h : Cut s sent consumed) {more : Nat} (hmore : 0 < more)
    (hlen : consumed.length + more ≤ i32Max * s3PartBytes) : sent.length + 1 ≤ i32Max := by
  have hlt : sent.length * s3PartBytes < i32Max * s3PartBytes := by
    rw [← h.length_eq] at hlen
    omega
  exact Nat.lt_of_mul_lt_mul_right hlt

def Accepts (respond : Respond) : Prop := ∀ requests request, respond requests request = none

variable (haccepts : Accepts respond)

include haccepts

theorem send_accepted (s : Session) (request : Request) :
    send respond s request = .ok { s with requests := s.requests ++ [request] } :=
  send_eq_ok.mpr ⟨haccepts _ _, rfl⟩

theorem sendPart_accepted (s : Session) {parts : List Nat} (h : parts.length + 1 ≤ i32Max)
    (data : Bytes) : ∃ s', sendPart respond s parts data = .ok s' :=
  ⟨_, sendPart_eq_ok.mpr ⟨h, haccepts _ _, rfl⟩⟩

theorem openUpload_accepted (s : Session) : ∃ opened, openUpload respond s = .ok opened := by
  unfold openUpload
  cases s.upload with
  | none =>
    dsimp only
    rw [send_accepted haccepts]
    exact ⟨_, rfl⟩
  | some parts => exact ⟨_, rfl⟩

theorem sendFull_accepted (hsent : Sent s sent) (h : sent.length + 1 ≤ i32Max) :
    ∃ s', sendFull respond s = .ok s' := by
  unfold sendFull
  split
  · have hclear : Sent { s with part := .new } sent := ⟨hsent.full, hsent.upload, hsent.requests⟩
    obtain ⟨opened, hopen⟩ := openUpload_accepted haccepts { s with part := .new }
    obtain ⟨hparts, -, -⟩ := openUpload_eq_ok hclear hopen
    have hlen : opened.2.length + 1 ≤ i32Max := by
      rwa [hparts, partNumbers, List.length_range']
    obtain ⟨s₁, hpart⟩ := sendPart_accepted haccepts opened.1 hlen s.part.data
    rw [hopen]
    dsimp only
    rw [hpart]
    exact ⟨_, rfl⟩
  · exact ⟨_, rfl⟩

theorem feedChunk_accepted (h : Cut s sent consumed)
    (hlen : consumed.length + chunk.length ≤ i32Max * s3PartBytes) :
    ∃ s', feedChunk respond s chunk = .ok s' := by
  induction s, chunk using S3.feedChunk.induct respond generalizing sent consumed with
  | case1 s =>
    rw [S3.feedChunk, dif_pos rfl]
    exact ⟨s, rfl⟩
  | case2 s chunk hchunk e hfull =>
    have hroom := h.numbered (List.length_pos_of_ne_nil hchunk) hlen
    obtain ⟨s₁, hok⟩ := sendFull_accepted haccepts h.toSent hroom
    rw [hok] at hfull
    cases hfull
  | case3 s chunk hchunk s₁ hfull ih =>
    rw [S3.feedChunk, dif_neg hchunk, hfull]
    obtain ⟨sent₁, hcut⟩ := h.fill hfull hchunk
    refine ih hcut ?_
    rw [List.length_append, Nat.add_assoc, ← List.length_append, List.take_append_drop]
    exact hlen

theorem feed_accepted {chunks : List Bytes} (h : Cut s sent consumed)
    (hlen : consumed.length + chunks.flatten.length ≤ i32Max * s3PartBytes) :
    ∃ s', feed respond s (chunks.map .ok) = .ok s' := by
  induction chunks generalizing s sent consumed with
  | nil => exact ⟨s, rfl⟩
  | cons chunk chunks ih =>
    rw [List.flatten_cons, List.length_append] at hlen
    have hfirst : consumed.length + chunk.length ≤ i32Max * s3PartBytes := by
      omega
    obtain ⟨s₁, hchunk⟩ := feedChunk_accepted haccepts h hfirst
    obtain ⟨sent₁, hcut⟩ := h.feedChunk hchunk
    rw [List.map_cons, S3.feed, hchunk]
    refine ih hcut ?_
    rw [List.length_append]
    omega

theorem finish_accepted {body : Bytes} (h : Cut s sent body)
    (hlen : body.length ≤ i32Max * s3PartBytes) : ∃ s', finish respond s = .ok s' := by
  unfold finish
  by_cases hnil : sent = []
  · have hupload := h.upload
    rw [if_pos hnil] at hupload
    rw [hupload]
    exact ⟨_, send_accepted haccepts _ _⟩
  · have hupload := h.upload
    rw [if_neg hnil] at hupload
    have hpos := List.length_pos_of_ne_nil (h.more hnil)
    have hlast : (partNumbers sent.length).length + 1 ≤ i32Max := by
      rw [partNumbers, List.length_range']
      have hlt : sent.length * s3PartBytes < i32Max * s3PartBytes := by
        rw [← h.length_eq] at hlen
        omega
      exact Nat.lt_of_mul_lt_mul_right hlt
    obtain ⟨s₁, hpart⟩ :=
      sendPart_accepted haccepts { s with part := .new } hlast s.part.data
    rw [hupload] at hpart ⊢
    dsimp only
    rw [hpart]
    exact ⟨_, send_accepted haccepts _ _⟩

omit haccepts

/-! ## The upload of a body -/

structure Parts (body : Bytes) (parts : List Bytes) : Prop where
  bytes : parts.flatten = body
  full : ∀ part ∈ parts.dropLast, part.length = s3PartBytes
  last : ∃ part, parts.getLast? = some part ∧ part ≠ [] ∧ part.length ≤ s3PartBytes

theorem finish_eq_ok {body : Bytes} (h : Cut s sent body) (hok : finish respond s = .ok s') :
    (body.length ≤ s3PartBytes ∧ s'.requests = [.putObject body]) ∨
      (s3PartBytes < body.length ∧ ∃ parts, Parts body parts ∧
        s'.requests = .createMultipartUpload :: uploads parts ++
          [.completeMultipartUpload (partNumbers parts.length)]) := by
  have hpart := Nat.le_trans s.part.fits s.part.capped
  have hlen := h.length_eq
  unfold finish at hok
  by_cases hnil : sent = []
  · have hupload := h.upload
    have hrequests := h.requests
    have hbytes := h.bytes
    rw [if_pos hnil] at hupload hrequests
    rw [hnil, List.flatten_nil, List.nil_append] at hbytes
    rw [hupload] at hok
    obtain ⟨-, rfl⟩ := send_eq_ok.mp hok
    refine .inl ⟨by rwa [← hbytes], ?_⟩
    dsimp only
    rw [hrequests, hbytes]
    rfl
  · have hupload := h.upload
    have hrequests := h.requests
    rw [if_neg hnil] at hupload hrequests
    have hmore := h.more hnil
    have hpos := List.length_pos_of_ne_nil hmore
    have hsent := List.length_pos_of_ne_nil hnil
    rw [hupload] at hok
    dsimp only at hok
    split at hok
    · cases hok
    · rename_i s₁ hlast
      obtain ⟨-, -, rfl⟩ := sendPart_eq_ok.mp hlast
      obtain ⟨-, rfl⟩ := send_eq_ok.mp hok
      have hnumbers : (partNumbers sent.length).length = sent.length := List.length_range'
      refine .inr ⟨?_, sent ++ [s.part.data], ⟨?_, ?_, s.part.data, ?_, hmore, hpart⟩, ?_⟩
      · have hone : s3PartBytes ≤ sent.length * s3PartBytes :=
          Nat.le_mul_of_pos_left _ hsent
        omega
      · rw [List.flatten_concat]
        exact h.bytes
      · rw [List.dropLast_concat]
        exact h.full
      · exact List.getLast?_concat
      · dsimp only
        rw [hrequests, hnumbers, uploads_concat, Option.getD_some, List.length_append,
          List.length_singleton, partNumbers_succ]
        simp

/--
A body of at most one part goes in one plain request, a longer one in full parts and a last one
that is not empty, however it is cut into chunks.
-/
theorem putParts_cut (respond : Respond) (chunks : List Bytes) :
    (∀ s, putParts respond (chunks.map .ok) = .ok s →
      (chunks.flatten.length ≤ s3PartBytes ∧ s.requests = [.putObject chunks.flatten]) ∨
        (s3PartBytes < chunks.flatten.length ∧ ∃ parts, Parts chunks.flatten parts ∧
          s.requests = .createMultipartUpload :: uploads parts ++
            [.completeMultipartUpload (partNumbers parts.length)])) ∧
      (Accepts respond → chunks.flatten.length ≤ i32Max * s3PartBytes →
        ∃ s, putParts respond (chunks.map .ok) = .ok s) ∧
      ∀ part : Buffer, part.data.length ≤ part.capacity ∧ part.capacity ≤ s3PartBytes := by
  have hstart : Cut ⟨[], none, .new⟩ [] [] :=
    ⟨⟨fun _ h => absurd h List.not_mem_nil, rfl, rfl⟩, rfl, fun h => absurd rfl h⟩
  refine ⟨?_, ?_, fun part => ⟨part.fits, part.capped⟩⟩
  · intro s hok
    unfold putParts at hok
    split at hok
    · cases hok
    · rename_i s₁ hfeed
      obtain ⟨sent, hcut⟩ := hstart.feed hfeed
      exact finish_eq_ok hcut hok
  · intro haccepts hlen
    obtain ⟨s₁, hfeed⟩ := feed_accepted haccepts hstart (by simpa using hlen)
    obtain ⟨sent, hcut⟩ := hstart.feed hfeed
    rw [putParts, hfeed]
    exact finish_accepted haccepts hcut hlen

theorem Parts.eq_pair {full rest : Bytes} {parts : List Bytes}
    (h : Parts (full ++ rest) parts) (hfull : full.length = s3PartBytes) (hrest : rest ≠ [])
    (hle : rest.length ≤ s3PartBytes) : parts = [full, rest] := by
  obtain ⟨hbytes, hparts, part, hlast, hpart, hpartLe⟩ := h
  have hmem := List.mem_of_getLast? hlast
  have hpos := List.length_pos_of_ne_nil hrest
  match parts with
  | [] => cases hmem
  | [p] =>
    obtain rfl := List.mem_singleton.mp hmem
    have hlen := congrArg List.length hbytes
    rw [List.flatten_singleton, List.length_append] at hlen
    omega
  | p :: q :: more =>
    have hp : p.length = s3PartBytes := hparts p List.mem_cons_self
    rw [List.flatten_cons] at hbytes
    obtain ⟨rfl, hmore⟩ := List.append_inj hbytes (hp.trans hfull.symm)
    cases more with
    | nil => rw [← hmore, List.flatten_singleton]
    | cons m ms =>
      exfalso
      have hq : q.length = s3PartBytes := hparts q (List.mem_cons_of_mem p List.mem_cons_self)
      have hin : part ∈ m :: ms := List.mem_of_getLast? hlast
      have hlen := congrArg List.length hmore
      rw [List.flatten_cons, List.length_append] at hlen
      have hempty : (m :: ms).flatten = [] := List.eq_nil_of_length_eq_zero (by omega)
      exact hpart (List.flatten_eq_nil_iff.mp hempty part hin)

theorem putParts_cut_twoParts :
    ∃ s, putParts (fun _ _ => none)
        ([List.replicate s3PartBytes 0, [], [1, 2]].map .ok) = .ok s ∧
      s.requests = [.createMultipartUpload, .uploadPart 1 (List.replicate s3PartBytes 0),
        .uploadPart 2 [1, 2], .completeMultipartUpload [1, 2]] := by
  have hbody : [List.replicate s3PartBytes 0, [], [1, 2]].flatten =
      List.replicate s3PartBytes 0 ++ [(1 : UInt8), 2] := by
    simp only [List.flatten_cons, List.nil_append, List.flatten_nil, List.append_nil]
  have hlen : (List.replicate s3PartBytes 0 ++ [(1 : UInt8), 2]).length = s3PartBytes + 2 := by
    rw [List.length_append, List.length_replicate]
    rfl
  obtain ⟨hparts, haccepted, -⟩ := putParts_cut (fun _ _ => none)
    [List.replicate s3PartBytes 0, [], [1, 2]]
  rw [hbody, hlen] at hparts haccepted
  obtain ⟨s, hs⟩ := haccepted (fun _ _ => rfl) (by decide)
  refine ⟨s, hs, ?_⟩
  rcases hparts s hs with ⟨hsmall, -⟩ | ⟨-, parts, hcut, hrequests⟩
  · omega
  · rw [hrequests, hcut.eq_pair List.length_replicate (by simp) (by decide)]
    rfl

end Stroem.S3
