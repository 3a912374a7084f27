import Stroem.LogRead

/-!
# The line splitter

`LineSplitter` lends the lines of a buffered reader one at a time from an accumulator of
`max_line` bytes.  The reader hands out its bytes in chunks of any size, so a line can begin in one
chunk and end in another.  `lineRefs` states what the splitter is for: it classifies the pieces
between the newlines, and `drain_eq` shows that the chunks do not matter.
-/

namespace Stroem.LogRead

/-! ## The reader -/

/--
An `AsyncBufRead` over bytes that are all there: what `fill_buf` gives next is the first chunk.
An empty buffer means the end of the input, so no chunk is empty.
-/
structure Reader where
  chunks : List Bytes
  nonempty : [] ∉ chunks

def Reader.content (r : Reader) : Bytes :=
  r.chunks.flatten

def Reader.fillBuf (r : Reader) : Bytes :=
  r.chunks.headD []

def Reader.consume (r : Reader) (n : Nat) : Reader where
  chunks :=
    match r.chunks with
    | [] => []
    | c :: cs => if c.length ≤ n then cs else c.drop n :: cs
  nonempty := by
    have hr := r.nonempty
    split
    case h_1 => exact List.not_mem_nil
    case h_2 c cs heq =>
      rw [heq, List.mem_cons, not_or] at hr
      split
      · exact hr.2
      · rw [List.mem_cons, not_or]
        exact ⟨fun h => by simp at h; omega, hr.2⟩

def Reader.ofBytes (content : Bytes) : Reader where
  chunks := if content = [] then [] else [content]
  nonempty := by
    split
    case isTrue => exact List.not_mem_nil
    case isFalse h => simpa using fun heq : [] = content => h heq.symm

@[simp] theorem Reader.content_ofBytes (content : Bytes) :
    (Reader.ofBytes content).content = content := by
  unfold Reader.ofBytes Reader.content
  split <;> simp_all

theorem Reader.fillBuf_eq_nil {r : Reader} (h : r.fillBuf = []) : r.content = [] := by
  obtain ⟨chunks, hr⟩ := r
  cases chunks with
  | nil => rfl
  | cons c cs =>
    simp only [Reader.fillBuf, List.headD_cons] at h
    simp [h] at hr

theorem Reader.content_consume {r : Reader} {n : Nat} (h : n ≤ r.fillBuf.length) :
    (r.consume n).content = r.content.drop n := by
  obtain ⟨chunks, hr⟩ := r
  cases chunks with
  | nil => simp [Reader.consume, Reader.content]
  | cons c cs =>
    simp only [Reader.fillBuf, List.headD_cons] at h
    simp only [Reader.consume, Reader.content, List.flatten_cons, List.drop_append]
    split
    · have hn : n = c.length := by omega
      simp [hn]
    · have hzero : n - c.length = 0 := by omega
      simp [hzero]

theorem Reader.content_eq_fillBuf_append (r : Reader) :
    r.content = r.fillBuf ++ (r.consume r.fillBuf.length).content := by
  rw [Reader.content_consume (Nat.le_refl _)]
  obtain ⟨chunks, hr⟩ := r
  cases chunks with
  | nil => rfl
  | cons c cs => simp [Reader.fillBuf, Reader.content]

/-! ## The splitter -/

/-- `LineRef`: a line with its newline, the input's last line without one, or a line over
`max_line`. -/
inductive LineRef
  | line (bytes : Bytes)
  | unterminated (bytes : Bytes)
  | skipped (bytes : Nat)
  deriving DecidableEq

structure LineSplitter where
  reader : Reader
  acc : Bytes
  maxLine : Nat
  discarding : Option Nat
  lent : Bool
  consumed : Nat

def LineSplitter.new (reader : Reader) (maxLine : Nat) : LineSplitter where
  reader := reader
  acc := []
  maxLine := maxLine
  discarding := none
  lent := false
  consumed := 0

def LineSplitter.nextLoop : Nat → LineSplitter → Option LineRef × LineSplitter
  | 0, s => (none, s)
  | fuel + 1, s =>
    let buf := s.reader.fillBuf
    if buf = [] then
      match s.discarding with
      | some bytes => (some (.skipped bytes), { s with discarding := none })
      | none =>
        if s.acc = [] then (none, s)
        else (some (.unterminated s.acc), { s with lent := true })
    else
      let found := position buf
      let take := found.getD buf.length
      let consume := take + if found.isSome then 1 else 0
      match s.discarding with
      | some discarded =>
        let s := { s with
          reader := s.reader.consume consume
          consumed := s.consumed + consume }
        if found.isSome then
          (some (.skipped (discarded + take)), { s with discarding := none })
        else nextLoop fuel { s with discarding := some (discarded + take) }
      | none =>
        if s.maxLine < s.acc.length + take then
          -- The same bytes are discarded in the next round.
          nextLoop fuel { s with discarding := some s.acc.length, acc := [] }
        else
          let s := { s with
            acc := s.acc ++ buf.take take
            reader := s.reader.consume consume
            consumed := s.consumed + consume }
          if found.isSome then (some (.line s.acc), { s with lent := true })
          else nextLoop fuel s

def LineSplitter.clearLent (s : LineSplitter) : LineSplitter :=
  if s.lent then { s with acc := [], lent := false } else s

def LineSplitter.next (s : LineSplitter) : Option LineRef × LineSplitter :=
  s.clearLent.nextLoop (2 * s.reader.content.length + 2)

def LineSplitter.drainLoop {σ : Type*} (body : σ → LineRef → σ) :
    Nat → LineSplitter → σ → σ × LineSplitter
  | 0, s, state => (state, s)
  | fuel + 1, s, state =>
    match s.next with
    | (none, s) => (state, s)
    | (some item, s) => drainLoop body fuel s (body state item)

def LineSplitter.drain {σ : Type*} (body : σ → LineRef → σ) (s : LineSplitter) (state : σ) :
    σ × LineSplitter :=
  s.drainLoop body (s.reader.content.length + 1) state

/-! ## What it gives -/

def lineRef (maxLine : Nat) (line : Bytes) : LineRef :=
  if line.length ≤ maxLine then .line line else .skipped line.length

def lastRef (maxLine : Nat) (rest : Bytes) : Option LineRef :=
  if rest = [] then none
  else if rest.length ≤ maxLine then some (.unterminated rest)
  else some (.skipped rest.length)

def lineRefs (maxLine : Nat) : List Bytes → List LineRef
  | [] => []
  | [rest] => (lastRef maxLine rest).toList
  | line :: piece :: pieces => lineRef maxLine line :: lineRefs maxLine (piece :: pieces)

structure LineSplitter.Idle (s : LineSplitter) : Prop where
  discarding : s.discarding = none
  acc : s.lent = true ∨ s.acc = []

/-- Inside a call: the bytes `seen` of the current line are in the accumulator, or the whole line
is too long and they are only counted. -/
def LineSplitter.Carries (s : LineSplitter) (seen whole : Bytes) : Prop :=
  s.discarding = none ∧ s.acc = seen ∧ seen.length ≤ s.maxLine ∨
    s.discarding = some seen.length ∧ s.acc = [] ∧ s.maxLine < whole.length

def LineSplitter.measure (s : LineSplitter) : Nat :=
  2 * s.reader.content.length + if s.discarding = none then 1 else 0

/-! ### One round -/

section Round

variable {fuel : Nat} {s : LineSplitter}

private theorem nextLoop_start_discard (hne : s.reader.fillBuf ≠ []) (hdisc : s.discarding = none)
    (hover : s.maxLine <
      s.acc.length + (position s.reader.fillBuf).getD s.reader.fillBuf.length) :
    s.nextLoop (fuel + 1) =
      LineSplitter.nextLoop fuel { s with discarding := some s.acc.length, acc := [] } := by
  simp only [LineSplitter.nextLoop, hne, if_false, hdisc, hover, if_true]

private theorem nextLoop_discard_found {n q : Nat} (hne : s.reader.fillBuf ≠ [])
    (hdisc : s.discarding = some n) (hfound : position s.reader.fillBuf = some q) :
    s.nextLoop (fuel + 1) =
      (some (.skipped (n + q)),
        { s with
          reader := s.reader.consume (q + 1)
          consumed := s.consumed + (q + 1)
          discarding := none }) := by
  simp only [LineSplitter.nextLoop, hne, if_false, hdisc, hfound, Option.isSome_some, if_true,
    Option.getD_some]

private theorem nextLoop_discard_all {n : Nat} (hne : s.reader.fillBuf ≠ [])
    (hdisc : s.discarding = some n) (hfound : position s.reader.fillBuf = none) :
    s.nextLoop (fuel + 1) =
      LineSplitter.nextLoop fuel
        { s with
          reader := s.reader.consume s.reader.fillBuf.length
          consumed := s.consumed + s.reader.fillBuf.length
          discarding := some (n + s.reader.fillBuf.length) } := by
  simp only [LineSplitter.nextLoop, hne, if_false, hdisc, hfound, Option.isSome_none,
    Bool.false_eq_true, Option.getD_none, Nat.add_zero]

private theorem nextLoop_take_found {q : Nat} (hne : s.reader.fillBuf ≠ [])
    (hdisc : s.discarding = none) (hfound : position s.reader.fillBuf = some q)
    (hfits : s.acc.length + q ≤ s.maxLine) :
    s.nextLoop (fuel + 1) =
      (some (.line (s.acc ++ s.reader.fillBuf.take q)),
        { s with
          acc := s.acc ++ s.reader.fillBuf.take q
          reader := s.reader.consume (q + 1)
          consumed := s.consumed + (q + 1)
          lent := true }) := by
  have hover : ¬ s.maxLine < s.acc.length + q := Nat.not_lt.mpr hfits
  simp only [LineSplitter.nextLoop, hne, if_false, hdisc, hfound, Option.isSome_some, if_true,
    Option.getD_some, hover]

private theorem nextLoop_take_all (hne : s.reader.fillBuf ≠ []) (hdisc : s.discarding = none)
    (hfound : position s.reader.fillBuf = none)
    (hfits : s.acc.length + s.reader.fillBuf.length ≤ s.maxLine) :
    s.nextLoop (fuel + 1) =
      LineSplitter.nextLoop fuel
        { s with
          acc := s.acc ++ s.reader.fillBuf
          reader := s.reader.consume s.reader.fillBuf.length
          consumed := s.consumed + s.reader.fillBuf.length } := by
  have hover : ¬ s.maxLine < s.acc.length + s.reader.fillBuf.length := Nat.not_lt.mpr hfits
  simp only [LineSplitter.nextLoop, hne, if_false, hdisc, hfound, Option.isSome_none,
    Bool.false_eq_true, Option.getD_none, Nat.add_zero, hover, List.take_length]

end Round

/-! ### One call -/

private theorem fillBuf_cases {r : Reader} {line rest : Bytes}
    (hc : r.content = line ++ newline :: rest) (hline : newline ∉ line) :
    (position r.fillBuf = some line.length ∧ r.fillBuf.take line.length = line ∧
        (r.consume (line.length + 1)).content = rest) ∨
      ∃ line', line = r.fillBuf ++ line' ∧ position r.fillBuf = none ∧
        (r.consume r.fillBuf.length).content = line' ++ newline :: rest := by
  have hsplit := r.content_eq_fillBuf_append
  rw [hc] at hsplit
  obtain ⟨middle, hbuf, hmore⟩ | ⟨middle, hlineEq, hmore⟩ := List.append_eq_append_iff.mp hsplit
  · cases middle with
    | nil =>
      right
      rw [List.append_nil] at hbuf
      refine ⟨[], by rw [hbuf, List.append_nil], ?_, by simpa using hmore.symm⟩
      rw [position_eq_none_iff, hbuf]
      exact hline
    | cons b after =>
      left
      simp only [List.cons_append, List.cons.injEq] at hmore
      obtain ⟨rfl, -⟩ := hmore
      refine ⟨hbuf ▸ position_append_cons after hline, by simp [hbuf], ?_⟩
      rw [Reader.content_consume (by rw [hbuf]; simp), hc]
      simp
  · right
    refine ⟨middle, hlineEq, ?_, hmore⟩
    rw [position_eq_none_iff]
    intro hmem
    exact hline (hlineEq ▸ List.mem_append_left _ hmem)

private theorem fillBuf_ne_nil {r : Reader} (h : r.content ≠ []) : r.fillBuf ≠ [] :=
  fun hbuf => h (Reader.fillBuf_eq_nil hbuf)

private theorem length_content {r : Reader} :
    r.content.length = r.fillBuf.length + (r.consume r.fillBuf.length).content.length := by
  conv_lhs => rw [r.content_eq_fillBuf_append]
  rw [List.length_append]

variable {s : LineSplitter}

private theorem nextLoop_terminated {fuel : Nat} {seen line rest : Bytes}
    (hc : s.reader.content = line ++ newline :: rest) (hline : newline ∉ line)
    (hcarry : s.Carries seen (seen ++ line)) (hfuel : s.measure < fuel) :
    ∃ s' : LineSplitter, s.nextLoop fuel = (some (lineRef s.maxLine (seen ++ line)), s') ∧
      s'.reader.content = rest ∧ s'.maxLine = s.maxLine ∧ s'.Idle ∧
      s'.consumed = s.consumed + line.length + 1 := by
  induction fuel generalizing s seen line with
  | zero => exact absurd hfuel (Nat.not_lt_zero _)
  | succ fuel ih =>
    have hne : s.reader.fillBuf ≠ [] := fillBuf_ne_nil (by rw [hc]; simp)
    have hpos : 0 < s.reader.fillBuf.length := List.length_pos_iff.mpr hne
    have hlen := length_content (r := s.reader)
    unfold LineSplitter.measure at hfuel
    obtain ⟨hdisc, hacc, hmax⟩ | ⟨hdisc, hacc, hmax⟩ := hcarry
    · by_cases hover : s.maxLine <
          s.acc.length + (position s.reader.fillBuf).getD s.reader.fillBuf.length
      · rw [nextLoop_start_discard hne hdisc hover]
        have hlong : s.maxLine < (seen ++ line).length := by
          rw [hacc] at hover
          rw [List.length_append]
          obtain ⟨hfound, -⟩ | ⟨line', hlineEq, hfound, -⟩ := fillBuf_cases hc hline
          · simpa [hfound] using hover
          · simp only [hfound, Option.getD_none] at hover
            rw [hlineEq, List.length_append]
            omega
        refine ih hc hline (.inr ⟨by rw [hacc], rfl, hlong⟩) ?_
        simp only [LineSplitter.measure, hdisc, if_true] at hfuel ⊢
        simp only [reduceCtorEq, if_false]
        omega
      · obtain ⟨hfound, htake, hrest⟩ | ⟨line', hlineEq, hfound, hmore⟩ := fillBuf_cases hc hline
        · simp only [hfound, Option.getD_some, Nat.not_lt] at hover
          have hle : (seen ++ line).length ≤ s.maxLine := by
            rw [← hacc, List.length_append]
            exact hover
          rw [nextLoop_take_found hne hdisc hfound hover, htake, hacc, lineRef, if_pos hle]
          exact ⟨_, rfl, hrest, rfl, ⟨hdisc, .inl rfl⟩, rfl⟩
        · simp only [hfound, Option.getD_none, Nat.not_lt] at hover
          rw [nextLoop_take_all hne hdisc hfound hover]
          have hwhole : seen ++ line = (seen ++ s.reader.fillBuf) ++ line' := by
            rw [List.append_assoc, ← hlineEq]
          have hline' : newline ∉ line' := fun h => hline (hlineEq ▸ List.mem_append_right _ h)
          rw [hwhole]
          obtain ⟨s', hs', hrest, hmax', hidle, hconsumed⟩ := ih
            (s := { s with
              acc := s.acc ++ s.reader.fillBuf
              reader := s.reader.consume s.reader.fillBuf.length
              consumed := s.consumed + s.reader.fillBuf.length })
            hmore hline'
            (.inl ⟨hdisc, by rw [hacc], by rw [← hacc, List.length_append]; exact hover⟩)
            (by simp only [LineSplitter.measure, hdisc, if_true] at hfuel ⊢; omega)
          refine ⟨s', hs', hrest, hmax', hidle, ?_⟩
          rw [hconsumed, hlineEq, List.length_append]
          dsimp only
          omega
    · obtain ⟨hfound, htake, hrest⟩ | ⟨line', hlineEq, hfound, hmore⟩ := fillBuf_cases hc hline
      · rw [nextLoop_discard_found hne hdisc hfound, lineRef, if_neg (by omega)]
        rw [List.length_append]
        exact ⟨_, rfl, hrest, rfl, ⟨rfl, .inr hacc⟩, rfl⟩
      · rw [nextLoop_discard_all hne hdisc hfound]
        have hwhole : seen ++ line = (seen ++ s.reader.fillBuf) ++ line' := by
          rw [List.append_assoc, ← hlineEq]
        have hline' : newline ∉ line' := fun h => hline (hlineEq ▸ List.mem_append_right _ h)
        rw [hwhole] at hmax ⊢
        obtain ⟨s', hs', hrest, hmax', hidle, hconsumed⟩ := ih
          (s := { s with
            reader := s.reader.consume s.reader.fillBuf.length
            consumed := s.consumed + s.reader.fillBuf.length
            discarding := some (seen.length + s.reader.fillBuf.length) })
          hmore hline'
          (.inr ⟨by rw [List.length_append], hacc, hmax⟩)
          (by
            simp only [LineSplitter.measure, hdisc, reduceCtorEq, if_false] at hfuel ⊢
            omega)
        refine ⟨s', hs', hrest, hmax', hidle, ?_⟩
        rw [hconsumed, hlineEq, List.length_append]
        dsimp only
        omega

private theorem nextLoop_last {fuel : Nat} {seen : Bytes} (hc : newline ∉ s.reader.content)
    (hcarry : s.Carries seen (seen ++ s.reader.content)) (hfuel : s.measure < fuel) :
    ∃ s' : LineSplitter, s.nextLoop fuel = (lastRef s.maxLine (seen ++ s.reader.content), s') ∧
      s'.reader.content = [] ∧ s'.maxLine = s.maxLine ∧ s'.Idle ∧
      s'.consumed = s.consumed + s.reader.content.length := by
  induction fuel generalizing s seen with
  | zero => exact absurd hfuel (Nat.not_lt_zero _)
  | succ fuel ih =>
    by_cases hbuf : s.reader.fillBuf = []
    · have hempty := Reader.fillBuf_eq_nil hbuf
      rw [hempty, List.append_nil] at hcarry ⊢
      unfold LineSplitter.nextLoop lastRef
      obtain ⟨hdisc, hacc, hmax⟩ | ⟨hdisc, hacc, hmax⟩ := hcarry
      · simp only [hbuf, if_true, hdisc, hacc, hmax]
        by_cases hseen : seen = []
        · simp only [hseen, if_true]
          exact ⟨s, rfl, hempty, rfl, ⟨hdisc, .inr (hacc.trans hseen)⟩, rfl⟩
        · simp only [hseen, if_false]
          exact ⟨_, rfl, hempty, rfl, ⟨rfl, .inl rfl⟩, rfl⟩
      · have hseen : seen ≠ [] := by
          rintro rfl
          exact absurd hmax (Nat.not_lt_zero _)
        have hlong : ¬ seen.length ≤ s.maxLine := Nat.not_le.mpr hmax
        simp only [hbuf, if_true, hdisc, hseen, if_false, hlong]
        exact ⟨_, rfl, hempty, rfl, ⟨rfl, .inr hacc⟩, rfl⟩
    · have hpos : 0 < s.reader.fillBuf.length := List.length_pos_iff.mpr hbuf
      have hlen := length_content (r := s.reader)
      have hsplit := s.reader.content_eq_fillBuf_append
      have hfound : position s.reader.fillBuf = none := by
        rw [position_eq_none_iff]
        intro hmem
        exact hc (hsplit ▸ List.mem_append_left _ hmem)
      have hmore : newline ∉ (s.reader.consume s.reader.fillBuf.length).content := fun h =>
        hc (hsplit ▸ List.mem_append_right _ h)
      have hwhole : seen ++ s.reader.content = (seen ++ s.reader.fillBuf) ++
          (s.reader.consume s.reader.fillBuf.length).content := by
        rw [List.append_assoc, ← hsplit]
      unfold LineSplitter.measure at hfuel
      obtain ⟨hdisc, hacc, hmax⟩ | ⟨hdisc, hacc, hmax⟩ := hcarry
      · by_cases hover : s.maxLine <
            s.acc.length + (position s.reader.fillBuf).getD s.reader.fillBuf.length
        · rw [nextLoop_start_discard hbuf hdisc hover]
          rw [hfound, Option.getD_none, hacc] at hover
          refine ih hc (.inr ⟨by rw [hacc], rfl, ?_⟩) ?_
          · rw [List.length_append, hlen]
            dsimp only
            omega
          · simp only [LineSplitter.measure, hdisc, if_true] at hfuel ⊢
            simp only [reduceCtorEq, if_false]
            omega
        · simp only [hfound, Option.getD_none, Nat.not_lt] at hover
          rw [nextLoop_take_all hbuf hdisc hfound hover, hwhole]
          obtain ⟨s', hs', hrest, hmax', hidle, hconsumed⟩ := ih
            (s := { s with
              acc := s.acc ++ s.reader.fillBuf
              reader := s.reader.consume s.reader.fillBuf.length
              consumed := s.consumed + s.reader.fillBuf.length })
            hmore
            (.inl ⟨hdisc, by rw [hacc], by rw [← hacc, List.length_append]; exact hover⟩)
            (by simp only [LineSplitter.measure, hdisc, if_true] at hfuel ⊢; omega)
          refine ⟨s', hs', hrest, hmax', hidle, ?_⟩
          rw [hconsumed, hlen]
          dsimp only
          omega
      · rw [nextLoop_discard_all hbuf hdisc hfound, hwhole]
        obtain ⟨s', hs', hrest, hmax', hidle, hconsumed⟩ := ih
          (s := { s with
            reader := s.reader.consume s.reader.fillBuf.length
            consumed := s.consumed + s.reader.fillBuf.length
            discarding := some (seen.length + s.reader.fillBuf.length) })
          hmore
          (.inr ⟨by rw [List.length_append], hacc, by rw [← hwhole]; exact hmax⟩)
          (by
            simp only [LineSplitter.measure, hdisc, reduceCtorEq, if_false] at hfuel ⊢
            omega)
        refine ⟨s', hs', hrest, hmax', hidle, ?_⟩
        rw [hconsumed, hlen]
        dsimp only
        omega

/-! ### All calls -/

private theorem clearLent_carries (h : s.Idle) (whole : Bytes) :
    s.clearLent.Carries [] whole := by
  unfold LineSplitter.clearLent
  split
  · exact .inl ⟨h.discarding, rfl, Nat.zero_le _⟩
  · rename_i hlent
    exact .inl ⟨h.discarding, h.acc.resolve_left hlent, Nat.zero_le _⟩

@[simp] theorem LineSplitter.clearLent_reader (s : LineSplitter) :
    s.clearLent.reader = s.reader := by
  unfold LineSplitter.clearLent
  split <;> rfl

@[simp] theorem LineSplitter.clearLent_maxLine (s : LineSplitter) :
    s.clearLent.maxLine = s.maxLine := by
  unfold LineSplitter.clearLent
  split <;> rfl

@[simp] theorem LineSplitter.clearLent_consumed (s : LineSplitter) :
    s.clearLent.consumed = s.consumed := by
  unfold LineSplitter.clearLent
  split <;> rfl

private theorem clearLent_measure (s : LineSplitter) :
    s.clearLent.measure < 2 * s.reader.content.length + 2 := by
  unfold LineSplitter.measure
  rw [LineSplitter.clearLent_reader]
  split <;> omega

theorem LineSplitter.next_terminated {line rest : Bytes} (h : s.Idle)
    (hc : s.reader.content = line ++ newline :: rest) (hline : newline ∉ line) :
    ∃ s' : LineSplitter, s.next = (some (lineRef s.maxLine line), s') ∧
      s'.reader.content = rest ∧ s'.maxLine = s.maxLine ∧ s'.Idle ∧
      s'.consumed = s.consumed + line.length + 1 := by
  have hnext := nextLoop_terminated (s := s.clearLent)
    (by simpa using hc) hline (clearLent_carries h _) (clearLent_measure s)
  simpa [LineSplitter.next] using hnext

theorem LineSplitter.next_last (h : s.Idle) (hc : newline ∉ s.reader.content) :
    ∃ s' : LineSplitter, s.next = (lastRef s.maxLine s.reader.content, s') ∧
      s'.reader.content = [] ∧ s'.maxLine = s.maxLine ∧ s'.Idle ∧
      s'.consumed = s.consumed + s.reader.content.length := by
  have hnext := nextLoop_last (s := s.clearLent) (by simpa using hc)
    (clearLent_carries h _) (clearLent_measure s)
  simpa [LineSplitter.next] using hnext

theorem LineSplitter.drainLoop_eq {σ : Type*} (body : σ → LineRef → σ) {fuel : Nat} (h : s.Idle)
    (hfuel : s.reader.content.length < fuel) (state : σ) :
    ∃ s' : LineSplitter, s.drainLoop body fuel state =
        ((lineRefs s.maxLine (s.reader.content.splitOn newline)).foldl body state, s') ∧
      s'.consumed = s.consumed + s.reader.content.length := by
  induction fuel generalizing s state with
  | zero => exact absurd hfuel (Nat.not_lt_zero _)
  | succ fuel ih =>
    unfold LineSplitter.drainLoop
    cases hp : position s.reader.content with
    | some q =>
      obtain ⟨line, rest, hc, -, hline⟩ := position_eq_some hp
      obtain ⟨s₁, hnext, hrest, hmax, hidle, hconsumed⟩ := next_terminated h hc hline
      have hlen : s.reader.content.length = line.length + 1 + rest.length := by
        rw [hc]
        simp
        omega
      obtain ⟨s', hs', htotal⟩ := ih hidle (by rw [hrest]; omega)
        (body state (lineRef s.maxLine line))
      rw [hnext]
      refine ⟨s', ?_, by rw [htotal, hconsumed, hrest, hlen]; omega⟩
      obtain ⟨piece, pieces, hpieces⟩ := List.exists_cons_of_ne_nil
        (List.splitOn_ne_nil newline rest)
      simp only [hs', hmax, hrest]
      rw [hc, List.splitOn_append_cons_self_of_not_mem hline, hpieces]
      rfl
    | none =>
      have hc := position_eq_none_iff.mp hp
      obtain ⟨s₁, hnext, hrest, hmax, hidle, hconsumed⟩ := next_last h hc
      rw [hnext, List.splitOn_eq_singleton hc, lineRefs]
      cases hlast : lastRef s.maxLine s.reader.content with
      | none => exact ⟨s₁, rfl, hconsumed⟩
      | some item =>
        have hpos : 0 < s.reader.content.length := by
          apply List.length_pos_iff.mpr
          intro hnil
          simp [lastRef, hnil] at hlast
        obtain ⟨s', hs', htotal⟩ := ih hidle (by rw [hrest]; simp; omega) (body state item)
        refine ⟨s', ?_, by rw [htotal, hconsumed, hrest]; rfl⟩
        simp only [hs', hrest]
        rfl

theorem LineSplitter.drain_new {σ : Type*} (body : σ → LineRef → σ) (reader : Reader)
    (maxLine : Nat) (state : σ) :
    ∃ s' : LineSplitter, (LineSplitter.new reader maxLine).drain body state =
        ((lineRefs maxLine (reader.content.splitOn newline)).foldl body state, s') ∧
      s'.consumed = reader.content.length := by
  obtain ⟨s', hs', hconsumed⟩ := drainLoop_eq body (s := LineSplitter.new reader maxLine)
    ⟨rfl, .inr rfl⟩ (Nat.lt_succ_self _) state
  exact ⟨s', hs', by simpa [LineSplitter.new] using hconsumed⟩

end Stroem.LogRead

/-!
# Reads of the archived log

The archive object is decompressed as a stream, so its tails keep a ring of the newest bytes, or
of the newest whole lines of a step.
-/

namespace Stroem.LogRead

structure ArchiveTail where
  logs : Bytes
  truncated : Bool
  decompressed : Nat
  deriving DecidableEq

structure ByteRing where
  ring : Bytes
  total : Nat
  beforeRing : Option UInt8
  deriving DecidableEq

def ByteRing.push (cap : Nat) (r : ByteRing) (buf : Bytes) : ByteRing :=
  let n := buf.length
  let total := r.total + n
  if cap ≤ n then
    { ring := buf.drop (n - cap)
      total := total
      beforeRing :=
        if cap < n then buf[n - cap - 1]?
        else r.ring.getLast?.or r.beforeRing }
  else
    let overflow := r.ring.length + n - cap
    if 0 < overflow then
      { ring := r.ring.drop overflow ++ buf
        total := total
        beforeRing := r.ring[overflow - 1]? }
    else { r with ring := r.ring ++ buf, total := total }

def byteRingTail (reader : Reader) (t : Nat) : Except IoError ArchiveTail :=
  let r := reader.chunks.foldl (ByteRing.push t) ⟨[], 0, none⟩
  let evicted := decide (r.ring.length < r.total)
  let head :=
    if evicted && decide (r.beforeRing ≠ some newline) then
      (position r.ring).elim r.ring.length (· + 1)
    else 0
  let trimmed := trimTorn (r.ring.drop head)
  (utf8 trimmed.1).map fun logs =>
    { logs := logs
      truncated := evicted || trimmed.2
      decompressed := r.total }

structure LineRing where
  ring : Bytes
  truncated : Bool
  deriving DecidableEq

def LineRing.push (json : SerdeJson) (step : Bytes) (cap : Nat) (r : LineRing) :
    LineRef → LineRing
  | .skipped _ => { r with truncated := true }
  | .unterminated _ => { r with truncated := true }
  | .line line =>
    if decide (line = []) || !matchesBytes json line step then r
    else
      let need := line.length + 1
      if cap < need then { ring := [], truncated := true }
      else if cap < r.ring.length + need then
        let mustFree := r.ring.length + need - cap
        let cut := (position (r.ring.drop (mustFree - 1))).elim r.ring.length (mustFree + ·)
        { ring := r.ring.drop cut ++ line ++ [newline], truncated := true }
      else { r with ring := r.ring ++ line ++ [newline] }

def lineRingTail (json : SerdeJson) (reader : Reader) (step : Bytes) (t maxLine : Nat) :
    Except IoError ArchiveTail :=
  let r := (LineSplitter.new reader maxLine).drain (LineRing.push json step t) ⟨[], false⟩
  (utf8 r.1.ring).map fun logs =>
    { logs := logs
      truncated := r.1.truncated
      decompressed := r.2.consumed }

end Stroem.LogRead
