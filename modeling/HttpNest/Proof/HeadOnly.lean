import HttpNest.Proof.ContextLoop
import HttpNest.Spec.Exchange

/-!
# A message without a body, at one end of a connection

A `HeadOnly` message ends with its header block. It is taken by one turn of the loop in `Parse`,
if the terminator is there when the loop is entered. Else the loop is entered with more than one
byte and no terminator: it is never left, and nothing is read any more (`Spinning`).

`Receiving m c incoming` is the context while the message arrives, whatever the pieces are.
-/

namespace HttpNest

open ListSearch HttpParser

/-- A header block, without its `CRLFCRLF`, that says there is no body. -/
structure HeadOnly where
  block : Bytes
  request : HttpRequest
  terminator : find CRLFCRLF (block ++ CRLFCRLF) = some block.length
  blockRequest_eq : blockRequest block = some request
  no_body : request.framing = .noBody ∨ request.framing = .length 0

namespace HeadOnly

def bytes (m : HeadOnly) : Bytes := m.block ++ CRLFCRLF

variable {m : HeadOnly} {p : HttpParser}

theorem four_lt (m : HeadOnly) : 4 < m.bytes.length := by
  have hpos := List.length_pos_iff.2 (block_ne_nil m.blockRequest_eq)
  have hlen : CRLFCRLF.length = 4 := rfl
  rw [bytes, List.length_append, hlen]
  omega

/-- The block completes the message. -/
theorem framed_complete (m : HeadOnly) (p : HttpParser) :
    (p.framed m.request).state = .kExpectHttpComplete ∧ (p.framed m.request).req = p.req ∧
      (p.framed m.request).chunk = p.chunk := by
  rcases m.no_body with h | h <;> rw [framed, h] <;> exact ⟨rfl, rfl, rfl⟩

/-- A part of the message has no terminator. -/
theorem no_terminator {A : Bytes} (hA : A <+: m.bytes) (hlt : A.length < m.bytes.length) :
    find CRLFCRLF A = none := by
  have hprefix : A <+: m.block ++ CRLFCRLF ++ [] := by rwa [List.append_nil]
  rw [find_terminator_front m.terminator hprefix]
  exact if_neg (not_le.2 hlt)

end HeadOnly

/-- The loop runs with bytes that it cannot take, and nothing has been reported. -/
structure Spinning (c : HttpContext) : Prop where
  guard : 1 < c.buf.bytes.length
  requests : c.requests = []
  state : c.httpParser.state = .kExpectError ∨
    c.httpParser.state = .kExpectHeaders ∧ find CRLFCRLF c.buf.bytes = none

inductive Receiving (m : HeadOnly) (c : HttpContext) (incoming : Bytes) : Prop
  | waiting : c.httpParser = {} → c.requests = [] → c.closed = false →
    c.buf.bytes ++ incoming = m.bytes → c.buf.bytes.length ≤ 1 → Receiving m c incoming
  | arrived : c.httpParser = {} → c.requests = [] → c.closed = false → c.buf.bytes = m.bytes →
    incoming = [] → Receiving m c incoming
  | taken : c.requests = [(some m.request, none)] → c.buf.bytes = [] → incoming = [] →
    Receiving m c incoming
  | spinning : Spinning c → Receiving m c incoming

/-- A context that nothing has been read into. -/
structure Untouched (c : HttpContext) : Prop where
  parser : c.httpParser = {}
  requests : c.requests = []
  closed : c.closed = false
  empty : c.buf.bytes = []

theorem Untouched.new (headerSent : Bool) : Untouched (HttpEnd.new headerSent).context :=
  ⟨rfl, rfl, rfl, WfBuffer.bytes_new 2048 (by decide)⟩

variable {m : HeadOnly} {e e' : HttpEnd} {c : HttpContext} {incoming rest : Bytes} {n : ℕ}

theorem Untouched.receiving (h : Untouched c) : Receiving m c m.bytes :=
  .waiting h.parser h.requests h.closed (by rw [h.empty, List.nil_append]) (by simp [h.empty])

/-! ## Reads -/

/-- What a read has done. -/
theorem of_read (h : e.read incoming n = some (e', rest)) :
    e.context.buf.bytes.length ≤ 1 ∧ 0 < n ∧ n ≤ incoming.length ∧
      e' = { e with context := HttpContext.loop.recv e.context (incoming.take n) } ∧
      rest = incoming.drop n := by
  unfold HttpEnd.read at h
  split_ifs at h with hno
  rw [not_or, not_or, not_or, Bool.not_eq_true, loop_guard_false] at hno
  obtain ⟨hguard, -, hpos, hle⟩ := hno
  cases h
  exact ⟨hguard, by omega, by omega, rfl, rfl⟩

/-- Nothing is read where nothing is on the way. -/
theorem read_nil : e.read [] n = none := by
  unfold HttpEnd.read
  rw [if_pos]
  simp only [List.length_nil]
  omega

theorem Spinning.read_none (h : Spinning e.context) : e.read incoming n = none := by
  unfold HttpEnd.read
  rw [if_pos (.inl (loop_guard.2 h.guard))]

/-- All that is on the way can be read where the loop has been left. -/
theorem exists_read (hbuf : e.context.buf.bytes.length ≤ 1) (hclosed : e.context.closed = false)
    (hne : incoming ≠ []) : (e.read incoming incoming.length).isSome := by
  have hpos := List.length_pos_iff.2 hne
  have hguard : ¬ HttpContext.loop.guard e.context = true := by rw [loop_guard]; omega
  unfold HttpEnd.read
  rw [if_neg (by simp only [hguard, hclosed]; simp; omega)]
  rfl

/-- **A read leaves the message on its way exactly if it is whole.** -/
theorem Receiving.read (h : Receiving m e.context incoming)
    (hr : e.read incoming n = some (e', rest)) : ¬ Spinning e.context ∧
      Receiving m e'.context rest ∧ e'.poster = e.poster ∧ e.context.requests = [] ∧
      e'.context.requests = [] ∧ e'.context.buf.bytes.length = e.context.buf.bytes.length + n ∧
      (Spinning e'.context ↔ ¬ (e.context.buf.bytes.length + n ≤ 1 ∨ n = incoming.length)) := by
  obtain ⟨hguard, hpos, hle, rfl, rfl⟩ := of_read hr
  have hnot : ¬ Spinning e.context := fun hs => absurd hs.guard (by omega)
  cases h with
  | spinning hs => exact absurd hs hnot
  | arrived _ _ _ hbuf _ =>
    have hlt := m.four_lt
    rw [hbuf] at hguard
    omega
  | taken _ _ hin =>
    rw [hin, List.length_nil] at hle
    omega
  | waiting hparser hreq hclosed hsplit hbuf =>
    have hbytes : (HttpContext.loop.recv e.context (incoming.take n)).buf.bytes =
        e.context.buf.bytes ++ incoming.take n := WfBuffer.bytes_append ..
    have hlen : (HttpContext.loop.recv e.context (incoming.take n)).buf.bytes.length =
        e.context.buf.bytes.length + n := by
      rw [hbytes, List.length_append, List.length_take, min_eq_left hle]
    have htotal : e.context.buf.bytes.length + incoming.length = m.bytes.length := by
      rw [← hsplit, List.length_append]
    have hparts : (HttpContext.loop.recv e.context (incoming.take n)).buf.bytes ++
        incoming.drop n = m.bytes := by
      rw [hbytes, List.append_assoc, List.take_append_drop, hsplit]
    by_cases hone : e.context.buf.bytes.length + n ≤ 1
    · refine ⟨hnot, .waiting hparser hreq hclosed hparts (by rw [hlen]; exact hone), rfl, hreq,
        hreq, hlen, fun hs => ?_, fun hno => absurd (.inl hone) hno⟩
      have hgt := hs.guard
      rw [hlen] at hgt
      omega
    by_cases hall : n = incoming.length
    · have hdrop : incoming.drop n = [] := by rw [hall, List.drop_length]
      rw [hdrop, List.append_nil] at hparts
      refine ⟨hnot, .arrived hparser hreq hclosed hparts hdrop, rfl, hreq, hreq, hlen,
        fun hs => ?_, fun hno => absurd (.inr hall) hno⟩
      rcases hs.state with hstate | ⟨-, hnone⟩
      · have hstate' : e.context.httpParser.state = .kExpectError := hstate
        rw [hparser] at hstate'
        cases hstate'
      · rw [hparts, HeadOnly.bytes, m.terminator] at hnone
        cases hnone
    -- the terminator is not among the bytes
    · have hspinning : Spinning (HttpContext.loop.recv e.context (incoming.take n)) := by
        refine ⟨by rw [hlen]; omega, hreq, .inr ⟨?_, ?_⟩⟩
        · show e.context.httpParser.state = _
          rw [hparser]
        · exact HeadOnly.no_terminator ⟨_, hparts⟩ (by rw [hlen]; omega)
      exact ⟨hnot, .spinning hspinning, rfl, hreq, hreq, hlen, fun _ => not_or.2 ⟨hone, hall⟩,
        fun _ => hspinning⟩

/-! ## Turns -/

/-- **A loop that spins goes on for good**, and reports nothing. -/
theorem Spinning.turn (h : Spinning c) : ∃ c', c.turn = .ok c' ∧ Spinning c' := by
  have hne : c.buf.bytes ≠ [] := List.ne_nil_of_length_pos (by have := h.guard; omega)
  rcases h.state with hs | ⟨hs, hf⟩
  · have hstuck : Stuck c.httpParser.state := .inr (.inr (.inr hs))
    obtain ⟨c', hc', hp, hb, hreq⟩ := turn_of_parse (parse_stuck (b := c.buf) hstuck) (.inl rfl)
    rw [hs, if_neg (by decide)] at hreq
    exact ⟨c', hc', by rw [hb]; exact h.guard, hreq.trans h.requests, .inl (by rw [hp]; exact hs)⟩
  · rcases le_or_gt c.buf.bytes.length kHttpMaxBodySize with hle | hgt
    · obtain ⟨c', hc', hp, hb, hreq⟩ := turn_of_parse
        (parse_headers_wait hs hne hle (.inr hf)) (.inr ⟨rfl, hs⟩)
      rw [hs, if_neg (by decide)] at hreq
      exact ⟨c', hc', by rw [hb]; exact h.guard, hreq.trans h.requests,
        .inr ⟨by rw [hp]; exact hs, by rw [hb]; exact hf⟩⟩
    -- the block has got too long
    · obtain ⟨c', hc', hp, hb, hreq⟩ := turn_of_parse (parse_headers_long hs hgt hf) (.inl rfl)
      rw [if_neg (by simp [fail])] at hreq
      exact ⟨c', hc', by rw [hb]; exact h.guard, hreq.trans h.requests, .inl (by rw [hp]; rfl)⟩

/-- One turn takes the message. -/
theorem turn_arrived (hparser : c.httpParser = {}) (hreq : c.requests = [])
    (hbuf : c.buf.bytes = m.bytes) :
    ∃ c', c.turn = .ok c' ∧ c'.requests = [(some m.request, none)] ∧ c'.buf.bytes = [] := by
  have hs : c.httpParser.state = .kExpectHeaders := by rw [hparser]
  have hprefix : c.buf.bytes <+: m.block ++ CRLFCRLF ++ [] := by
    rw [hbuf, List.append_nil]
    exact List.prefix_rfl
  have hparse := parse_block hs m.terminator m.blockRequest_eq hprefix (by rw [hbuf]; exact le_rfl)
  obtain ⟨hstate, hr, hchunk⟩ := m.framed_complete { c.httpParser with
    header := m.block, isRequest := m.request.isRequest, req := some m.request }
  obtain ⟨c', hc', hp, hb, hrequests⟩ := turn_of_parse hparse (.inl rfl)
  rw [if_pos (.inl hstate), hreq, hr, hchunk, hparser] at hrequests
  refine ⟨c', hc', hrequests, ?_⟩
  rw [hb, WfBuffer.bytes_retrieve, hbuf]
  exact List.drop_length

variable (res : HttpRequest)

theorem Spinning.endTurn (h : Spinning e.context) : ∃ e', e.turn res = .ok (e', []) ∧
    Spinning e'.context ∧ e'.poster = e.poster := by
  obtain ⟨c', hc', hs⟩ := h.turn
  refine ⟨⟨c', e.poster⟩, ?_, hs, rfl⟩
  rw [HttpEnd.turn, hc', h.requests]
  simp only [bind, Except.bind]
  rw [hs.requests]
  rfl

theorem Spinning.of_endTurn {sent : Bytes} (h : Spinning e.context)
    (he : e.turn res = .ok (e', sent)) : Spinning e'.context := by
  obtain ⟨f, hf, hspinning, -⟩ := h.endTurn res
  rw [hf] at he
  cases he
  exact hspinning

/-- A completed write leaves the context as it is. -/
theorem Spinning.writeComplete (h : Spinning e.context) : Spinning e.writeComplete.1.context := by
  unfold HttpEnd.writeComplete
  split <;> exact h

/-- What the handler answers to the message, and the poster behind it. -/
def HeadOnly.reply (m : HeadOnly) (res : HttpRequest) (c : HttpPoster) : HttpPoster × Bytes :=
  if m.request.isRequest then (c.post res).getD (c, []) else (c, [])

/-- The turn that takes the message calls the handler. -/
theorem endTurn_arrived (hparser : e.context.httpParser = {}) (hreq : e.context.requests = [])
    (hbuf : e.context.buf.bytes = m.bytes) : ∃ c',
      e.turn res = .ok (⟨c', (m.reply res e.poster).1⟩, (m.reply res e.poster).2) ∧
        c'.requests = [(some m.request, none)] ∧ c'.buf.bytes = [] := by
  obtain ⟨c', hc', hrequests, hnil⟩ := turn_arrived hparser hreq hbuf
  refine ⟨c', ?_, hrequests, hnil⟩
  rw [HttpEnd.turn, hc', hreq]
  simp only [bind, Except.bind]
  rw [hrequests]
  rfl

/-- **A turn reports the message, or the loop spins.** -/
theorem Receiving.turn (h : Receiving m e.context incoming)
    (hguard : HttpContext.loop.guard e.context = true) :
    (Spinning e.context ∧ ∃ e', e.turn res = .ok (e', []) ∧ Spinning e'.context ∧
      e'.poster = e.poster) ∨
    e.context.requests = [] ∧ e.context.buf.bytes = m.bytes ∧ incoming = [] ∧
      ¬ Spinning e.context ∧ ∃ c',
        e.turn res = .ok (⟨c', (m.reply res e.poster).1⟩, (m.reply res e.poster).2) ∧
          c'.requests = [(some m.request, none)] ∧ c'.buf.bytes = [] := by
  rw [loop_guard] at hguard
  cases h with
  | waiting _ _ _ _ hbuf => omega
  | taken _ hbuf _ =>
    rw [hbuf] at hguard
    cases hguard
  | spinning hs => exact .inl ⟨hs, hs.endTurn res⟩
  | arrived hparser hreq _ hbuf hin =>
    refine .inr ⟨hreq, hbuf, hin, fun hs => ?_, endTurn_arrived res hparser hreq hbuf⟩
    rcases hs.state with hstate | ⟨-, hnone⟩
    · rw [hparser] at hstate
      cases hstate
    · rw [hbuf, HeadOnly.bytes, m.terminator] at hnone
      cases hnone

/-- A turn of a loop that runs does not fault. -/
theorem Receiving.turn_isOk (h : Receiving m e.context incoming)
    (hguard : HttpContext.loop.guard e.context = true) : ∃ r, e.turn res = .ok r := by
  rcases h.turn res hguard with ⟨-, e', he', -⟩ | ⟨-, -, -, -, c', hc', -⟩
  · exact ⟨_, he'⟩
  · exact ⟨_, hc'⟩

end HttpNest
