import HttpNest.Proof.ParserStep
import HttpNest.Spec.Session

/-!
# Packets stay within their capacity

`Sound p` is the invariant of a parser that is cleared after its completions: it is
`Unspoiled`, its packet is within its capacity, and a state of the chunked coding
comes with `isChunked_`. It holds in every session (`run_sound`), whatever the bytes.

What can go wrong is a size that is negative as an `int32_t`. `Fits` excludes it for the
three numbers that the code cuts to 32 bits: a content length, a chunk size and the
length of the buffer. `packet_safe`: in a session whose calls all fit, no packet of
negative size is requested, no copy leaves its range, and `size_ <= capacity_`.
-/

namespace HttpNest

open CNumeral ListSearch HttpParser EventRun

variable {p : HttpParser} {b : WfBuffer}

/-- What clearing after completions, and nothing else, keeps. -/
structure Sound (p : HttpParser) : Prop where
  unspoiled : Unspoiled p
  ok : ∀ pk, p.chunk = some pk → pk.Ok
  chunked : p.state = .kExpectChunkLen ∨ p.state = .kExpectChunkBody ∨
    p.state = .kExpectLastEmptyChunk → p.isChunked = true
  streamed : p.state = .kExpectStreamBody → p.isStream = true
  complete : p.state = .kExpectChunkComplete → p.isChunked = true ∨ p.isStream = true

theorem Sound.of_chunked (hu : Unspoiled p) (hok : ∀ pk, p.chunk = some pk → pk.Ok)
    (hc : p.isChunked = true) (hs : p.state ≠ .kExpectStreamBody) : Sound p :=
  ⟨hu, hok, fun _ => hc, fun h => absurd h hs, fun _ => .inl hc⟩

theorem Sound.of_stream (hu : Unspoiled p) (hok : ∀ pk, p.chunk = some pk → pk.Ok)
    (hg : p.isStream = true) (hs : p.state = .kExpectStreamBody ∨ p.state = .kExpectChunkComplete) :
    Sound p := by
  refine ⟨hu, hok, fun h => ?_, fun _ => hg, fun _ => .inr hg⟩
  rcases hs with hs | hs <;> rcases h with h | h | h <;> rw [hs] at h <;> cases h

/-- The other states need no flag. -/
theorem Sound.of_state (hu : Unspoiled p) (hok : ∀ pk, p.chunk = some pk → pk.Ok)
    (hs : p.state = .kExpectHeaders ∨ p.state = .kExpectNormalBody ∨
      p.state = .kExpectHttpComplete ∨ p.state = .kExpectError) : Sound p := by
  refine ⟨hu, hok, fun h => ?_, fun h => ?_, fun h => ?_⟩
  · rcases hs with hs | hs | hs | hs <;> rcases h with h | h | h <;> rw [hs] at h <;> cases h
  · rcases hs with hs | hs | hs | hs <;> rw [hs] at h <;> cases h
  · rcases hs with hs | hs | hs | hs <;> rw [hs] at h <;> cases h

/-- **Calls keep a parser sound.** -/
theorem Sound.outcome (h : Sound p) {p' : HttpParser} {b' : WfBuffer} (ho : Outcome p b p' b') :
    Sound p' := by
  have hu := h.unspoiled.outcome ho
  cases ho with
  | same => exact h
  | rejected _ => exact .of_state hu h.ok (.inr (.inr (.inr rfl)))
  | @framed i r hs _ _ =>
    unfold HttpParser.framed at hu ⊢
    cases hf : r.framing with
    | badLength => rw [hf] at hu; exact .of_state hu h.ok (.inr (.inr (.inr rfl)))
    | noBody => rw [hf] at hu; exact .of_state hu h.ok (.inr (.inr (.inl rfl)))
    | chunked => rw [hf] at hu; exact .of_chunked hu h.ok rfl fun h' => by cases h'
    | stream => rw [hf] at hu; exact .of_stream hu h.ok rfl (.inl rfl)
    | length n =>
      rw [hf] at hu
      by_cases hn : n = 0
      · exact .of_state hu h.ok (.inr (.inr (.inl (if_pos hn))))
      · exact .of_state hu h.ok (.inr (.inl (if_neg hn)))
  | body hf =>
    set p' := p.advance (b.bytes.take (p.packet.taken b.bytes)) with hp'
    -- the packet takes no more than its room
    have hok : ∀ pk, p'.chunk = some pk → pk.Ok := by
      intro pk hpk
      cases hpk
      refine hf.ok.push ?_
      have := hf.ok.taken_le_room b.bytes
      rw [List.length_take]
      omega
    have hst : p'.state = p.state ∨ p'.state = bodyDone p.state := by
      rcases hf.taken b.bytes with ⟨-, hs'⟩ | hs'
      · exact .inl hs'
      · exact .inr hs'
    rcases hf.inBody with hs | hs | hs <;> rw [hs] at hst
    -- a normal body, a stream, a chunk
    · exact .of_state hu hok (by rcases hst with hs' | hs' <;> rw [hs'] <;> simp [bodyDone])
    · exact .of_stream hu hok (h.streamed hs) hst
    · refine .of_chunked hu hok (h.chunked (.inr (.inl hs))) ?_
      rcases hst with hs' | hs' <;> rw [hs'] <;> decide
  | @size i hs hf =>
    refine .of_chunked hu h.ok (h.chunked (.inl hs)) ?_
    simp only [afterSize]
    split_ifs <;> decide
  | last hs _ =>
    refine .of_chunked hu (fun pk hpk => ?_) (h.chunked (.inr (.inr hs))) fun h' => ?_
    · cases hpk
    · cases h'

theorem Sound.init : Sound {} :=
  .of_state (Owned.unspoiled .init) (fun pk hpk => by cases hpk) (.inl rfl)

theorem Sound.clearForNextHttp (p : HttpParser) : Sound p.clearForNextHttp := by
  refine .of_state ⟨fun _ => rfl, fun _ => rfl, fun hs => ?_⟩ (fun pk hpk => ?_) (.inl rfl)
  · rcases hs with hs | hs | hs <;> cases hs
  · cases hpk

/-- After a chunk the parser waits for the next size line or the rest of the stream. -/
theorem Sound.clearForNextChunk (h : Sound p) (hs : p.state = .kExpectChunkComplete) :
    Sound p.clearForNextChunk := by
  unfold HttpParser.clearForNextChunk
  by_cases hc : p.isChunked = true
  · rw [if_pos hc]
    refine .of_chunked ⟨fun h' => ?_, fun _ => rfl, fun h' => ?_⟩ (fun pk hpk => ?_) hc
      fun h' => ?_
    · cases h'
    · rcases h' with h' | h' | h' <;> cases h'
    · cases hpk
    · cases h'
  · have hg := (h.complete hs).resolve_left hc
    rw [if_neg hc, if_pos hg]
    refine .of_stream ?_ (fun pk hpk => ?_) hg (.inl rfl)
    · refine .of_body (.inr (.inl rfl)) rfl ?_ ?_ <;> simp [bodyCapacity, kHttpMaxBodySize]
    · cases hpk

/-! ## Sessions -/

variable {s t : Session}

/-- What a step of a session has done. -/
theorem step_parse (h : Session.step s .parse = some t) :
    ∃ r, parse s.parser s.buf = .ok (r, t.parser, t.buf) := by
  simp only [Session.step] at h
  cases hp : parse s.parser s.buf with
  | error e => rw [hp] at h; cases h
  | ok r =>
    rw [hp] at h
    cases h
    exact ⟨r.1, rfl⟩

theorem step_sound (h : Sound s.parser) (e : Call) (he : Session.step s e = some t) :
    Sound t.parser := by
  cases e with
  | append bs => cases he; exact h
  | parse =>
    obtain ⟨r, hr⟩ := step_parse he
    exact h.outcome (parse_outcome h.unspoiled hr)
  | clearForNextHttp =>
    simp only [Session.step] at he
    split_ifs at he
    cases he
    exact .clearForNextHttp _
  | clearForNextChunk =>
    simp only [Session.step] at he
    split_ifs at he with hs
    cases he
    exact h.clearForNextChunk hs

/-- **The parser of every session is sound.** -/
theorem run_sound {es : List Call} (h : run Session.step (.start b) es = some s) :
    Sound s.parser :=
  run_inv (fun s => Sound s.parser) (fun _ e _ hs he => step_sound hs e he) .init h

/-! ## Sizes that fit -/

/-- The numbers that the next call cuts to `int32_t` stay non-negative: the content
length of a header block, the size of a chunk, the length of the buffer of a body. -/
def Fits (p : HttpParser) (bs : Bytes) : Prop :=
  match p.state with
  | .kExpectHeaders => ∀ i n, find CRLFCRLF bs = some i → blockRequest (bs.take i) ≠ none →
    stoull (storedValue (bs.take i) (ascii "content-length")) = some n → n % 2 ^ 32 < 2 ^ 31
  | .kExpectChunkLen => ∀ i, find CRLF bs = some i → 0 ≤ chunkSize (bs.take i)
  | .kExpectNormalBody | .kExpectStreamBody | .kExpectChunkBody => bs.length % 2 ^ 32 < 2 ^ 31
  | _ => True

def Session.Fits (s : Session) : Call → Prop
  | .parse => HttpNest.Fits s.parser s.buf.bytes
  | _ => True

/-- No packet exceeds its capacity, and the next call neither allocates a negative size
nor copies out of range. -/
structure Session.Safe (s : Session) : Prop where
  size_le : ∀ pk, s.parser.chunk = some pk → pk.packetSize ≤ pk.capacity
  packet : parse s.parser s.buf ≠ .error .negativePacket
  copy : parse s.parser s.buf ≠ .error .copyRange

theorem bodyCapacity_framed {r : HttpRequest} (hs : (p.framed r).InBody) :
    (p.framed r).bodyCapacity = kHttpMaxBodySize ∨
      r.framing = .length (p.framed r).bodyCapacity := by
  unfold HttpParser.framed at hs ⊢
  cases hf : r.framing with
  | badLength => rw [hf] at hs; rcases hs with hs | hs | hs <;> cases hs
  | noBody => rw [hf] at hs; rcases hs with hs | hs | hs <;> cases hs
  | chunked => rw [hf] at hs; rcases hs with hs | hs | hs <;> cases hs
  | stream => exact .inl rfl
  | length n =>
    right
    by_cases hn : n = 0
    · rw [hf] at hs
      simp [InBody, hn] at hs
    · simp [bodyCapacity, hn]

/-- **Calls that fit allocate no negative size.** -/
theorem filling_of_fits (h : Sound p) (hbody : p.InBody → p.Filling) (hfits : Fits p b.bytes)
    {p' : HttpParser} {b' : WfBuffer} (ho : Outcome p b p' b') (hs' : p'.InBody) : p'.Filling := by
  have hu := h.unspoiled.outcome ho
  rcases hu.body hs' with hf | ⟨hc, hneg⟩
  · exact hf
  exfalso
  unfold Fits at hfits
  cases ho with
  | same =>
    -- the parser was filling, so its capacity is not negative
    have := (hbody hs').ok.size_le
    rw [packet, hc] at this
    simp only [Option.getD_none, Packet.packetSize, List.length_nil] at this
    omega
  | rejected _ => rcases hs' with hs' | hs' | hs' <;> cases hs'
  | @framed i r hs hf hr =>
    rw [hs] at hfits
    rcases bodyCapacity_framed hs' with hcap | hlen
    -- a stream has a fixed capacity, any other body the announced one
    · rw [hcap] at hneg
      omega
    · obtain ⟨m, hm, hcap⟩ := HttpRequest.framing_length hlen
      rw [getHeader_blockRequest hr toLower_contentLength] at hm
      have hlt := hfits i m hf (by rw [hr]; simp) hm
      have := toInt32_nonneg.2 hlt
      omega
  -- a body call makes a packet, so no capacity is left to ask for
  | body hf => cases hc
  | @size i hs hf =>
    rw [hs] at hfits
    have hnn := hfits i hf
    -- only a size that is not zero leads into the body, and it is the capacity
    have hst : (afterSize p (chunkSize (b.bytes.take i))).state = .kExpectChunkBody := by
      simp only [InBody, afterSize] at hs' ⊢
      split_ifs at hs' ⊢ <;> simp at hs' ⊢
    rw [bodyCapacity, hst] at hneg
    exact absurd hneg (not_lt.2 hnn)
  | last _ _ => rcases hs' with hs' | hs' | hs' <;> cases hs'

/-- A call that fits does not fault, but for a null request. -/
theorem parse_ne_error (h : Sound p) (hbody : p.InBody → p.Filling) (hfits : Fits p b.bytes)
    {e : Fault} (he : parse p b = .error e) : e = .nullRequest := by
  by_cases hb : b.bytes = []
  · rw [parse_empty hb] at he
    cases he
  -- a filling parser faults only where the length of the buffer is negative as an `int32_t`
  have hfill : p.InBody → e = .nullRequest := by
    intro hs
    have hlen : b.bytes.length % 2 ^ 32 < 2 ^ 31 := by
      unfold Fits at hfits
      rcases hs with hs | hs | hs <;> rw [hs] at hfits <;> exact hfits
    rw [parse_body (hbody hs) hb, if_neg (not_lt.2 (toInt32_nonneg.2 hlen))] at he
    cases he
  have hstuck : Stuck p.state → e = .nullRequest := by
    intro hs
    rw [parse_stuck hs] at he
    cases he
  cases hs : p.state with
  | kExpectHeaders =>
    rcases terminator_cases b with ⟨hle, hno⟩ | ⟨hgt, hf⟩ | ⟨i, h4, hf⟩
    · rw [parse_headers_wait hs hb hle hno] at he
      cases he
    · rw [parse_headers_long hs hgt hf] at he
      cases he
    · cases hr : blockRequest (b.bytes.take i) with
      | some r =>
        rw [parse_headers_request hs h4 hf hr] at he
        cases he
      | none =>
        rw [parse_headers_malformed hs (h.unspoiled.request hs) h4 hf hr] at he
        split_ifs at he
        cases he
        rfl
  | kExpectChunkLen =>
    rw [parse_chunkLen hs hb] at he
    cases he
  | kExpectLastEmptyChunk =>
    rw [parse_lastEmpty hs hb] at he
    cases he
  | kExpectNormalBody => exact hfill (.inl hs)
  | kExpectStreamBody => exact hfill (.inr (.inl hs))
  | kExpectChunkBody => exact hfill (.inr (.inr hs))
  | kExpectHttpComplete => exact hstuck (.inl hs)
  | kExpectChunkComplete => exact hstuck (.inr (.inl hs))
  | kExpectContinue => exact hstuck (.inr (.inr (.inl hs)))
  | kExpectError => exact hstuck (.inr (.inr (.inr hs)))

/-- **Sizes that fit are safe.** Whatever bytes a parser is fed, in whatever pieces: if
the numbers that each call cuts to 32 bits stay non-negative, no packet of negative
size is requested, every copy stays within its source and its packet, and no packet
exceeds its capacity. -/
theorem packet_safe {es : List Call} (hfits : Meets Session.step Session.Fits (.start b)
    (es ++ [.parse])) (h : run Session.step (.start b) es = some s) : s.Safe := by
  have hsound := run_sound h
  have hbody : s.parser.InBody → s.parser.Filling := by
    refine run_inv_of_meets (fun s => Sound s.parser ∧ (s.parser.InBody → s.parser.Filling)) ?_
      ⟨Sound.init, fun hs => by rcases hs with hs | hs | hs <;> cases hs⟩ hfits.append_left h |>.2
    rintro s e t ⟨hs, hb⟩ hfit he
    refine ⟨step_sound hs e he, ?_⟩
    cases e with
    | append bs => cases he; exact hb
    | parse =>
      obtain ⟨r, hr⟩ := step_parse he
      exact filling_of_fits hs hb hfit (parse_outcome hs.unspoiled hr)
    | clearForNextHttp =>
      simp only [Session.step] at he
      split_ifs at he
      cases he
      intro hs'
      rcases hs' with hs' | hs' | hs' <;> cases hs'
    | clearForNextChunk =>
      have hs' := step_sound hs _ he
      simp only [Session.step] at he
      split_ifs at he
      cases he
      intro hin
      refine (hs'.unspoiled.body hin).resolve_right fun hneg => ?_
      -- a cleared parser in a body state is a stream's
      unfold HttpParser.clearForNextChunk at hin hneg
      split_ifs at hin hneg
      · rcases hin with hin | hin | hin <;> cases hin
      · simp [bodyCapacity, kHttpMaxBodySize] at hneg
      · rcases hin with hin | hin | hin <;> cases hin
  have hfit : Fits s.parser s.buf.bytes := (hfits.append_right h).1
  refine ⟨fun pk hpk => (hsound.ok pk hpk).size_le, fun he => ?_, fun he => ?_⟩
  · cases parse_ne_error hsound hbody hfit he
  · cases parse_ne_error hsound hbody hfit he

/-- A content length of `2^32 - 1` is `-1` as an `int32_t`, and the size of a packet. -/
theorem packet_unsafe : ¬ ∀ es s, run Session.step (.start (.new 1024 (by decide))) es = some s →
    s.Safe := by
  intro h
  have hfault : (run Session.step (.start (.new 1024 (by decide)))
      [.append (ascii "POST / HTTP/1.1\r\nContent-Length: 4294967295\r\n\r\nabc"), .parse]).map
      (fun s => match parse s.parser s.buf with
        | .error e => some e
        | .ok _ => none) = some (some .negativePacket) := by
    decide +kernel
  obtain ⟨s, hs, hparse⟩ := Option.map_eq_some_iff.1 hfault
  have hsafe := (h _ s hs).packet
  cases he : parse s.parser s.buf with
  | ok r => rw [he] at hparse; cases hparse
  | error e =>
    rw [he] at hparse hsafe
    cases hparse
    exact hsafe rfl

/-- A header block with the length of its three body bytes. -/
theorem packet_safe_post : Session.Safe ⟨{}, (WfBuffer.new 1024 (by decide)).append
    (ascii "POST / HTTP/1.1\r\nContent-Length: 3\r\n\r\nabc")⟩ := by
  have hfits : Meets Session.step Session.Fits (.start (.new 1024 (by decide)))
      ([.append (ascii "POST / HTTP/1.1\r\nContent-Length: 3\r\n\r\nabc")] ++ [.parse]) := by
    refine ⟨trivial, fun s hs => ?_⟩
    cases hs
    refine ⟨fun i n hi _ hn => ?_, fun _ _ => trivial⟩
    rw [Session.start, WfBuffer.bytes_append, WfBuffer.bytes_new, List.nil_append] at hi hn
    have hfind : find CRLFCRLF (ascii "POST / HTTP/1.1\r\nContent-Length: 3\r\n\r\nabc") =
        some 34 := by decide +kernel
    cases hfind.symm.trans hi
    have hstored : stoull (storedValue ((ascii
        "POST / HTTP/1.1\r\nContent-Length: 3\r\n\r\nabc").take 34) (ascii "content-length")) =
        some 3 := by decide +kernel
    cases hstored.symm.trans hn
    decide
  exact packet_safe hfits rfl

end HttpNest
