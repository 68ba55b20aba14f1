import HttpNest.Proof.Reset
import HttpNest.Spec.Reads

/-!
# The packets of a body without an end

A parser that has entered `kExpectStreamBody` fills packets of `kHttpMaxBodySize` bytes. Of
what has arrived, the packets taken are the front, the packet in `chunk_` follows, and the
buffer holds the rest (`Exact`). One step keeps this (`Slicing.step`), unless `Parse` finds so
much in the buffer that its length is negative as an `int`.
-/

namespace HttpNest

open CNumeral ListSearch HttpParser EventRun

/-- What is in `chunk_`. -/
def StreamReader.pending (r : StreamReader) : Bytes := (r.parser.chunk.map Packet.data).getD []

/-- Every packet taken is full, and no byte is lost or read twice. -/
def StreamReader.Exact (r : StreamReader) : Prop :=
  (∀ pk ∈ r.delivered, pk.data.length = kHttpMaxBodySize) ∧
    r.delivered.flatMap Packet.data ++ r.pending ++ r.buf.bytes = r.received

/-- `(int)buf.ReadableBytes()` is not negative where the packet is filled. -/
def StreamReader.Uncut (r : StreamReader) : StreamEvent → Prop
  | .parse => r.parser.state = .kExpectStreamBody → 0 ≤ toInt32 r.buf.bytes.length
  | _ => True

/-- A parser between two packets of a stream, or with a packet that is full. -/
inductive Slicing (p : HttpParser) : Prop
  | filling : p.Filling → p.state = .kExpectStreamBody → p.packet.capacity = kHttpMaxBodySize →
    Slicing p
  | full {data : Bytes} : p.state = .kExpectChunkComplete →
    p.chunk = some ⟨kHttpMaxBodySize, data⟩ → data.length = kHttpMaxBodySize → Slicing p

/-- The invariant of the runs. -/
structure StreamReader.Inv (r : StreamReader) : Prop where
  stream : r.parser.isChunked = false ∧ r.parser.isStream = true
  slicing : Slicing r.parser
  exact' : r.Exact

variable {r : StreamReader} {p : HttpParser} {b b₀ : WfBuffer}

/-- A stream state without a packet has all its room. -/
theorem Slicing.fresh (hs : p.state = .kExpectStreamBody) (hc : p.chunk = none) : Slicing p := by
  have hcap : p.bodyCapacity = kHttpMaxBodySize := by rw [bodyCapacity, hs]
  have hf : p.Filling := by
    refine filling_of_chunk_none (.inr (.inl hs)) hc ?_ ?_ <;> rw [hcap] <;> decide
  refine .filling hf hs ?_
  rw [packet, hc]
  exact hcap

/-- The packet holds what is pending. -/
theorem data_packet (p : HttpParser) : p.packet.data = (p.chunk.map Packet.data).getD [] := by
  unfold packet
  cases p.chunk <;> rfl

theorem StreamReader.step_parse {st : HttpParserState}
    (h : HttpParser.parse r.parser r.buf = .ok (st, p, b)) :
    r.step .parse = some { r with parser := p, buf := b } := by
  rw [StreamReader.step, h]

/-- A call moves bytes from the buffer to the packet. -/
theorem StreamReader.Inv.parse (h : r.Inv) (hc : StreamReader.Uncut r .parse) :
    ∃ r', r.step .parse = some r' ∧ r'.Inv := by
  by_cases hb : r.buf.bytes = []
  · exact ⟨r, StreamReader.step_parse (parse_empty hb), h⟩
  cases h.slicing with
  | full hs _ _ => exact ⟨r, StreamReader.step_parse (parse_stuck (.inr (.inl hs))), h⟩
  | filling hf hs hcap =>
    have hparse := parse_body hf hb
    rw [if_neg (not_lt.2 (hc hs))] at hparse
    set bs := r.buf.bytes.take (r.parser.packet.taken r.buf.bytes)
    have hlen : bs.length = r.parser.packet.taken r.buf.bytes :=
      r.parser.packet.length_take_taken r.buf.bytes
    refine ⟨_, StreamReader.step_parse hparse, h.stream, ?_, h.exact'.1, ?_⟩
    · -- the packet is full exactly if the bytes taken use up its room
      rcases (hf.ok.taken_le_room r.buf.bytes).lt_or_eq with hlt | heq
      · obtain ⟨hf', hs'⟩ := hf.advance bs (by omega)
        exact .filling hf' (hs'.trans hs) hcap
      · have hroom := hf.ok.room_add
        refine @Slicing.full _ (r.parser.packet.data ++ bs) ?_ ?_ ?_
        · rw [advance_state, if_pos (by omega), hs]
          rfl
        · rw [advance_chunk, Packet.push, hcap]
        · rw [List.length_append]
          omega
    · have hexact := h.exact'.2
      rw [StreamReader.pending, ← data_packet] at hexact
      rw [StreamReader.pending, advance_chunk, WfBuffer.bytes_retrieve, Option.map_some,
        Option.getD_some, Packet.push]
      simp only [List.append_assoc] at hexact ⊢
      rw [List.take_append_drop, hexact]

/-- The packet that is taken is the one that is full. -/
theorem StreamReader.Inv.take (h : r.Inv) : ∃ r', r.step .take = some r' ∧ r'.Inv := by
  by_cases hs : r.parser.state = .kExpectChunkComplete
  swap
  · exact ⟨r, if_neg hs, h⟩
  cases h.slicing with
  | filling _ hs' _ =>
    rw [hs] at hs'
    cases hs'
  | @full data _ hchunk hlen =>
    obtain ⟨hchunked, hstream⟩ := h.stream
    have hclear : r.parser.clearForNextChunk =
        { r.parser with state := .kExpectStreamBody, chunk := none } := by
      simp [clearForNextChunk, hchunked, hstream]
    refine ⟨_, if_pos hs, ?_, ?_, ?_, ?_⟩
    · rw [hclear]
      exact h.stream
    · rw [hclear]
      exact .fresh rfl rfl
    · intro pk hpk
      rw [hchunk, Option.toList_some, List.mem_append, List.mem_singleton] at hpk
      rcases hpk with hpk | rfl
      · exact h.exact'.1 pk hpk
      · exact hlen
    · have hexact := h.exact'.2
      rw [StreamReader.pending, hchunk] at hexact
      rw [StreamReader.pending, hclear, hchunk]
      simpa using hexact

theorem StreamReader.Inv.append (h : r.Inv) (bs : Bytes) :
    ∃ r', r.step (.append bs) = some r' ∧ r'.Inv := by
  refine ⟨_, rfl, h.stream, h.slicing, h.exact'.1, ?_⟩
  rw [WfBuffer.bytes_append, ← h.exact'.2]
  simp only [StreamReader.pending, List.append_assoc]

/-- **A step keeps the invariant**, unless the length is cut to a negative number. -/
theorem StreamReader.Inv.step (h : r.Inv) {e : StreamEvent} (hc : StreamReader.Uncut r e) :
    ∃ r', r.step e = some r' ∧ r'.Inv := by
  cases e with
  | append bs => exact h.append bs
  | parse => exact h.parse hc
  | take => exact h.take

/-- A negative length goes to `memcpy`. -/
theorem StreamReader.Inv.step_of_cut (h : r.Inv) {e : StreamEvent} (hc : ¬ StreamReader.Uncut r e) :
    r.step e = none := by
  cases e with
  | append bs => exact absurd trivial hc
  | take => exact absurd trivial hc
  | parse =>
    obtain ⟨hs, hneg⟩ := Classical.not_imp.1 hc
    have hb : r.buf.bytes ≠ [] := by
      intro hb
      rw [hb] at hneg
      exact hneg (by decide)
    cases h.slicing with
    | full hs' _ _ =>
      rw [hs] at hs'
      cases hs'
    | filling hf _ _ =>
      have hparse := parse_body hf hb
      rw [if_pos (not_le.1 hneg)] at hparse
      rw [StreamReader.step, hparse]

/-- No other framing leads to the stream state. -/
theorem framing_of_streamBody {q : HttpParser} {req : HttpRequest}
    (h : (q.framed req).state = .kExpectStreamBody) : req.framing = .stream := by
  unfold HttpParser.framed at h
  cases hf : req.framing with
  | stream => rfl
  | length n =>
    simp only [hf] at h
    split_ifs at h
  | badLength => simp [hf, fail] at h
  | chunked => simp [hf] at h
  | noBody => simp [hf] at h

/-- The state behind the header block of a body without an end. -/
theorem inv_of_entered (h : parse {} b₀ = .ok (.kExpectStreamBody, p, b)) :
    StreamReader.Inv ⟨p, b, b.bytes, []⟩ := by
  have hb : b₀.bytes ≠ [] := by
    intro hb
    rw [parse_empty hb] at h
    cases h
  rcases terminator_cases b₀ with ⟨hle, hno⟩ | ⟨hgt, hf⟩ | ⟨i, h4, hf⟩
  · rw [parse_headers_wait rfl hb hle hno] at h
    cases h
  · rw [parse_headers_long rfl hgt hf] at h
    cases h
  cases hr : blockRequest (b₀.bytes.take i) with
  | none =>
    rw [parse_headers_malformed rfl rfl h4 hf hr] at h
    split_ifs at h
    cases h
  | some req =>
    rw [parse_headers_request rfl h4 hf hr] at h
    have hret := Except.ok.inj h
    have hst := congrArg Prod.fst hret
    have hp := congrArg (fun x => x.2.1) hret
    have hstream := framing_of_streamBody hst
    simp only [returned, framed, hstream] at hp
    subst hp
    refine ⟨⟨rfl, rfl⟩, .fresh rfl rfl, ?_, rfl⟩
    intro pk hpk
    cases hpk

/-- **Packets are cut without loss exactly as long as no length is cut to a negative number**,
whatever the pieces in which the body arrives and however often `Parse` is called. -/
theorem sliced_iff (h : parse {} b₀ = .ok (.kExpectStreamBody, p, b)) (es : List StreamEvent) :
    Lasts StreamReader.step StreamReader.Exact ⟨p, b, b.bytes, []⟩ es ↔
      Meets StreamReader.step StreamReader.Uncut ⟨p, b, b.bytes, []⟩ es :=
  lasts_iff_meets StreamReader.Inv (fun _ hr => hr.exact') (fun _ _ hr hc => hr.step hc)
    (fun _ _ hr hc => hr.step_of_cut hc) (inv_of_entered h)

theorem stream_entered : ∃ p b, p.state = .kExpectStreamBody ∧ b.bytes = [] ∧
    parse {} (holding (ascii "POST / HTTP/1.1\r\n\r\n")) = .ok (.kExpectStreamBody, p, b) := by
  have hbytes := bytes_holding (ascii "POST / HTTP/1.1\r\n\r\n")
  have hf : find CRLFCRLF (ascii "POST / HTTP/1.1\r\n\r\n") = some 15 := by decide +kernel
  have hframing : (blockRequest ((ascii "POST / HTTP/1.1\r\n\r\n").take 15)).map
      HttpRequest.framing = some .stream := by decide +kernel
  obtain ⟨r, hr, hstream⟩ := Option.map_eq_some_iff.1 hframing
  have hparse := parse_headers_request (p := {})
    (b := holding (ascii "POST / HTTP/1.1\r\n\r\n")) rfl (by rw [hbytes]; decide +kernel)
    (by rwa [hbytes]) (by rwa [hbytes])
  simp only [framed, hstream] at hparse
  refine ⟨_, _, ?_, ?_, hparse⟩
  · rfl
  · rw [WfBuffer.bytes_retrieve, hbytes]
    decide +kernel

theorem sliced_short : ∃ p b,
    parse {} (holding (ascii "POST / HTTP/1.1\r\n\r\n")) = .ok (.kExpectStreamBody, p, b) ∧
      Lasts StreamReader.step StreamReader.Exact ⟨p, b, b.bytes, []⟩
        [.append (ascii "abc"), .parse, .take] := by
  obtain ⟨p, b, -, hb, hparse⟩ := stream_entered
  refine ⟨p, b, hparse, (sliced_iff hparse _).2 ⟨trivial, ?_⟩⟩
  intro r hr
  cases hr
  refine ⟨fun _ => ?_, fun _ _ => ⟨trivial, fun _ _ => trivial⟩⟩
  rw [WfBuffer.bytes_append, hb]
  decide +kernel

/-- Two gigabytes that arrive before `Parse` is called. -/
theorem not_sliced : ∃ p b,
    parse {} (holding (ascii "POST / HTTP/1.1\r\n\r\n")) = .ok (.kExpectStreamBody, p, b) ∧
      ¬ Lasts StreamReader.step StreamReader.Exact ⟨p, b, b.bytes, []⟩
        [.append (List.replicate (2 ^ 31) 0), .parse] := by
  obtain ⟨p, b, hs, hb, hparse⟩ := stream_entered
  refine ⟨p, b, hparse, ?_⟩
  have hlen : (List.replicate (2 ^ 31) 0 : Bytes).length = 2 ^ 31 := List.length_replicate
  revert hlen
  -- only the length matters, and the list is never computed
  generalize (List.replicate (2 ^ 31) 0 : Bytes) = bs
  intro hlen hlasts
  obtain ⟨r, hr, hinv⟩ := (inv_of_entered hparse).append bs
  have hcut : ¬ StreamReader.Uncut r .parse := by
    cases hr
    intro hle
    have hnonneg := toInt32_nonneg.1 (hle hs)
    rw [WfBuffer.bytes_append, hb, List.nil_append, hlen] at hnonneg
    omega
  obtain ⟨t, ht, -⟩ := hlasts 2
  obtain ⟨r', hr', ht⟩ := run_cons_eq_some.1 ht
  rw [hr] at hr'
  cases hr'
  rw [List.take_succ_cons, run_cons, hinv.step_of_cut hcut] at ht
  cases ht

end HttpNest
