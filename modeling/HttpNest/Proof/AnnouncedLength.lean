import HttpNest.Proof.Rejected

/-!
# Announced lengths

A size line announces a chunk's length and a content length that of a body. Both are read by
functions that accept more than numerals, and cut to 32 bits. `Takes p n done` says that `p`
expects `n` bytes: however they come, it is done with the last of them and not before. No two
lengths are expected at once (`Takes.unique`), so the announced length is expected exactly if it
is the one that the parser has read (`chunkSize_read_iff`, `contentLength_read_iff`).
-/

namespace HttpNest

open Assignments CNumeral ListSearch HttpParser EventRun

variable {p : HttpParser} {b : WfBuffer} {done : HttpParserState}

/-! ## Bytes that a parser takes -/

/-- The parser after calls of `Parse`, each with a buffer of its own. -/
def HttpParser.parseAll : HttpParser → List WfBuffer → Except Fault HttpParser
  | p, [] => .ok p
  | p, b :: bs =>
    match parse p b with
    | .error e => .error e
    | .ok (_, p, _) => parseAll p bs

def received (bs : List WfBuffer) : ℕ := (bs.map fun b => b.bytes.length).sum

/-- Calls with less than `2^31` bytes bring the parser to `done` exactly if they have brought
`n` bytes. -/
def Takes (p : HttpParser) (n : ℕ) (done : HttpParserState) : Prop :=
  ∀ bs : List WfBuffer, (∀ b ∈ bs, b.bytes.length < 2 ^ 31) →
    ∃ q, p.parseAll bs = .ok q ∧ (q.state = done ↔ n ≤ received bs)

theorem parseAll_cons {s : HttpParserState} {q : HttpParser} {b' : WfBuffer}
    (h : parse p b = .ok (s, q, b')) (bs : List WfBuffer) :
    p.parseAll (b :: bs) = q.parseAll bs := by
  rw [parseAll, h]

theorem parseAll_stuck (hs : Stuck p.state) (bs : List WfBuffer) : p.parseAll bs = .ok p := by
  induction bs with
  | nil => rfl
  | cons b bs ih => rw [parseAll_cons (parse_stuck hs), ih]

/-- **A body takes the bytes that fit.** -/
theorem HttpParser.Filling.takes (h : p.Filling) : Takes p p.packet.room (bodyDone p.state) := by
  intro bs hbs
  induction bs generalizing p with
  | nil =>
    refine ⟨p, rfl, ?_⟩
    -- nothing is taken, and a filling body has room left
    have hopen := h.open'
    have hstate : p.state ≠ bodyDone p.state := by
      rcases h.inBody with hs | hs | hs <;> rw [hs] <;> decide
    exact iff_of_false hstate (by simpa [received] using Nat.pos_iff_ne_zero.1 hopen)
  | cons b bs ih =>
    have hb := hbs b (List.mem_cons_self ..)
    have hrest : ∀ b ∈ bs, b.bytes.length < 2 ^ 31 := fun b hb => hbs b (List.mem_cons_of_mem _ hb)
    have hreceived : received (b :: bs) = b.bytes.length + received bs := by simp [received]
    by_cases hempty : b.bytes = []
    · rw [parseAll_cons (parse_empty hempty), hreceived, hempty]
      simpa using ih h hrest
    have hparse := parse_body h hempty
    rw [if_neg (by rw [toInt32_of_lt] <;> omega)] at hparse
    rw [parseAll_cons hparse, hreceived]
    have htaken := h.ok.taken_eq hb
    have hlen := p.packet.length_take_taken b.bytes
    set data := b.bytes.take (p.packet.taken b.bytes)
    rcases lt_or_ge b.bytes.length p.packet.room with hlt | hge
    · -- all bytes fit, and there is room left
      rw [min_eq_left hlt.le] at htaken
      obtain ⟨hf, hs⟩ := h.advance data (by omega)
      obtain ⟨q, hq, hiff⟩ := ih hf hrest
      refine ⟨q, hq, ?_⟩
      rw [← hs, hiff, advance_packet, Packet.room_push]
      omega
    -- the room is used up, and the calls to come are ignored
    · rw [min_eq_right hge] at htaken
      have hdone : (p.advance data).state = bodyDone p.state := by
        rw [advance_state, if_pos (by omega)]
      refine ⟨_, parseAll_stuck (by rw [hdone]; exact stuck_bodyDone _) bs, ?_⟩
      exact iff_of_true hdone (by omega)

/-- A body state before its packet is allocated. -/
theorem takes_of_chunk_none (hs : p.InBody) (hc : p.chunk = none) {n : ℕ}
    (hn : p.bodyCapacity = n) (h0 : n ≠ 0) (hlt : n < 2 ^ 31) : Takes p n (bodyDone p.state) := by
  have hpk : p.packet = ⟨n, []⟩ := by rw [packet, hc, hn]; rfl
  have hroom : p.packet.room = n := by simp [hpk, Packet.room, Packet.packetSize]
  have hf := filling_of_chunk_none hs hc (by omega) (by omega)
  rw [← hroom]
  exact hf.takes

/-- **Only one length is expected.** -/
theorem Takes.unique {n m : ℕ} (hn : Takes p n done) (hm : Takes p m done) (hlt : n < 2 ^ 31) :
    n = m := by
  set bs := [holding (List.replicate (min n m) 0)] with hbs
  have hlen : received bs = min n m := by simp [hbs, received, bytes_holding]
  have hshort : ∀ b ∈ bs, b.bytes.length < 2 ^ 31 := by
    intro b hb
    rw [List.mem_singleton.1 hb, bytes_holding, List.length_replicate]
    omega
  obtain ⟨q, hq, hiff⟩ := hn bs hshort
  obtain ⟨q', hq', hiff'⟩ := hm bs hshort
  have he : q = q' := Except.ok.inj (hq.symm.trans hq')
  rw [he, hiff', hlen] at hiff
  omega

/-- A parser that is done expects nothing. -/
theorem takes_stuck_iff (hs : Stuck p.state) {n : ℕ} : Takes p n p.state ↔ n = 0 := by
  constructor
  · intro h
    obtain ⟨q, hq, hiff⟩ := h [] (fun b hb => by cases hb)
    cases hq
    simpa [received] using hiff
  · rintro rfl bs -
    exact ⟨p, parseAll_stuck hs bs, iff_of_true rfl (Nat.zero_le _)⟩

/-- The first byte faults. -/
theorem not_takes_negative (hs : p.InBody) (hc : p.chunk = none) (h0 : p.bodyCapacity < 0)
    {n : ℕ} : ¬ Takes p n done := by
  intro h
  have hbytes := bytes_holding [0]
  obtain ⟨q, hq, -⟩ := h [holding [0]] (by simp [hbytes])
  rw [parseAll, parse_negative hs hc h0 (by rw [hbytes]; decide)] at hq
  cases hq

/-! ## No packet is left over -/

/-- A parser at the beginning of a message or a chunk has no packet. -/
def Vacant (p : HttpParser) : Prop :=
  p.state = .kExpectHeaders ∨ p.state = .kExpectChunkLen → p.chunk = none

theorem vacant_of_stuck (hs : Stuck p.state) : Vacant p := by
  intro h
  rcases h with h | h <;> rw [h] at hs <;> simp [Stuck] at hs

theorem chunk_selectBody (r : HttpRequest) : (p.selectBody r).chunk = p.chunk := by
  unfold HttpParser.selectBody
  dsimp only
  split
  · split <;> rfl
  · split_ifs <;> rfl

theorem chunk_parseHeaders {p' : HttpParser} (h : p.parseHeaders = .ok p') :
    p'.chunk = p.chunk := by
  unfold HttpParser.parseHeaders at h
  cases hl : StringUtils.splitString p.header CRLF with
  | nil =>
    rw [hl] at h
    cases h
    rfl
  | cons line rest =>
    have hline : (p.processMethodLine line).chunk = p.chunk := by
      unfold HttpParser.processMethodLine
      split <;> rfl
    simp only [hl] at h
    cases hreq : (line :: rest).foldlM addLine (p.processMethodLine line).req with
    | error e =>
      rw [hreq] at h
      cases h
    | ok req =>
      rw [hreq] at h
      cases req with
      | none => cases h
      | some r =>
        cases h
        rw [chunk_selectBody]
        exact hline

theorem Vacant.parse (h : Vacant p) {s : HttpParserState} {p' : HttpParser} {b' : WfBuffer}
    (hparse : HttpParser.parse p b = .ok (s, p', b')) : Vacant p' := by
  cases parse_effect hparse with
  | same => exact h
  | rejected hs => exact fun _ => h hs
  | block hs hp => exact fun _ => (chunk_parseHeaders hp).trans (h (.inl hs))
  | size len hs => exact fun _ => h (.inr hs)
  | last _ => exact fun _ => rfl
  | body hs hstate =>
    -- a body goes on or is complete
    rcases hstate with rfl | hstuck
    · intro h'
      rcases hs with hs | hs | hs <;> rcases h' with h' | h' <;> cases hs.symm.trans h'
    · exact vacant_of_stuck hstuck

/-- **No history leaves a packet at the beginning of a message or a chunk.** -/
theorem vacant_of_run {history : List ParserCall}
    (h : run HttpParser.step {} history = some p) : Vacant p := by
  refine run_inv Vacant (fun p c q hp hc => ?_) (fun _ => rfl) h
  cases c with
  | clearForNextHttp =>
    cases hc
    exact fun _ => rfl
  | clearForNextChunk =>
    cases hc
    unfold HttpParser.clearForNextChunk
    split_ifs <;> exact fun _ => rfl
  | parse b =>
    obtain ⟨s, b', hparse⟩ := parse_of_step hc
    exact hp.parse hparse

/-! ## Size lines -/

/-- The parser expects the data of a chunk of `n` bytes, or the end of the body. -/
def ExpectsData (p : HttpParser) (n : ℕ) : Prop :=
  if n = 0 then p.state = .kExpectLastEmptyChunk
  else p.state = .kExpectChunkBody ∧ Takes p n .kExpectChunkComplete

/-- A size line is rejected, unless it is a numeral up to `1024*1024`; then as many bytes are
expected. -/
structure SizeRead (p : HttpParser) (b : WfBuffer) (line : Bytes) : Prop where
  rejects : (∀ n ≤ 1024 * 1024, ¬ IsNumeral 16 n line) → Rejected p b
  accepts : ∀ n ≤ 1024 * 1024, IsNumeral 16 n line →
    ∃ p' b', parse p b = .ok (p'.state, p', b') ∧ ExpectsData p' n

/-- The call that sees the end of a size line. -/
theorem parse_sizeLine (hs : p.state = .kExpectChunkLen) {i : ℕ}
    (hf : find CRLF b.bytes = some i) : parse p b =
      .ok (returned (afterSize p (chunkSize (b.bytes.take i)), b.retrieveUntil (i + 2))) := by
  have hle : i + 2 ≤ b.bytes.length := find_le hf
  rw [parse_chunkLen hs (List.ne_nil_of_length_pos (by omega)), hf]

/-- No line is rejected. -/
theorem SizeRead.numeral (hs : p.state = .kExpectChunkLen) {i : ℕ}
    (hf : find CRLF b.bytes = some i) (h : SizeRead p b (b.bytes.take i)) :
    ∃ n ≤ 1024 * 1024, IsNumeral 16 n (b.bytes.take i) := by
  by_contra hno
  push Not at hno
  refine not_rejected (parse_sizeLine hs hf) ?_ (h.rejects hno)
  simp only [afterSize]
  split_ifs <;> decide

/-- **A size line is read as what it says exactly if it is a numeral of an allowed size.** -/
theorem chunkSize_read_iff {history : List ParserCall}
    (hrun : run HttpParser.step {} history = some p) (hs : p.state = .kExpectChunkLen) {i : ℕ}
    (hf : find CRLF b.bytes = some i) :
    SizeRead p b (b.bytes.take i) ↔ ∃ n ≤ 1024 * 1024, IsNumeral 16 n (b.bytes.take i) := by
  refine ⟨fun h => h.numeral hs hf, ?_⟩
  rintro ⟨n, hn, hline⟩
  refine ⟨fun h => absurd hline (h n hn), fun m hm hline' => ?_⟩
  -- the numeral is what is read
  have hlong : strtol 16 (b.bytes.take i) = n := by
    rw [strtol_hex hline.digit (by rw [hline.value_eq]; omega), hline.value_eq]
  have hsize : chunkSize (b.bytes.take i) = n := by
    rw [chunkSize, hlong, toInt32_of_lt (by omega) (by omega)]
  have hmn : m = n := hline'.value_eq.symm.trans hline.value_eq
  have hc : p.chunk = none := vacant_of_run hrun (.inr hs)
  refine ⟨afterSize p (chunkSize (b.bytes.take i)), _, parse_sizeLine hs hf, ?_⟩
  rw [hmn, hsize, ExpectsData]
  split_ifs with h0
  · simp [afterSize, h0]
  · have hstate : (afterSize p n).state = .kExpectChunkBody := if_neg (by omega)
    have hcap : (afterSize p n).bodyCapacity = n := by rw [bodyCapacity, hstate]; rfl
    have htakes := takes_of_chunk_none (.inr (.inr hstate)) (show _ = none from hc) hcap h0
      (by omega)
    rw [hstate] at htakes
    exact ⟨hstate, htakes⟩

/-- A message that begins a chunked body. -/
def chunkedBlock : Bytes := ascii "POST / HTTP/1.1\r\nTransfer-Encoding:chunked\r\n\r\n"

theorem run_chunkedBlock : ∃ p, run HttpParser.step {} [.parse (holding chunkedBlock)] = some p ∧
    p.state = .kExpectChunkLen := by
  have hf : find CRLFCRLF chunkedBlock = some 42 := by decide +kernel
  have hframing : (blockRequest (chunkedBlock.take 42)).map HttpRequest.framing =
      some .chunked := by decide +kernel
  obtain ⟨r, hr, hchunked⟩ := Option.map_eq_some_iff.1 hframing
  obtain ⟨q, hq⟩ := step_block (by decide +kernel) hf hr
  refine ⟨_, run_cons_eq_some.2 ⟨_, hq, rfl⟩, ?_⟩
  rw [HttpParser.framed, hchunked]

theorem chunkSize_read_five : ∃ p, run HttpParser.step {} [.parse (holding chunkedBlock)] = some p ∧
    SizeRead p (holding (ascii "5\r\n")) (ascii "5") := by
  obtain ⟨p, hrun, hs⟩ := run_chunkedBlock
  have hbytes := bytes_holding (ascii "5\r\n")
  have hiff := chunkSize_read_iff (b := holding (ascii "5\r\n")) (i := 1) hrun hs
    (by rw [hbytes]; decide +kernel)
  rw [hbytes, show (ascii "5\r\n").take 1 = ascii "5" by decide +kernel] at hiff
  have hfive : IsNumeral 16 5 (ascii "5") :=
    ⟨by decide +kernel, by decide +kernel, by decide +kernel⟩
  exact ⟨p, hrun, hiff.2 ⟨5, by decide, hfive⟩⟩

/-- A chunk of more than `1024*1024` bytes is expected. -/
theorem chunkSize_misread : ∃ p, run HttpParser.step {} [.parse (holding chunkedBlock)] = some p ∧
    p.state = .kExpectChunkLen ∧ ¬ SizeRead p (holding (ascii "100001\r\n")) (ascii "100001") := by
  obtain ⟨p, hrun, hs⟩ := run_chunkedBlock
  have hbytes := bytes_holding (ascii "100001\r\n")
  have hline : (ascii "100001\r\n").take 6 = ascii "100001" := by decide +kernel
  refine ⟨p, hrun, hs, fun h => ?_⟩
  set b := holding (ascii "100001\r\n")
  have h' : SizeRead p b (b.bytes.take 6) := by rw [hbytes, hline]; exact h
  obtain ⟨n, hn, hnumeral⟩ := h'.numeral hs (by rw [hbytes]; decide +kernel)
  have hvalue : value 16 (digits 16 (ascii "100001")) = 1048577 := by decide +kernel
  rw [hbytes, hline] at hnumeral
  have := hnumeral.value_eq
  omega

/-! ## Content lengths -/

/-- If the content length is a numeral, the message is rejected, or as many bytes complete it.
Any other content length is rejected. -/
structure LengthRead (p : HttpParser) (b : WfBuffer) (v : Bytes) : Prop where
  numeral : ∀ n, IsNumeral 10 n v → Rejected p b ∨
    ∃ p' b', parse p b = .ok (p'.state, p', b') ∧ Takes p' n .kExpectHttpComplete
  other : (∀ n, ¬ IsNumeral 10 n v) → Rejected p b

/-- The content length is a numeral that is kept by the cut to 32 bits, or rejected. -/
def LengthKept (text : Bytes) : Prop :=
  (∃ n, IsNumeral 10 n (stripBlanks text) ∧ (n < 2 ^ 31 ∨ 2 ^ 64 ≤ n)) ∨
    (∀ n, ¬ IsNumeral 10 n (stripBlanks text)) ∧ text ≠ [] ∧ stoull text = none

/-- The last line with a name decides, whatever the start line is. -/
theorem storedValue_eq {block line field text : Bytes} {rest : List Bytes}
    (hl : StringUtils.splitString block CRLF = line :: rest)
    (htext : lastValue (rest.filterMap keyValue) field = some text) :
    storedValue block field = text := by
  show (lastValue ((StringUtils.splitString block CRLF).filterMap keyValue) field).getD [] = text
  rw [hl, lastValue_lines htext]
  rfl

/-- A length is expected exactly if it is the one that was read. -/
theorem takes_framed_iff {r : HttpRequest} {m : ℤ} (hc : p.chunk = none)
    (hr : r.framing = .length m) {n : ℕ} :
    Takes (p.framed r) n .kExpectHttpComplete ↔ m = n := by
  have hlt := HttpRequest.framing_length_lt hr
  set p' := p.framed r with hp'
  have hframed : p' = { p with
      curContentLength := m
      state := if m = 0 then .kExpectHttpComplete else .kExpectNormalBody } := by
    rw [hp', HttpParser.framed, hr]
  have hc' : p'.chunk = none := by rw [hframed]; exact hc
  -- an empty body is complete at once, and a negative one never
  by_cases h0 : m = 0
  · have hstate : p'.state = .kExpectHttpComplete := by rw [hframed]; exact if_pos h0
    have hiff := takes_stuck_iff (p := p') (n := n) (by rw [hstate]; exact .inl rfl)
    rw [hstate] at hiff
    rw [hiff, h0]
    omega
  have hstate : p'.state = .kExpectNormalBody := by rw [hframed]; exact if_neg h0
  have hcap : p'.bodyCapacity = m := by rw [bodyCapacity, hstate, hframed]
  rcases lt_or_gt_of_ne h0 with hneg | hpos
  · refine iff_of_false (not_takes_negative (.inl hstate) hc' (by omega)) (by omega)
  · obtain ⟨k, rfl⟩ : ∃ k : ℕ, m = k := ⟨m.toNat, by omega⟩
    have htakes := takes_of_chunk_none (.inl hstate) hc' hcap (by omega) (by omega)
    rw [hstate] at htakes
    constructor
    · intro h
      rw [htakes.unique h (by omega)]
    · intro h
      rwa [← Nat.cast_injective h]

theorem framing_badLength_iff {r : HttpRequest} {text : Bytes}
    (h : r.getHeader (ascii "content-length") = text) :
    r.framing = .badLength ↔ text ≠ [] ∧ stoull text = none := by
  rw [HttpRequest.framing, h]
  by_cases htext : text ≠ []
  · rw [if_pos htext, and_iff_right htext]
    cases stoull text <;> simp
  · rw [if_neg htext]
    refine iff_of_false ?_ fun h => htext h.1
    split_ifs <;> decide

/-- How a numeral frames the body. -/
theorem framing_numeral {r : HttpRequest} {text : Bytes}
    (h : r.getHeader (ascii "content-length") = text) {n : ℕ}
    (hn : IsNumeral 10 n (stripBlanks text)) :
    r.framing = if n < 2 ^ 64 then .length (toInt32 n) else .badLength := by
  have htext : text ≠ [] := by
    rintro rfl
    exact hn.ne_nil rfl
  rw [HttpRequest.framing, h, if_pos htext, ← stoull_stripBlanks, hn.stoull_eq]
  split_ifs <;> rfl

/-- A block with a start line of three tokens, and the content length `text`. -/
def LengthField (block text : Bytes) : Prop :=
  ∃ line rest, StringUtils.splitString block CRLF = line :: rest ∧
    (StringUtils.splitString line [32]).length = 3 ∧
      lastValue (rest.filterMap keyValue) (ascii "content-length") = some text

/-- What a parser does with such a block. -/
theorem LengthField.parse_eq {text : Bytes} {i : ℕ} (h : LengthField (b.bytes.take i) text)
    (hvacant : Vacant p) (hs : p.state = .kExpectHeaders) (hf : find CRLFCRLF b.bytes = some i) :
    ∃ q r b', parse p b = .ok (returned (HttpParser.framed q r, b')) ∧ q.chunk = none ∧
      r.getHeader (ascii "content-length") = text := by
  obtain ⟨line, rest, hl, h3, htext⟩ := h
  obtain ⟨r, hr⟩ := blockRequest_of_length hl h3
  have h4 := four_lt_length hf hr
  refine ⟨{ p with header := b.bytes.take i, isRequest := r.isRequest, req := some r }, r, _,
    parse_headers_request hs h4 hf hr, hvacant (.inl hs), ?_⟩
  exact (getHeader_blockRequest hr toLower_contentLength).trans (storedValue_eq hl htext)

section Read

variable {q : HttpParser} {r : HttpRequest} {b' : WfBuffer} {text : Bytes}

theorem rejected_iff (hparse : parse p b = .ok (returned (q.framed r, b')))
    (hr : r.getHeader (ascii "content-length") = text) :
    Rejected p b ↔ text ≠ [] ∧ stoull text = none := by
  rw [← framing_badLength_iff hr]
  constructor
  · intro h
    by_contra hno
    exact not_rejected hparse (fun he => hno (framed_error.1 he)) h
  · intro h
    rw [HttpParser.framed, h] at hparse
    exact rejected_of_fail hparse

theorem rejected_numeral_iff (hparse : parse p b = .ok (returned (q.framed r, b')))
    (hr : r.getHeader (ascii "content-length") = text) {n : ℕ}
    (hn : IsNumeral 10 n (stripBlanks text)) : Rejected p b ↔ 2 ^ 64 ≤ n := by
  rw [rejected_iff hparse hr, ← framing_badLength_iff hr, framing_numeral hr hn]
  split_ifs with h64 <;> simp <;> omega

/-- A length that is read as what it says is kept. -/
theorem LengthRead.kept (h : LengthRead p b (stripBlanks text))
    (hparse : parse p b = .ok (returned (q.framed r, b'))) (hc : q.chunk = none)
    (hr : r.getHeader (ascii "content-length") = text) : LengthKept text := by
  by_cases hnumeral : ∃ n, IsNumeral 10 n (stripBlanks text)
  · obtain ⟨n, hn⟩ := hnumeral
    refine .inl ⟨n, hn, ?_⟩
    rcases h.numeral n hn with hrej | ⟨p', b'', hparse', htakes⟩
    · exact .inr ((rejected_numeral_iff hparse hr hn).1 hrej)
    · by_contra hno
      have hp' : q.framed r = p' :=
        congrArg (fun r => r.2.1) (Except.ok.inj (hparse.symm.trans hparse'))
      have hframing := framing_numeral hr hn
      rw [if_pos (by omega)] at hframing
      rw [← hp', takes_framed_iff hc hframing] at htakes
      have := toInt32_lt n
      omega
  · have hno : ∀ n, ¬ IsNumeral 10 n (stripBlanks text) := fun n hn => hnumeral ⟨n, hn⟩
    exact .inr ⟨hno, (rejected_iff hparse hr).1 (h.other hno)⟩

theorem LengthKept.read (h : LengthKept text)
    (hparse : parse p b = .ok (returned (q.framed r, b'))) (hc : q.chunk = none)
    (hr : r.getHeader (ascii "content-length") = text) : LengthRead p b (stripBlanks text) := by
  rcases h with ⟨n, hn, hrange⟩ | ⟨hno, hrej⟩
  · refine ⟨fun m hm => ?_, fun hno => absurd hn (hno n)⟩
    have hmn : m = n := hm.value_eq.symm.trans hn.value_eq
    rw [hmn]
    rcases hrange with hlt | hge
    · have hframing := framing_numeral hr hn
      rw [if_pos (by omega)] at hframing
      refine .inr ⟨q.framed r, _, hparse, (takes_framed_iff hc hframing).2 ?_⟩
      exact toInt32_of_lt (by omega) (by omega)
    · exact .inl ((rejected_numeral_iff hparse hr hn).2 hge)
  · exact ⟨fun n hn => absurd hn (hno n), fun _ => (rejected_iff hparse hr).2 hrej⟩

end Read

/-- **A content length is read as what it says exactly if it is kept.** -/
theorem contentLength_read_iff {history : List ParserCall}
    (hrun : run HttpParser.step {} history = some p) (hs : p.state = .kExpectHeaders) {i : ℕ}
    (hf : find CRLFCRLF b.bytes = some i) {text : Bytes}
    (hfield : LengthField (b.bytes.take i) text) :
    LengthRead p b (stripBlanks text) ↔ LengthKept text := by
  obtain ⟨q, r, b', hparse, hc, hr⟩ := hfield.parse_eq (vacant_of_run hrun) hs hf
  exact ⟨fun h => h.kept hparse hc hr, fun h => h.read hparse hc hr⟩

/-- Three body bytes. -/
def threeBytes : Bytes := ascii "POST / HTTP/1.1\r\nContent-Length: 3\r\n\r\n"

theorem contentLength_read_three : LengthRead {} (holding threeBytes) (ascii "3") := by
  have hbytes := bytes_holding threeBytes
  have hfield : LengthField ((holding threeBytes).bytes.take 34) (ascii " 3") := by
    rw [hbytes]
    exact ⟨ascii "POST / HTTP/1.1", [ascii "Content-Length: 3"], by decide +kernel,
      by decide +kernel, by decide +kernel⟩
  have hstrip : stripBlanks (ascii " 3") = ascii "3" := by decide +kernel
  have hrun : run HttpParser.step {} [] = some {} := rfl
  have hiff := contentLength_read_iff hrun rfl (by rw [hbytes]; decide +kernel) hfield
  rw [hstrip] at hiff
  refine hiff.2 (.inl ⟨3, ?_, .inl (by decide)⟩)
  rw [hstrip]
  exact ⟨by decide +kernel, by decide +kernel, by decide +kernel⟩

/-- A body of `2^32` bytes. -/
def manyBytes : Bytes := ascii "POST / HTTP/1.1\r\nContent-Length: 4294967296\r\n\r\n"

/-- It is taken for one without any. -/
theorem contentLength_misread : ¬ LengthRead {} (holding manyBytes) (ascii "4294967296") := by
  have hbytes := bytes_holding manyBytes
  have hfield : LengthField ((holding manyBytes).bytes.take 43) (ascii " 4294967296") := by
    rw [hbytes]
    exact ⟨ascii "POST / HTTP/1.1", [ascii "Content-Length: 4294967296"], by decide +kernel,
      by decide +kernel, by decide +kernel⟩
  have hstrip : stripBlanks (ascii " 4294967296") = ascii "4294967296" := by decide +kernel
  have hvalue : value 10 (digits 10 (ascii "4294967296")) = 4294967296 := by decide +kernel
  obtain ⟨q, r, b', hparse, hc, hr⟩ := hfield.parse_eq (p := {}) (fun _ => rfl) rfl
    (by rw [hbytes]; decide +kernel)
  intro h
  rw [← hstrip] at h
  rcases h.kept hparse hc hr with ⟨n, hn, hrange⟩ | ⟨hno, -⟩
  · have hn' := hn.value_eq
    rw [hstrip, hvalue] at hn'
    omega
  · refine hno 4294967296 ?_
    rw [hstrip]
    exact ⟨by decide +kernel, by decide +kernel, hvalue⟩

end HttpNest
