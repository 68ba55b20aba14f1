import HttpNest.Proof.ChunkWriter
import HttpNest.Proof.Chunked

/-!
# The chunk writer and the chunk reader

The writer puts no line end behind the data of a packet, and the reader expects none: `stages`
is what the reader finds in `wire packets`, stage by stage. So the pair agrees, except where
the reader cuts the length of its buffer to an `int`: in the data of a chunk, with `2^31`
unread bytes or more.

A call takes at most `1024 * 1024` of them, and none below a multiple of `2^32`, so the buffer
never gets short again (`Overfull`, `Overfull.turn`). So `chunk_pair_iff` is exact.
-/

namespace HttpNest

open CNumeral ListSearch HttpParser FeedLoop EventRun Posting

/-- A packet of the sizes that the reader takes for a chunk. -/
structure Packet.Chunky (pk : Packet) : Prop where
  ne_nil : pk.data ≠ []
  le : pk.data.length ≤ 1024 * 1024

theorem Packet.Chunky.lt {pk : Packet} (h : pk.Chunky) : pk.data.length < 2 ^ 31 := by
  have := h.le
  omega

/-- What the reader finds in what the writer writes. -/
def stages : List Packet → List Stage
  | [] => [.size (ascii "0"), .last []]
  | pk :: pks => .size (hexText pk.data.length) :: .data pk.data :: stages pks

/-- What the caller of the reader should take: the data of the packets, and the end. -/
def deliveries (packets : List Packet) : List (Option Packet) :=
  packets.map (fun pk => some ⟨pk.data.length, pk.data⟩) ++ [none]

variable {packets : List Packet} {p : HttpParser} {b : WfBuffer} {A : Bytes}
  {r r' t : ChunkReader} {pieces ps : List Bytes}

/-! ## The stages -/

theorem planBytes_stages (hok : ∀ pk ∈ packets, pk.Chunky) :
    planBytes (stages packets) = wire packets := by
  induction packets with
  | nil => decide +kernel
  | cons pk packets ih =>
    have hpk := hok pk (List.mem_cons_self ..)
    rw [stages, planBytes_cons, planBytes_cons, ih fun q hq => hok q (List.mem_cons_of_mem _ hq),
      wire, chunkLen_eq hpk.lt, List.append_assoc]
    rfl

theorem planDelivers_stages (packets : List Packet) :
    planDelivers (stages packets) = deliveries packets := by
  induction packets with
  | nil => rfl
  | cons pk packets ih =>
    rw [deliveries, List.map_cons, List.cons_append]
    rw [deliveries] at ih
    rw [← ih]
    rfl

theorem valid_hexText {n : ℕ} (hlt : n < 2 ^ 31) : (Stage.size (hexText n)).Valid := by
  have hlen : (hexText n).length ≤ 8 := length_hexText_le (by decide) (by omega)
  exact ⟨by omega, ChunkedBody.cr_not_mem (isHex_hexText n)⟩

theorem chunkSize_hexText {n : ℕ} (hlt : n < 2 ^ 31) : chunkSize (hexText n) = n := by
  have hval := value_hexText n
  rw [chunkSize, strtol_hex (isHex_hexText n) (by omega), hval]
  exact toInt32_of_lt (by omega) (by omega)

/-- The stages begin with a size. -/
theorem stages_head (packets : List Packet) : ∃ line rest, stages packets = .size line :: rest := by
  cases packets with
  | nil => exact ⟨_, _, rfl⟩
  | cons pk packets => exact ⟨_, _, rfl⟩

theorem plan_stages (hok : ∀ pk ∈ packets, pk.Chunky) : Plan (stages packets) := by
  induction packets with
  | nil =>
    refine ⟨?_, ?_⟩
    · intro st hst
      simp only [stages, List.mem_cons, List.not_mem_nil, or_false] at hst
      rcases hst with rfl | rfl
      · exact ⟨by decide +kernel, by decide +kernel⟩
      · exact List.not_mem_nil
    · simp only [stages, List.isChain_cons_cons, List.isChain_singleton, and_true]
      show chunkSize (ascii "0") = 0
      decide +kernel
  | cons pk packets ih =>
    have hpk := hok pk (List.mem_cons_self ..)
    obtain ⟨hvalid, hfollows⟩ := ih fun q hq => hok q (List.mem_cons_of_mem _ hq)
    refine ⟨?_, ?_⟩
    · intro st hst
      simp only [stages, List.mem_cons] at hst
      rcases hst with rfl | rfl | hst
      · exact valid_hexText hpk.lt
      · exact ⟨hpk.ne_nil, hpk.lt⟩
      · exact hvalid st hst
    · obtain ⟨line, rest, hhead⟩ := stages_head packets
      rw [stages, hhead]
      rw [hhead] at hfollows
      exact .cons_cons (chunkSize_hexText hpk.lt) (.cons_cons trivial hfollows)

/-- The line that ends the body is the last stage. -/
theorem stages_last {done rest : List Stage} {line : Bytes}
    (h : stages packets = done ++ .last line :: rest) : line = [] ∧ rest = [] := by
  induction packets generalizing done with
  | nil =>
    rcases done with _ | ⟨_, _ | ⟨_, done⟩⟩
    · cases h
    · cases h
      exact ⟨rfl, rfl⟩
    · have := congrArg List.length h
      simp [stages] at this
  | cons pk packets ih =>
    rcases done with _ | ⟨_, _ | ⟨_, done⟩⟩
    · cases h
    · cases h
    · simp only [stages, List.cons_append, List.cons.injEq] at h
      exact ih h.2.2

/-! ## Moments -/

/-- At every moment the caller is at a stage, or behind all of them. -/
theorem moment {plan : List Stage} (hplan : Plan plan) {start : ChunkReader × List Bytes}
    (hstart : ∃ A, A ++ start.2.flatten = planBytes plan ∧
      ∃ done st rest part, Reading plan A start.1 done st rest part)
    (h : chunkReader.Reaches start (r, ps)) :
    ∃ A, A ++ ps.flatten = planBytes plan ∧
      ((∃ done st rest part, Reading plan A r done st rest part) ∨ Ended plan A r) := by
  obtain ⟨A, hA, hr⟩ := hstart
  refine FeedLoop.reaches_inv (L := chunkReader)
    (fun r ps => ∃ A, A ++ ps.flatten = planBytes plan ∧
      ((∃ done st rest part, Reading plan A r done st rest part) ∨ Ended plan A r)) ?_ ?_ h
    ⟨A, hA, .inl hr⟩
  · rintro r ps r' ⟨A, hA, hr⟩ hrun hr'
    refine ⟨A, hA, ?_⟩
    have hpre : A <+: planBytes plan := ⟨ps.flatten, hA⟩
    rcases hr with ⟨done, st, rest, part, hr⟩ | he
    · have hpre' : A <+: planBytes plan ++ [] := by rwa [List.append_nil]
      rcases hr.turn hplan hpre' hrun with ⟨e, he, -⟩ | ⟨r'', hr'', -, hnext⟩
      · rw [hr'] at he
        cases he
      · cases hr'.symm.trans hr''
        rcases hnext with ⟨done', st', rest', part', hr'', -⟩ | he
        · exact .inl ⟨done', st', rest', part', hr''⟩
        · exact .inr he
    · obtain ⟨r'', hr'', -, he'⟩ := he.turn (he.bytes_eq_nil hpre) hrun
      cases hr'.symm.trans hr''
      exact .inr he'
  · rintro r piece ps ⟨A, hA, hr⟩ -
    refine ⟨A ++ piece, by rw [List.append_assoc, ← hA, List.flatten_cons], ?_⟩
    rcases hr with ⟨done, st, rest, part, hr⟩ | he
    · exact .inl ⟨done, st, rest, part, hr.recv piece⟩
    · exact .inr (he.recv piece)

/-- The unread bytes are not more than the stages that are left. -/
theorem Reading.buf_le {plan done rest : List Stage} {st : Stage} {part : Bytes}
    (h : Reading plan A r done st rest part) (hA : A <+: planBytes plan) :
    r.buf.bytes.length ≤ st.bytes.length + (planBytes rest).length := by
  have hle := hA.length_le
  rw [h.taken, h.plan_eq, planBytes_append, planBytes_cons] at hle
  simp only [List.length_append] at hle
  omega

/-! ## A buffer that is too long -/

/-- So many bytes are unread that the length is cut in the data of this chunk, or the next. -/
def Overfull (r : ChunkReader) : Prop :=
  r.parser.state = .kExpectChunkBody ∧ 2 ^ 31 ≤ r.buf.bytes.length ∨
    r.parser.state = .kExpectChunkLen ∧ 2 ^ 31 + 33 ≤ r.buf.bytes.length

/-- In the data of a chunk, a call that succeeds with a buffer of `2^31` bytes leaves `2^32`. -/
theorem data_left {bs part : Bytes} (h : (Stage.data bs).At part p) (hlen : 2 ^ 31 ≤ b.bytes.length)
    {s : HttpParserState} {p' : HttpParser} {b' : WfBuffer} (hp : parse p b = .ok (s, p', b')) :
    2 ^ 32 ≤ b'.bytes.length ∧
      (p'.state = .kExpectChunkBody ∨ p'.state = .kExpectChunkComplete) := by
  have hb : b.bytes ≠ [] := List.ne_nil_of_length_pos (by omega)
  rw [parse_body h.2.1 hb] at hp
  split_ifs at hp with hneg
  cases hp
  constructor
  · have htaken : p.packet.taken b.bytes ≤ (toInt32 b.bytes.length).toNat := by
      unfold Packet.taken
      omega
    -- the length is not negative as an `int`, and no more than that is taken
    rw [not_lt, toInt32_nonneg] at hneg
    have hmod : toInt32 b.bytes.length = (b.bytes.length % 2 ^ 32 : ℕ) := by
      unfold toInt32
      split <;> omega
    rw [hmod] at htaken
    rw [WfBuffer.bytes_retrieve, List.length_drop]
    omega
  · rw [advance_state]
    split_ifs
    · exact .inr (by rw [h.1]; rfl)
    · exact .inl h.1

/-- A size line is found at once, and takes no more than its 33 bytes. -/
theorem size_left {line more : Bytes} (hv : (Stage.size line).Valid)
    (h : (Stage.size line).At [] p) (hpre : b.bytes <+: line ++ CRLF ++ more)
    (hlen : 33 ≤ b.bytes.length) {s : HttpParserState} {p' : HttpParser} {b' : WfBuffer}
    (hp : parse p b = .ok (s, p', b')) : b.bytes.length ≤ b'.bytes.length + 33 ∧
      p'.state = if chunkSize line = 0 then .kExpectLastEmptyChunk else .kExpectChunkBody := by
  have hb : b.bytes ≠ [] := List.ne_nil_of_length_pos (by omega)
  have hshort := hv.1
  rcases line_turn hv.2 hpre with ⟨hf, htake, -⟩ | ⟨-, hlt⟩
  · rw [parse_chunkLen h.1 hb] at hp
    simp only [hf, htake] at hp
    cases hp
    rw [WfBuffer.bytes_retrieveUntil, List.length_drop]
    exact ⟨by omega, rfl⟩
  · omega

/-- What a call leaves in the buffer, and the state in which it leaves the parser. -/
theorem Overfull.left {st : Stage} {part more : Bytes} (h : Overfull r) (hv : st.Valid)
    (hat : st.At part r.parser) (hpre : part ++ r.buf.bytes <+: st.bytes ++ more)
    {s : HttpParserState} {p' : HttpParser} {b' : WfBuffer}
    (hp : parse r.parser r.buf = .ok (s, p', b')) :
    2 ^ 31 ≤ b'.bytes.length ∧ (p'.state = .kExpectChunkBody ∨
      p'.state = .kExpectLastEmptyChunk ∨
      p'.state = .kExpectChunkComplete ∧ 2 ^ 32 ≤ b'.bytes.length) := by
  rcases h with ⟨hs, hlen⟩ | ⟨hs, hlen⟩
  · rcases st with line | bs | line
    · rw [hat.1] at hs
      cases hs
    · obtain ⟨hbig, hs' | hs'⟩ := data_left hat hlen hp
      · exact ⟨by omega, .inl hs'⟩
      · exact ⟨by omega, .inr (.inr ⟨hs', hbig⟩)⟩
    · rw [hat.1] at hs
      cases hs
  · rcases st with line | bs | line
    · obtain ⟨-, rfl, -⟩ := id hat
      obtain ⟨hle, hs'⟩ := size_left hv hat hpre (by omega) hp
      refine ⟨by omega, ?_⟩
      rw [hs']
      split_ifs
      · exact .inr (.inl rfl)
      · exact .inl rfl
    · rw [hat.1] at hs
      cases hs
    · rw [hat.1] at hs
      cases hs

/-- **The buffer stays too long.** -/
theorem Overfull.turn (hok : ∀ pk ∈ packets, pk.Chunky) {done rest : List Stage} {st : Stage}
    {part : Bytes} (h : Overfull r) (hr : Reading (stages packets) A r done st rest part)
    (hA : A <+: planBytes (stages packets)) (hrun : r.running = true)
    (hr' : chunkReader.body r = .ok r') : Overfull r' ∧
      ∃ done st rest part, Reading (stages packets) A r' done st rest part := by
  have hplan := plan_stages hok
  have hst : st ∈ stages packets := by
    rw [hr.plan_eq]
    simp
  have hpre : part ++ r.buf.bytes <+: st.bytes ++ planBytes rest := by
    rw [hr.taken, hr.plan_eq, planBytes_append, planBytes_cons] at hA
    simpa only [List.append_assoc, List.prefix_append_right_inj] using hA
  rcases stage_turn (hplan.valid st hst) hr.at' hpre with ⟨e, he, -⟩ | ⟨p', b', hp, -, -⟩
  · simp only [chunkReader, he] at hr'
    cases hr'
  -- the turn of this reader, and what the call has left of its buffer
  obtain ⟨r'', hr'', hparser, hbuf, -, -⟩ := chunkReader_body hp
  cases hr'.symm.trans hr''
  have hleft := h.left (hplan.valid st hst) hr.at' hpre hp
  rw [← hbuf] at hleft
  obtain ⟨hbig, hstate⟩ := hleft
  -- the stage the reader is at behind it
  have hA' : A <+: planBytes (stages packets) ++ [] := by rwa [List.append_nil]
  rcases hr.turn hplan hA' hrun with ⟨e, he, -⟩ | ⟨u, hu, -, hnext⟩
  · rw [hr'] at he
    cases he
  cases hr'.symm.trans hu
  rcases hnext with ⟨done', st', rest', part', hr'', -⟩ | he
  · refine ⟨?_, done', st', rest', part', hr''⟩
    have hat := hr''.at'
    rcases st' with line | bs | line
    · -- the line of the next chunk
      rw [hparser] at hat
      rcases hstate with hs | hs | ⟨-, hmore⟩
      · rw [cleared, if_neg (by rw [hs]; decide)] at hat
        exact absurd hat.1 (by rw [hs]; decide)
      · rw [cleared, if_neg (by rw [hs]; decide)] at hat
        exact absurd hat.1 (by rw [hs]; decide)
      · rw [← hparser] at hat
        exact .inr ⟨hat.1, by omega⟩
    · exact .inl ⟨hat.1, hbig⟩
    · -- the end of the body is shorter
      have hle := hr''.buf_le hA
      obtain ⟨rfl, rfl⟩ := stages_last hr''.plan_eq
      simp [Stage.bytes, CRLF, planBytes] at hle
      omega
  · -- behind the last stage the buffer would be empty
    rw [he.bytes_eq_nil hA, List.length_nil] at hbig
    omega

/-- An overfull buffer is not emptied any more. -/
theorem not_emptied (hok : ∀ pk ∈ packets, pk.Chunky) {done rest : List Stage} {st : Stage}
    {part : Bytes} (h : Overfull r) (hr : Reading (stages packets) A r done st rest part)
    (hA : A ++ ps.flatten = wire packets) (ht : chunkReader.Completes r ps t) :
    t.buf.bytes ≠ [] := by
  have hinv := FeedLoop.reaches_inv (L := chunkReader) (fun r ps => Overfull r ∧ ∃ A,
      A ++ ps.flatten = wire packets ∧
        ∃ done st rest part, Reading (stages packets) A r done st rest part)
    (by
      rintro r ps r' ⟨h, A, hA, done, st, rest, part, hr⟩ hrun hr'
      have hpre : A <+: planBytes (stages packets) := ⟨ps.flatten, by rw [hA, planBytes_stages hok]⟩
      obtain ⟨h', hreading⟩ := h.turn hok hr hpre hrun hr'
      exact ⟨h', A, hA, hreading⟩)
    (by
      rintro r piece ps ⟨h, A, hA, done, st, rest, part, hr⟩ -
      refine ⟨?_, A ++ piece, by rw [List.append_assoc, ← hA, List.flatten_cons],
        done, st, rest, part, hr.recv piece⟩
      have hlen : r.buf.bytes.length ≤ (chunkReader.recv r piece).buf.bytes.length := by
        rw [chunkReader, WfBuffer.bytes_append, List.length_append]
        omega
      rcases h with ⟨hs, hlt⟩ | ⟨hs, hlt⟩
      · exact .inl ⟨hs, by omega⟩
      · exact .inr ⟨hs, by omega⟩)
    ht.1 ⟨h, A, hA, done, st, rest, part, hr⟩
  intro hnil
  rcases hinv.1 with ⟨-, hlen⟩ | ⟨-, hlen⟩ <;>
    · rw [hnil] at hlen
      simp at hlen

/-! ## The pair -/

/-- The reader gets ready: the buffer is empty, and the parser waits for a size line. -/
theorem reading_start (hs : p.state = .kExpectChunkLen) (hc : p.chunk = none)
    (hch : p.isChunked = true) (hb : b.bytes = []) (packets : List Packet) :
    ∃ done st rest part,
      Reading (stages packets) [] { parser := p, buf := b } done st rest part := by
  obtain ⟨line, rest, hhead⟩ := stages_head packets
  rw [hhead]
  exact ⟨[], .size line, rest, [], .start ⟨hs, rfl, hc⟩ hch hb⟩

/-- A body shorter than `2^31` is never cut. -/
theorem uncut_of_length (hok : ∀ pk ∈ packets, pk.Chunky) (hs : p.state = .kExpectChunkLen)
    (hc : p.chunk = none) (hch : p.isChunked = true) (hb : b.bytes = [])
    (hpieces : pieces.flatten = wire packets) (hlen : (wire packets).length < 2 ^ 31)
    (h : chunkReader.Reaches ({ parser := p, buf := b }, pieces) (r, ps)) :
    Uncut r.parser r.buf := by
  have hstart := reading_start hs hc hch hb packets
  obtain ⟨A, hA, hr⟩ := moment (plan_stages hok)
    ⟨[], by rw [List.nil_append, hpieces, planBytes_stages hok], hstart⟩ h
  have hle : r.buf.bytes.length ≤ A.length := by
    rcases hr with ⟨done, st, rest, part, hr⟩ | he
    · exact hr.suffix.length_le
    · exact he.suffix.length_le
  have hA' := congrArg List.length hA
  rw [planBytes_stages hok, List.length_append] at hA'
  exact fun _ => by omega

theorem delivered_of_uncut (hok : ∀ pk ∈ packets, pk.Chunky) (hs : p.state = .kExpectChunkLen)
    (hc : p.chunk = none) (hch : p.isChunked = true) (hb : b.bytes = [])
    (hpieces : pieces.flatten = wire packets)
    (h : ∀ r ps, chunkReader.Reaches ({ parser := p, buf := b }, pieces) (r, ps) →
      Uncut r.parser r.buf) :
    ∃ t, chunkReader.Completes { parser := p, buf := b } pieces t ∧
      t.chunks = deliveries packets ∧ t.buf.bytes = [] := by
  obtain ⟨line, rest, hhead⟩ := stages_head packets
  have hplan := plan_stages hok
  have hbytes := planBytes_stages hok
  have hdelivers := planDelivers_stages packets
  rw [hhead] at hplan hbytes hdelivers
  rw [← hdelivers]
  exact plan_delivered_of_uncut hplan ⟨hs, rfl, hc⟩ hch hb (hpieces.trans hbytes.symm)
    fun r ps hreach _ => h r ps hreach

theorem uncut_of_delivered (hok : ∀ pk ∈ packets, pk.Chunky) (hs : p.state = .kExpectChunkLen)
    (hc : p.chunk = none) (hch : p.isChunked = true) (hb : b.bytes = [])
    (hpieces : pieces.flatten = wire packets)
    (ht : chunkReader.Completes { parser := p, buf := b } pieces t) (hnil : t.buf.bytes = [])
    (hreach : chunkReader.Reaches ({ parser := p, buf := b }, pieces) (r, ps)) :
    Uncut r.parser r.buf := by
  intro hstate
  by_contra hlen
  have hstart := reading_start hs hc hch hb packets
  obtain ⟨A, hA, hr⟩ := moment (plan_stages hok)
    ⟨[], by rw [List.nil_append, hpieces, planBytes_stages hok], hstart⟩ hreach
  have hfull : Overfull r := .inl ⟨hstate, by omega⟩
  rcases hr with ⟨done, st, rest, part, hr⟩ | he
  · refine not_emptied hok hfull hr ?_ ⟨ht.reaches hreach, ht.2⟩ hnil
    rw [hA, planBytes_stages hok]
  · have hle := congrArg List.length hA
    rw [he.taken] at hle
    simp only [List.length_append] at hle
    omega

/-- **The writer and the reader agree exactly if the length of the buffer is never cut.** For
every run of the writer, every parser that a session has brought to a size line, and every
segmentation of what has been written. -/
theorem chunk_pair_iff {headerSent : Bool} {header : Bytes} {fs : List PostEvent} {w : Posting}
    {b₀ : WfBuffer} {es : List Call} {s : Session} (hok : ∀ pk ∈ packets, pk.Chunky)
    (hposts : PostsChunks header packets fs)
    (hw : run Posting.step (.start headerSent) fs = some w)
    (hsession : run Session.step (.start b₀) es = some s)
    (hs : s.parser.state = .kExpectChunkLen) (hb : b.bytes = [])
    (hpieces : pieces.flatten = w.body) :
    (∃ t, chunkReader.Completes { parser := s.parser, buf := b } pieces t ∧
        t.chunks = deliveries packets ∧ t.buf.bytes = []) ↔
      ∀ r ps, chunkReader.Reaches ({ parser := s.parser, buf := b }, pieces) (r, ps) →
        r.parser.state = .kExpectChunkBody → r.buf.bytes.length < 2 ^ 31 := by
  have hsound := run_sound hsession
  have hc := hsound.unspoiled.packet (.inr hs)
  have hch := hsound.chunked (.inl hs)
  rw [body_eq hposts hw] at hpieces
  constructor
  · rintro ⟨t, ht, -, hnil⟩ r ps hreach
    exact uncut_of_delivered hok hs hc hch hb hpieces ht hnil hreach
  · exact fun h => delivered_of_uncut hok hs hc hch hb hpieces h

/-- `hello`, cut in its data. -/
theorem chunk_pair_hello : ∃ w s t, run Posting.step (.start false) helloPosts = some w ∧
    run Session.step (.start (.new 1024 (by decide)))
      [.append (ascii "POST / HTTP/1.1\r\nTransfer-Encoding:chunked\r\n\r\n"), .parse] = some s ∧
    [ascii "5\r\nhe", ascii "llo0\r\n\r\n"].flatten = w.body ∧
    chunkReader.Completes { parser := s.parser, buf := s.buf }
      [ascii "5\r\nhe", ascii "llo0\r\n\r\n"] t ∧
    t.chunks = [some ⟨5, ascii "hello"⟩, none] ∧ t.buf.bytes = [] := by
  obtain ⟨s, hrun, hs, hb⟩ := chunkLen_of_header
  obtain ⟨w, hw, hbody, -⟩ := chunked_body_run
  have hok : ∀ pk ∈ [(⟨5, ascii "hello"⟩ : Packet)], pk.Chunky := by
    intro pk hpk
    rw [List.mem_singleton.1 hpk]
    exact ⟨by decide +kernel, by decide +kernel⟩
  have hposts : PostsChunks (ascii "header") [⟨5, ascii "hello"⟩] helloPosts := by decide +kernel
  have hpieces : [ascii "5\r\nhe", ascii "llo0\r\n\r\n"].flatten = w.body := by
    rw [hbody]
    decide +kernel
  have hwire := hpieces
  rw [body_eq hposts hw] at hwire
  have hsound := run_sound hrun
  have huncut : ∀ r ps, chunkReader.Reaches ({ parser := s.parser, buf := s.buf },
      [ascii "5\r\nhe", ascii "llo0\r\n\r\n"]) (r, ps) → Uncut r.parser r.buf := by
    intro r ps hreach
    refine uncut_of_length hok hs (hsound.unspoiled.packet (.inr hs)) (hsound.chunked (.inl hs)) hb
      hwire ?_ hreach
    rw [← hwire]
    decide +kernel
  obtain ⟨t, ht, hchunks, hnil⟩ :=
    (chunk_pair_iff hok hposts hw hrun hs hb hpieces).2 huncut
  exact ⟨w, s, t, hw, hrun, hpieces, ht, hchunks.trans (by decide +kernel), hnil⟩

/-- A body of more than `2^31` bytes that arrives in one piece. -/
theorem not_delivered_in_one (hok : ∀ pk ∈ packets, pk.Chunky) (hs : p.state = .kExpectChunkLen)
    (hc : p.chunk = none) (hch : p.isChunked = true) (hb : b.bytes = [])
    (hlen : 2 ^ 31 + 33 ≤ (wire packets).length)
    (ht : chunkReader.Completes { parser := p, buf := b } [wire packets] t) : t.buf.bytes ≠ [] := by
  obtain ⟨done, st, rest, part, hr⟩ := reading_start hs hc hch hb packets
  have hrecv := hr.recv (wire packets)
  have hfull : Overfull (chunkReader.recv { parser := p, buf := b } (wire packets)) := by
    refine .inr ⟨hs, ?_⟩
    rw [chunkReader, WfBuffer.bytes_append, List.length_append]
    omega
  have hreach : chunkReader.Reaches ({ parser := p, buf := b }, [wire packets])
      (chunkReader.recv { parser := p, buf := b } (wire packets), []) := .single (.recv rfl)
  exact not_emptied hok hfull hrecv (by simp) ⟨ht.reaches hreach, ht.2⟩

theorem length_wire (packets : List Packet) :
    (packets.map fun pk => pk.data.length).sum ≤ (wire packets).length := by
  induction packets with
  | nil => exact Nat.zero_le _
  | cons pk packets ih =>
    rw [List.map_cons, List.sum_cons, wire, List.length_append, List.length_append]
    omega

/-- A packet of `1024 * 1024` bytes. -/
def fullPacket : Packet := ⟨1024 * 1024, List.replicate (1024 * 1024) 0⟩

theorem length_fullPacket : fullPacket.data.length = 1024 * 1024 := List.length_replicate ..

/-- `2049` full packets, in one piece. -/
theorem chunk_pair_cut : ¬ ∀ (packets : List Packet) (header : Bytes) (fs : List PostEvent)
    (w : Posting) (es : List Call) (s : Session) (pieces : List Bytes),
    (∀ pk ∈ packets, pk.Chunky) → PostsChunks header packets fs →
    run Posting.step (.start false) fs = some w →
    run Session.step (.start (.new 1024 (by decide))) es = some s →
    s.parser.state = .kExpectChunkLen → s.buf.bytes = [] → pieces.flatten = w.body →
    ∃ t, chunkReader.Completes { parser := s.parser, buf := s.buf } pieces t ∧
      t.chunks = deliveries packets ∧ t.buf.bytes = [] := by
  intro h
  obtain ⟨s, hrun, hs, hb⟩ := chunkLen_of_header
  have hok : ∀ pk ∈ List.replicate 2049 fullPacket, pk.Chunky := by
    intro pk hpk
    rw [List.eq_of_mem_replicate hpk]
    refine ⟨fun hnil => ?_, length_fullPacket.le⟩
    have hlen := length_fullPacket
    rw [hnil] at hlen
    cases hlen
  obtain ⟨fs, w, hposts, hw⟩ := exists_run false [] (List.replicate 2049 fullPacket)
  have hbody := body_eq hposts hw
  obtain ⟨t, ht, -, hnil⟩ := h _ _ fs w _ s [wire (List.replicate 2049 fullPacket)] hok hposts hw
    hrun hs hb (by rw [List.flatten_singleton, hbody])
  have hlen : 2 ^ 31 + 33 ≤ (wire (List.replicate 2049 fullPacket)).length := by
    refine le_trans ?_ (length_wire _)
    rw [List.map_replicate, List.sum_replicate, length_fullPacket]
    norm_num
  have hsound := run_sound hrun
  exact not_delivered_in_one hok hs (hsound.unspoiled.packet (.inr hs))
    (hsound.chunked (.inl hs)) hb hlen ht hnil

end HttpNest
