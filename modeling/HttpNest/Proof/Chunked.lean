import HttpNest.Proof.Session
import HttpNest.Spec.HttpContext

/-!
# The chunked coding

The chunk states read a stream stage by stage: a size line, the data of a chunk, and
the line that ends a message after a size of zero. `Stage.follows` says which stage
comes after which. `StageTurn` is what one call makes of a stage:
it stays, or it passes and the parser is at the next one (`Passed.next`). `Reading plan A r`
says that the caller is at some stage of `plan`, having taken the stages before it out of
the `A` appended bytes and their chunks out of the parser; `Reading.turn` is one turn.

The line end behind the data of a chunk is read as the next size line, and as a size of
zero. So a single chunk and the final `0` are read as `5 hello / "" / 0 / ""`, with the
right deliveries (`chunked_deliver_iff`, from right to left), while with a second chunk
its size line ends the message (from left to right).
-/

namespace HttpNest

open CNumeral ListSearch HttpParser FeedLoop EventRun

/-! ## Stages -/

/-- What a chunk state reads; a line is without its `CRLF`. -/
inductive Stage
  | size (line : Bytes)
  | data (bs : Bytes)
  | last (line : Bytes)

namespace Stage

def bytes : Stage → Bytes
  | size line => line ++ CRLF
  | data bs => bs
  | last line => line ++ CRLF

/-- The values of `Chunk()` that are taken when the stage is complete. -/
def delivers : Stage → List (Option Packet)
  | size _ => []
  | data bs => [some ⟨bs.length, bs⟩]
  | last _ => [none]

/-- A line has no line end, and a size line is found before it is too long. -/
def Valid : Stage → Prop
  | size line => line.length ≤ 31 ∧ (13 : UInt8) ∉ line
  | data bs => bs ≠ [] ∧ bs.length < 2 ^ 31
  | last line => (13 : UInt8) ∉ line

/-- The stage that the parser expects after another. -/
def Follows : Stage → Stage → Prop
  | size line, last _ => chunkSize line = 0
  | size line, data bs => chunkSize line = bs.length
  | data _, size _ => True
  | last _, size _ => True
  | _, _ => False

/-- The parser is at a stage, and has taken `part` of it. -/
def At : Stage → Bytes → HttpParser → Prop
  | size _, part, p => p.state = .kExpectChunkLen ∧ part = [] ∧ p.chunk = none
  | data bs, part, p => p.state = .kExpectChunkBody ∧ p.Filling ∧
    p.packet.capacity = bs.length ∧ p.packet.data = part
  | last _, part, p => p.state = .kExpectLastEmptyChunk ∧ part = []

end Stage

/-- The bytes of a list of stages. -/
def planBytes (plan : List Stage) : Bytes := (plan.map Stage.bytes).flatten

def planDelivers (plan : List Stage) : List (Option Packet) := (plan.map Stage.delivers).flatten

/-- Stages that a parser passes in this order. -/
structure Plan (plan : List Stage) : Prop where
  valid : ∀ st ∈ plan, st.Valid
  follows : plan.IsChain Stage.Follows

variable {plan : List Stage} {A : Bytes} {p : HttpParser} {b : WfBuffer}

/-! ## One call at a stage -/

theorem find_line {line : Bytes} (h : (13 : UInt8) ∉ line) (rest : Bytes) :
    find CRLF (line ++ CRLF ++ rest) = some line.length := by
  have h0 : find (13 :: [10]) (CRLF ++ rest) = some 0 := find_self_append CRLF rest
  rw [List.append_assoc]
  exact find_append_of_not_mem h0 h

/-- A line is found as soon as its line end is there. -/
theorem find_line_front {line bs rest : Bytes} (h : (13 : UInt8) ∉ line)
    (hbs : bs <+: line ++ CRLF ++ rest) :
    find CRLF bs = if line.length + 2 ≤ bs.length then some line.length else none :=
  find_in_front hbs (find_line h rest)

/-- The parser behind a stage. -/
def Stage.Passed : Stage → HttpParser → Prop
  | size line, p => p.chunk = none ∧ p.curChunkLength = chunkSize line ∧
    p.state = if chunkSize line = 0 then .kExpectLastEmptyChunk else .kExpectChunkBody
  | data bs, p => p.state = .kExpectChunkComplete ∧ p.chunk = some ⟨bs.length, bs⟩
  | last _, p => p.state = .kExpectChunkComplete ∧ p.chunk = none

/-- In the data of a chunk, the length of the buffer is an `int`. -/
def Uncut (p : HttpParser) (b : WfBuffer) : Prop :=
  p.state = .kExpectChunkBody → b.bytes.length < 2 ^ 31

/-- What a call makes of a stage: it stays at it, having all of the buffer if its length is
not cut, or it passes it. -/
inductive StageTurn (st : Stage) (part : Bytes) (p : HttpParser) (b : WfBuffer) :
    HttpParser → WfBuffer → Prop
  | stays {p' : HttpParser} {b' : WfBuffer} (part' : Bytes) : st.At part' p' →
    part ++ b.bytes = part' ++ b'.bytes → b'.bytes.length ≤ b.bytes.length →
    (Uncut p b → (part' ++ b'.bytes).length < st.bytes.length) →
    StageTurn st part p b p' b'
  | passes {p' : HttpParser} {b' : WfBuffer} : st.Passed p' →
    part ++ b.bytes = st.bytes ++ b'.bytes → b'.bytes.length < b.bytes.length →
    StageTurn st part p b p' b'

theorem Stage.At.ne_complete {st : Stage} {part : Bytes} (h : st.At part p) :
    p.state ≠ .kExpectChunkComplete := by
  intro hc
  rcases st with line | bs | line <;> rw [h.1] at hc <;> cases hc

theorem Stage.Valid.bytes_pos {st : Stage} (h : st.Valid) : 0 < st.bytes.length := by
  rcases st with line | bs | line
  · simp [Stage.bytes, CRLF]
  · exact List.length_pos_iff.2 h.1
  · simp [Stage.bytes, CRLF]

/-- The part of a stage that has been taken is shorter than the stage. -/
theorem Stage.At.part_lt {st : Stage} {part : Bytes} (hv : st.Valid) (h : st.At part p) :
    part.length < st.bytes.length := by
  rcases st with line | bs | line
  · rw [h.2.1]
    exact hv.bytes_pos
  · obtain ⟨-, hf, hcap, hpart⟩ := h
    have hopen := hf.open'
    rw [Packet.room, Packet.packetSize, hcap, hpart] at hopen
    rw [Stage.bytes]
    omega
  · rw [h.2]
    exact hv.bytes_pos

/-- A line has passed, or its end is not there yet. -/
theorem line_turn {line rest : Bytes} (hline : (13 : UInt8) ∉ line)
    (hpre : b.bytes <+: line ++ CRLF ++ rest) :
    (find CRLF b.bytes = some line.length ∧ b.bytes.take line.length = line ∧
        b.bytes = line ++ CRLF ++ b.bytes.drop (line.length + 2)) ∨
      (find CRLF b.bytes = none ∧ b.bytes.length < line.length + 2) := by
  have hfind := find_line_front hline hpre
  by_cases hle : line.length + 2 ≤ b.bytes.length
  · rw [if_pos hle] at hfind
    have hb := eq_append_drop hpre (by simpa [CRLF] using hle)
    refine .inl ⟨hfind, ?_, by simpa [CRLF] using hb⟩
    rw [hb, List.append_assoc, List.take_left]
  · rw [if_neg hle] at hfind
    exact .inr ⟨hfind, by omega⟩

/-- A call without unread bytes stays. -/
theorem StageTurn.refl {st : Stage} {part : Bytes} (hv : st.Valid) (h : st.At part p)
    (hb : b.bytes = []) : StageTurn st part p b p b := by
  refine .stays part h rfl le_rfl fun _ => ?_
  rw [hb, List.append_nil]
  exact h.part_lt hv

theorem size_turn {line rest : Bytes} (hv : (Stage.size line).Valid)
    (h : (Stage.size line).At [] p) (hb : b.bytes ≠ [])
    (hpre : b.bytes <+: line ++ CRLF ++ rest) :
    ∃ p' b', parse p b = .ok (p'.state, p', b') ∧ p'.isChunked = p.isChunked ∧
      StageTurn (.size line) [] p b p' b' := by
  obtain ⟨hs, -, hc⟩ := h
  have hparse := parse_chunkLen hs hb
  rcases line_turn hv.2 hpre with ⟨hf, htake, hb'⟩ | ⟨hf, hlt⟩
  · simp only [hf, htake] at hparse
    refine ⟨_, _, hparse, rfl, .passes ⟨hc, rfl, rfl⟩ ?_ ?_⟩
    · rw [WfBuffer.bytes_retrieveUntil]
      exact hb'
    · rw [WfBuffer.bytes_retrieveUntil, List.length_drop]
      have := List.length_pos_iff.2 hb
      omega
  · -- a valid size line does not reach the limit on lines without an end
    have h32 : ¬ 32 < b.bytes.length := by
      have := hv.1
      omega
    simp only [hf, if_neg h32] at hparse
    refine ⟨p, b, hparse, rfl, .stays [] ⟨hs, rfl, hc⟩ rfl le_rfl fun _ => ?_⟩
    simpa [Stage.bytes, CRLF] using hlt

theorem last_turn {line rest : Bytes} (hv : (Stage.last line).Valid)
    (h : (Stage.last line).At [] p) (hb : b.bytes ≠ [])
    (hpre : b.bytes <+: line ++ CRLF ++ rest) :
    ∃ p' b', parse p b = .ok (p'.state, p', b') ∧ p'.isChunked = p.isChunked ∧
      StageTurn (.last line) [] p b p' b' := by
  have hparse := parse_lastEmpty h.1 hb
  rcases line_turn hv hpre with ⟨hf, -, hb'⟩ | ⟨hf, hlt⟩
  · simp only [hf] at hparse
    refine ⟨_, _, hparse, rfl, .passes ⟨rfl, rfl⟩ ?_ ?_⟩
    · rw [WfBuffer.bytes_retrieveUntil]
      exact hb'
    · rw [WfBuffer.bytes_retrieveUntil, List.length_drop]
      have := List.length_pos_iff.2 hb
      omega
  · simp only [hf] at hparse
    refine ⟨p, b, hparse, rfl, .stays [] h rfl le_rfl fun _ => ?_⟩
    simpa [Stage.bytes, CRLF] using hlt

theorem data_turn {bs part rest : Bytes} (h : (Stage.data bs).At part p) (hb : b.bytes ≠ [])
    (hpre : part ++ b.bytes <+: bs ++ rest) (hpos : ¬ toInt32 b.bytes.length < 0) :
    ∃ p' b', parse p b = .ok (p'.state, p', b') ∧ p'.isChunked = p.isChunked ∧
      StageTurn (.data bs) part p b p' b' := by
  obtain ⟨hs, hf, hcap, rfl⟩ := h
  have hparse := parse_body hf hb
  rw [if_neg hpos] at hparse
  set n := p.packet.taken b.bytes with hn
  have hlen : (b.bytes.take n).length = n := p.packet.length_take_taken b.bytes
  have hle : n ≤ p.packet.room := hf.ok.taken_le_room _
  have hroom : p.packet.room + p.packet.data.length = bs.length := by
    have hadd := hf.ok.room_add
    omega
  have hbytes : p.packet.data ++ b.bytes =
      p.packet.data ++ b.bytes.take n ++ (b.retrieve n).bytes := by
    rw [WfBuffer.bytes_retrieve, List.append_assoc, List.take_append_drop]
  have hlen' : (b.retrieve n).bytes.length = b.bytes.length - n := by
    rw [WfBuffer.bytes_retrieve, List.length_drop]
  refine ⟨p.advance (b.bytes.take n), b.retrieve n, hparse, rfl, ?_⟩
  rcases hle.lt_or_eq with hlt | hfull
  · obtain ⟨hf', hs'⟩ := hf.advance (b.bytes.take n) (by omega)
    refine .stays (p.packet.data ++ b.bytes.take n) ⟨hs'.trans hs, hf', hcap, rfl⟩ hbytes
      (by omega) fun huncut => ?_
    rw [hf.ok.taken_eq (huncut hs)] at hn
    rw [List.length_append, List.length_append, hlen, hlen', Stage.bytes]
    omega
  · -- the packet is full of the first bytes of the stream behind the size line
    have hdata : p.packet.data ++ b.bytes.take n = bs := by
      rw [hbytes] at hpre
      refine (List.prefix_of_prefix_length_le ((List.prefix_append _ _).trans hpre)
        (List.prefix_append bs rest) ?_).eq_of_length ?_ <;>
        · rw [List.length_append, hlen]
          omega
    refine .passes ⟨?_, ?_⟩ (by rw [hbytes, hdata]; rfl) ?_
    · rw [advance_state, if_pos (by omega), hs]
      rfl
    · rw [advance_chunk, Packet.push, hcap, hdata]
    · have := hf.open'
      have := p.packet.taken_le_length b.bytes
      omega

/-- **One call at a stage** of a stream that the buffer is the beginning of. -/
theorem stage_turn {st : Stage} {part rest : Bytes} (hv : st.Valid) (h : st.At part p)
    (hpre : part ++ b.bytes <+: st.bytes ++ rest) :
    (∃ e, parse p b = .error e ∧ ¬ Uncut p b) ∨
      ∃ p' b', parse p b = .ok (p'.state, p', b') ∧ p'.isChunked = p.isChunked ∧
        StageTurn st part p b p' b' := by
  by_cases hb : b.bytes = []
  · exact .inr ⟨p, b, parse_empty hb, rfl, .refl hv h hb⟩
  rcases st with line | bs | line
  · obtain ⟨hs, rfl, hc⟩ := h
    exact .inr (size_turn hv ⟨hs, rfl, hc⟩ hb hpre)
  · by_cases hneg : toInt32 b.bytes.length < 0
    · refine .inl ⟨.copyRange, by rw [parse_body h.2.1 hb, if_pos hneg], fun huncut => ?_⟩
      have hlt := huncut h.1
      rw [toInt32_of_lt (by omega) (by omega)] at hneg
      omega
    · exact .inr (data_turn h hb hpre hneg)
  · obtain ⟨hs, rfl⟩ := h
    exact .inr (last_turn hv ⟨hs, rfl⟩ hb hpre)

/-! ## Between stages -/

/-- What the caller does after a completion. -/
def cleared (p : HttpParser) : HttpParser :=
  if p.state = .kExpectChunkComplete then p.clearForNextChunk else p

theorem clearForNextChunk_chunked (h : p.isChunked = true) : p.clearForNextChunk =
    { p with state := .kExpectChunkLen, curChunkLength := -1, chunk := none } := by
  rw [HttpParser.clearForNextChunk, if_pos h]

/-- **Behind a stage the parser is at the one that follows it.** -/
theorem Stage.Passed.next {st st' : Stage} (hst : st.Follows st') (hv : st'.Valid)
    (h : st.Passed p) (hc : p.isChunked = true) : st'.At [] (cleared p) := by
  have hsize : p.state = .kExpectChunkComplete → ∀ line, (Stage.size line).At [] (cleared p) := by
    intro hs line
    rw [cleared, if_pos hs, clearForNextChunk_chunked hc]
    exact ⟨rfl, rfl, rfl⟩
  rcases st with line | bs | line <;> rcases st' with line' | bs' | line'
  · exact hst.elim
  · -- a size that is not zero goes to the body
    obtain ⟨hchunk, hlen, hs⟩ := h
    have hlen' : p.curChunkLength = bs'.length := hlen.trans hst
    have hpos : 0 < bs'.length := List.length_pos_iff.2 hv.1
    rw [if_neg (by rw [show chunkSize line = _ from hst]; omega)] at hs
    have hcap : p.bodyCapacity = bs'.length := by rw [bodyCapacity, hs, hlen']
    have hcleared : cleared p = p := if_neg (by rw [hs]; decide)
    have hlt := hv.2
    rw [hcleared]
    refine ⟨hs, filling_of_chunk_none (.inr (.inr hs)) hchunk (by omega) (by omega), ?_, ?_⟩
    · rw [packet, hchunk, Option.getD_none, hcap]
    · rw [packet, hchunk, Option.getD_none]
  · obtain ⟨-, -, hs⟩ := h
    rw [if_pos (show chunkSize line = 0 from hst)] at hs
    rw [cleared, if_neg (by rw [hs]; decide)]
    exact ⟨hs, rfl⟩
  · exact hsize h.1 line'
  · exact hst.elim
  · exact hst.elim
  · exact hsize h.1 line'
  · exact hst.elim
  · exact hst.elim

/-- What is taken behind a stage is what the stage delivers. -/
theorem Stage.Passed.delivers {st : Stage} (h : st.Passed p) :
    (if p.state = .kExpectChunkComplete then [p.chunk] else []) = st.delivers := by
  rcases st with line | bs | line
  · rw [if_neg (by rw [h.2.2]; split_ifs <;> decide)]
    rfl
  · rw [if_pos h.1, h.2]
    rfl
  · rw [if_pos h.1, h.2]
    rfl

theorem cleared_state (hc : p.isChunked = true) :
    (cleared p).state ≠ .kExpectChunkComplete := by
  rw [cleared]
  split_ifs with hs
  · rw [clearForNextChunk_chunked hc]
    exact nofun
  · exact hs

theorem cleared_isChunked (h : p.isChunked = true) : (cleared p).isChunked = true := by
  rw [cleared]
  split_ifs
  · rw [clearForNextChunk_chunked h]
    exact h
  · exact h

/-- A turn of the caller. -/
theorem chunkReader_body {r : ChunkReader} {p' : HttpParser} {b' : WfBuffer}
    (h : parse r.parser r.buf = .ok (p'.state, p', b')) :
    ∃ r', chunkReader.body r = .ok r' ∧ r'.parser = cleared p' ∧ r'.buf = b' ∧
      r'.chunks = r.chunks ++ (if p'.state = .kExpectChunkComplete then [p'.chunk] else []) ∧
      r'.running = if p'.state = .kExpectChunkComplete then r.running else
        decide (p'.state ≠ r.parser.state ∨ b'.bytes.length ≠ r.buf.bytes.length) := by
  have hbody : chunkReader.body r = .ok (if p'.state = .kExpectChunkComplete then
      { r with parser := p'.clearForNextChunk, buf := b', chunks := r.chunks ++ [p'.chunk] }
    else
      { r with
        parser := p', buf := b'
        running := p'.state ≠ r.parser.state ∨ b'.readableBytes ≠ r.buf.readableBytes }) := by
    simp only [chunkReader, h]
    rfl
  refine ⟨_, hbody, ?_⟩
  unfold cleared
  split_ifs <;> simp

/-- The parser is at a stage of the plan. -/
structure Reading (plan : List Stage) (A : Bytes) (r : ChunkReader) (done : List Stage)
    (st : Stage) (rest : List Stage) (part : Bytes) : Prop where
  plan_eq : plan = done ++ st :: rest
  at' : st.At part r.parser
  chunked : r.parser.isChunked = true
  taken : A = planBytes done ++ part ++ r.buf.bytes
  chunks : r.chunks = planDelivers done

/-- The plan has been read to its end. -/
structure Ended (plan : List Stage) (A : Bytes) (r : ChunkReader) : Prop where
  state : r.parser.state ≠ .kExpectChunkComplete
  taken : A = planBytes plan ++ r.buf.bytes
  chunks : r.chunks = planDelivers plan

/-- Turns left until the caller waits for the next append, or more. -/
def ChunkReader.rank (r : ChunkReader) : ℕ := if r.running then r.buf.bytes.length + 1 else 0

theorem planBytes_append (xs ys : List Stage) :
    planBytes (xs ++ ys) = planBytes xs ++ planBytes ys := by
  simp [planBytes]

theorem planBytes_cons (st : Stage) (ys : List Stage) :
    planBytes (st :: ys) = st.bytes ++ planBytes ys := rfl

theorem planDelivers_append (xs ys : List Stage) :
    planDelivers (xs ++ ys) = planDelivers xs ++ planDelivers ys := by
  simp [planDelivers]

theorem Stage.At.state_eq {st : Stage} {part part' : Bytes} {p' : HttpParser}
    (h : st.At part p) (h' : st.At part' p') : p.state = p'.state := by
  rcases st with line | bs | line <;> rw [h.1, h'.1]

/-- The caller stays at its stage, and goes on only with fewer bytes. -/
theorem Reading.stay {r r' : ChunkReader} {done rest : List Stage} {st : Stage}
    {part part' : Bytes} {p' : HttpParser} (h : Reading plan A r done st rest part)
    (hrun : r.running = true) (hat : st.At part' p') (hc : p'.isChunked = true)
    (hbytes : part ++ r.buf.bytes = part' ++ r'.buf.bytes)
    (hle : r'.buf.bytes.length ≤ r.buf.bytes.length) (hparser : r'.parser = cleared p')
    (hchunks : r'.chunks = r.chunks ++ if p'.state = .kExpectChunkComplete then [p'.chunk] else [])
    (hrun' : r'.running = if p'.state = .kExpectChunkComplete then r.running else
      decide (p'.state ≠ r.parser.state ∨ r'.buf.bytes.length ≠ r.buf.bytes.length)) :
    r'.rank < r.rank ∧ Reading plan A r' done st rest part' := by
  have hs := hat.ne_complete
  rw [if_neg hs, List.append_nil] at hchunks
  rw [if_neg hs] at hrun'
  rw [cleared, if_neg hs] at hparser
  refine ⟨?_, h.plan_eq, ?_, ?_, ?_, ?_⟩
  · rw [ChunkReader.rank, ChunkReader.rank, if_pos hrun]
    split_ifs with hgo
    · rw [hrun', hat.state_eq h.at'] at hgo
      simp only [ne_eq, not_true_eq_false, false_or, decide_eq_true_eq] at hgo
      omega
    · omega
  · rw [hparser]
    exact hat
  · rw [hparser]
    exact hc
  · rw [h.taken, List.append_assoc, hbytes, List.append_assoc]
  · rw [hchunks, h.chunks]

/-- The caller passes to the next stage, or behind the plan. -/
theorem Reading.pass {r r' : ChunkReader} {done rest : List Stage} {st : Stage} {part : Bytes}
    {p' : HttpParser} (hplan : Plan plan) (h : Reading plan A r done st rest part)
    (hpassed : st.Passed p') (hc : p'.isChunked = true)
    (hbytes : part ++ r.buf.bytes = st.bytes ++ r'.buf.bytes) (hparser : r'.parser = cleared p')
    (hchunks : r'.chunks =
      r.chunks ++ if p'.state = .kExpectChunkComplete then [p'.chunk] else []) :
    (∃ st' rest', Reading plan A r' (done ++ [st]) st' rest' []) ∨ Ended plan A r' := by
  have htaken : A = planBytes (done ++ [st]) ++ r'.buf.bytes := by
    rw [h.taken, List.append_assoc, hbytes, planBytes_append, planBytes_cons]
    simp [planBytes]
  have hdelivers : r'.chunks = planDelivers (done ++ [st]) := by
    rw [hchunks, h.chunks, hpassed.delivers, planDelivers_append]
    simp [planDelivers]
  cases rest with
  | nil =>
    refine .inr ⟨?_, ?_, ?_⟩
    · rw [hparser]
      exact cleared_state hc
    · rw [h.plan_eq]
      exact htaken
    · rw [h.plan_eq]
      exact hdelivers
  | cons st' rest' =>
    have hfollows : st.Follows st' := by
      have hchain := hplan.follows
      rw [h.plan_eq] at hchain
      exact (List.isChain_cons_cons.1 (hchain.right_of_append)).1
    refine .inl ⟨st', rest', ?_, ?_, ?_, ?_, hdelivers⟩
    · rw [h.plan_eq, List.append_assoc]
      rfl
    · rw [hparser]
      refine hpassed.next hfollows (hplan.valid st' ?_) hc
      rw [h.plan_eq]
      simp
    · rw [hparser]
      exact cleared_isChunked hc
    · rw [htaken, List.append_nil]

/-- **One turn of the caller**, on a stream that starts with the bytes of the plan. It
fails or falls short only for a buffer whose length is cut. -/
theorem Reading.turn {r : ChunkReader} {done rest : List Stage} {st : Stage} {part more : Bytes}
    (hplan : Plan plan) (h : Reading plan A r done st rest part) (hA : A <+: planBytes plan ++ more)
    (hrun : r.running = true) :
    (∃ e, chunkReader.body r = .error e ∧ ¬ Uncut r.parser r.buf) ∨
      ∃ r', chunkReader.body r = .ok r' ∧ r'.rank < r.rank ∧
        ((∃ done' st' rest' part', Reading plan A r' done' st' rest' part' ∧
          (Uncut r.parser r.buf → r'.running = false →
            (part' ++ r'.buf.bytes).length < st'.bytes.length)) ∨ Ended plan A r') := by
  have hst : st ∈ plan := by
    rw [h.plan_eq]
    simp
  have hpre : part ++ r.buf.bytes <+: st.bytes ++ (planBytes rest ++ more) := by
    rw [h.taken, h.plan_eq, planBytes_append, planBytes_cons] at hA
    simpa only [List.append_assoc, List.prefix_append_right_inj] using hA
  rcases stage_turn (hplan.valid st hst) h.at' hpre with ⟨e, he, hlong⟩ | ⟨p', b', hp, hc, hturn⟩
  · exact .inl ⟨e, by simp only [chunkReader, he]; rfl, hlong⟩
  obtain ⟨r', hr', hparser, rfl, hchunks, hrun'⟩ := chunkReader_body hp
  rw [h.chunked] at hc
  refine .inr ⟨r', hr', ?_⟩
  cases hturn with
  | stays part' hat hbytes hle hshort =>
    obtain ⟨hrank, hreading⟩ := h.stay hrun hat hc hbytes hle hparser hchunks hrun'
    exact ⟨hrank, .inl ⟨done, st, rest, part', hreading, fun huncut _ => hshort huncut⟩⟩
  | passes hpassed hbytes hlt =>
    -- it goes on, and with fewer bytes
    have hgo : r'.running = true := by
      rw [hrun']
      split_ifs
      · exact hrun
      · simp
        omega
    refine ⟨by rw [ChunkReader.rank, ChunkReader.rank, if_pos hgo, if_pos hrun]; omega, ?_⟩
    rcases h.pass hplan hpassed hc hbytes hparser hchunks with ⟨st', rest', hreading⟩ | hended
    · refine .inl ⟨done ++ [st], st', rest', [], hreading, fun _ hno => ?_⟩
      rw [hgo] at hno
      cases hno
    · exact .inr hended

/-- No byte follows the plan. -/
theorem Ended.bytes_eq_nil {r : ChunkReader} (h : Ended plan A r) (hA : A <+: planBytes plan) :
    r.buf.bytes = [] := by
  have hle := hA.length_le
  rw [h.taken, List.length_append] at hle
  exact List.length_eq_zero_iff.1 (by omega)

theorem Ended.turn {r : ChunkReader} (h : Ended plan A r) (hb : r.buf.bytes = [])
    (hrun : r.running = true) :
    ∃ r', chunkReader.body r = .ok r' ∧ r'.rank < r.rank ∧ Ended plan A r' := by
  obtain ⟨r', hr', hparser, hbuf, hchunks, hrun'⟩ := chunkReader_body (parse_empty hb)
  rw [if_neg h.state] at hrun'
  rw [if_neg h.state, List.append_nil] at hchunks
  rw [cleared, if_neg h.state] at hparser
  refine ⟨r', hr', ?_, by rw [hparser]; exact h.state, by rw [hbuf]; exact h.taken, ?_⟩
  · rw [ChunkReader.rank, if_neg (by simp [hrun']), ChunkReader.rank, if_pos hrun]
    exact Nat.succ_pos _
  · rw [hchunks, h.chunks]

/-! ## Whole streams -/

/-- Where a caller is: between the appends, at a stage that has not arrived whole. -/
def Placed (plan : List Stage) (A : Bytes) (r : ChunkReader) : Prop :=
  (∃ done st rest part, Reading plan A r done st rest part ∧
    (r.running = false → (part ++ r.buf.bytes).length < st.bytes.length)) ∨ Ended plan A r

theorem Reading.start {st : Stage} {rest : List Stage} (h : st.At [] p) (hc : p.isChunked = true)
    (hb : b.bytes = []) : Reading (st :: rest) [] { parser := p, buf := b } [] st rest [] := by
  refine ⟨rfl, h, hc, ?_, rfl⟩
  rw [hb]
  rfl

theorem Reading.recv {r : ChunkReader} {done rest : List Stage} {st : Stage} {part : Bytes}
    (h : Reading plan A r done st rest part) (piece : Bytes) :
    Reading plan (A ++ piece) (chunkReader.recv r piece) done st rest part := by
  refine ⟨h.plan_eq, h.at', h.chunked, ?_, h.chunks⟩
  rw [h.taken, chunkReader, WfBuffer.bytes_append, List.append_assoc, List.append_assoc]

theorem Ended.recv {r : ChunkReader} (h : Ended plan A r) (piece : Bytes) :
    Ended plan (A ++ piece) (chunkReader.recv r piece) := by
  refine ⟨h.state, ?_, h.chunks⟩
  rw [h.taken, chunkReader, WfBuffer.bytes_append, List.append_assoc]

/-- Once a whole plan has been appended, the caller waits only behind it. -/
theorem Placed.ended {r : ChunkReader} (h : Placed plan (planBytes plan) r)
    (hrun : r.running = false) : Ended plan (planBytes plan) r := by
  rcases h with ⟨done, st, rest, part, hr, hshort⟩ | he
  · exfalso
    have hlen := congrArg List.length hr.taken
    rw [hr.plan_eq, planBytes_append, planBytes_cons] at hlen
    have := hshort hrun
    simp only [List.length_append] at hlen this
    omega
  · exact he

/-- The caller has appended the beginning `A` of the plan, and is at some stage of it. -/
theorem Placed.turn {r : ChunkReader} (hplan : Plan plan) (h : Placed plan A r)
    (hA : A <+: planBytes plan) (huncut : Uncut r.parser r.buf) (hrun : r.running = true) :
    ∃ r', chunkReader.body r = .ok r' ∧ Placed plan A r' ∧ r'.rank < r.rank := by
  rcases h with ⟨done, st, rest, part, hr, -⟩ | he
  · have hpre : A <+: planBytes plan ++ [] := by rwa [List.append_nil]
    rcases hr.turn hplan hpre hrun with ⟨-, -, hcut⟩ | ⟨r', hr', hrank, hnext⟩
    · exact absurd huncut hcut
    refine ⟨r', hr', ?_, hrank⟩
    rcases hnext with ⟨done', st', rest', part', hr'', hshort⟩ | he
    · exact .inl ⟨done', st', rest', part', hr'', hshort huncut⟩
    · exact .inr he
  · obtain ⟨r', hr', hrank, he'⟩ := he.turn (he.bytes_eq_nil hA) hrun
    exact ⟨r', hr', .inr he', hrank⟩

theorem Placed.recv {r : ChunkReader} (h : Placed plan A r) (piece : Bytes) :
    Placed plan (A ++ piece) (chunkReader.recv r piece) := by
  rcases h with ⟨done, st, rest, part, hr, -⟩ | he
  · exact .inl ⟨done, st, rest, part, hr.recv piece, fun hno => (by cases hno)⟩
  · exact .inr (he.recv piece)

/-- The unread bytes are the end of what has been appended. -/
theorem Reading.suffix {r : ChunkReader} {done rest : List Stage} {st : Stage} {part : Bytes}
    (h : Reading plan A r done st rest part) : r.buf.bytes <:+ A :=
  ⟨_, h.taken.symm⟩

theorem Ended.suffix {r : ChunkReader} (h : Ended plan A r) : r.buf.bytes <:+ A :=
  ⟨_, h.taken.symm⟩

theorem Placed.suffix {r : ChunkReader} (h : Placed plan A r) : r.buf.bytes <:+ A := by
  rcases h with ⟨done, st, rest, part, hr, -⟩ | he
  · exact hr.suffix
  · exact he.suffix

/-- **The bytes of a plan are delivered as the plan says**, in any segmentation, and no byte
is left, if no length is cut at any moment. -/
theorem plan_delivered_of_uncut {st : Stage} {rest : List Stage} (hplan : Plan (st :: rest))
    (hat : st.At [] p) (hc : p.isChunked = true) (hb : b.bytes = []) {pieces : List Bytes}
    (hpieces : pieces.flatten = planBytes (st :: rest))
    (huncut : ∀ r ps, chunkReader.Reaches ({ parser := p, buf := b }, pieces) (r, ps) →
      r.buf.bytes.length ≤ (planBytes (st :: rest)).length → Uncut r.parser r.buf) :
    ∃ t, chunkReader.Completes { parser := p, buf := b } pieces t ∧
      t.chunks = planDelivers (st :: rest) ∧ t.buf.bytes = [] := by
  set plan := st :: rest with hplan'
  have hstart : Placed plan [] { parser := p, buf := b } := by
    refine .inl ⟨[], st, rest, [], .start hat hc hb, fun _ => ?_⟩
    rw [hb]
    exact (hplan.valid st (List.mem_cons_self ..)).bytes_pos
  obtain ⟨t, ht, -, A, hA, hplaced⟩ := FeedLoop.completes_of_measure (L := chunkReader)
    (fun r ps => chunkReader.Reaches ({ parser := p, buf := b }, pieces) (r, ps) ∧
      ∃ A, A ++ ps.flatten = planBytes plan ∧ Placed plan A r) ChunkReader.rank
    (by
      rintro r ps ⟨hreach, A, hA, hr⟩ hrun
      have hpre : A <+: planBytes plan := ⟨ps.flatten, hA⟩
      have hcut := huncut r ps hreach (hr.suffix.length_le.trans hpre.length_le)
      obtain ⟨r', hr', hplaced, hrank⟩ := hr.turn hplan hpre hcut hrun
      exact ⟨r', hr', ⟨hreach.tail (.turn hrun hr'), A, hA, hplaced⟩, hrank⟩)
    (by
      rintro r piece ps ⟨hreach, A, hA, hr⟩ hrun
      refine ⟨hreach.tail (.recv hrun), A ++ piece, ?_, hr.recv piece⟩
      rw [List.append_assoc, ← hA, List.flatten_cons])
    pieces _ ⟨.refl, [], by rw [List.nil_append, hpieces], hstart⟩
  rw [List.flatten_nil, List.append_nil] at hA
  have hended := (hA ▸ hplaced).ended ht.2
  exact ⟨t, ht, hended.chunks, List.self_eq_append_right.1 hended.taken⟩

/-- A plan of fewer than `2^31` bytes. -/
theorem plan_delivered {st : Stage} {rest : List Stage} (hplan : Plan (st :: rest))
    (hlen : (planBytes (st :: rest)).length < 2 ^ 31) (hat : st.At [] p) (hc : p.isChunked = true)
    (hb : b.bytes = []) {pieces : List Bytes} (hpieces : pieces.flatten = planBytes (st :: rest)) :
    ∃ t, chunkReader.Completes { parser := p, buf := b } pieces t ∧
      t.chunks = planDelivers (st :: rest) := by
  obtain ⟨t, ht, hchunks, -⟩ := plan_delivered_of_uncut hplan hat hc hb hpieces
    fun r ps _ hle _ => lt_of_le_of_lt hle hlen
  exact ⟨t, ht, hchunks⟩

/-- Deliveries are not taken back. -/
theorem chunks_prefix_of_body {r r' : ChunkReader} (h : chunkReader.body r = .ok r') :
    r.chunks <+: r'.chunks := by
  simp only [chunkReader] at h
  rcases hp : parse r.parser r.buf with e | ⟨s, p', b'⟩
  · rw [hp] at h
    cases h
  · rw [hp] at h
    simp only [bind, Except.bind, Except.ok.injEq] at h
    rw [← h]
    split_ifs
    · exact List.prefix_append _ _
    · exact List.prefix_rfl

/-- **A stream that starts with the bytes of a plan is delivered as the plan says** until
the plan has been read, whatever follows. -/
theorem plan_first {st : Stage} {rest : List Stage} (hplan : Plan (st :: rest))
    (hat : st.At [] p) (hc : p.isChunked = true) (hb : b.bytes = []) {pieces : List Bytes}
    {more : Bytes} (hpieces : pieces.flatten = planBytes (st :: rest) ++ more) {t : ChunkReader}
    (h : chunkReader.Completes { parser := p, buf := b } pieces t) :
    t.chunks <+: planDelivers (st :: rest) ∨ planDelivers (st :: rest) <+: t.chunks := by
  set plan := st :: rest with hplan'
  have hinv := FeedLoop.reaches_inv (L := chunkReader)
    (fun r ps => (∃ A, A ++ ps.flatten = pieces.flatten ∧
      ∃ done st rest part, Reading plan A r done st rest part) ∨ planDelivers plan <+: r.chunks)
    (by
      rintro r ps r' hr hrun hr'
      rcases hr with ⟨A, hA, done, st, rest, part, hr⟩ | hr
      · have hpre : A <+: planBytes plan ++ more := ⟨ps.flatten, by rw [hA, hpieces]⟩
        rcases hr.turn hplan hpre hrun with ⟨e, he, -⟩ | ⟨r'', hr'', -, hnext⟩
        · rw [hr'] at he
          cases he
        cases hr'.symm.trans hr''
        rcases hnext with ⟨done', st', rest', part', hr'', -⟩ | he
        · exact .inl ⟨A, hA, done', st', rest', part', hr''⟩
        · exact .inr (by rw [he.chunks])
      · exact .inr (hr.trans (chunks_prefix_of_body hr')))
    (by
      rintro r piece ps hr -
      rcases hr with ⟨A, hA, done, st, rest, part, hr⟩ | hr
      · refine .inl ⟨A ++ piece, ?_, done, st, rest, part, hr.recv piece⟩
        rw [List.append_assoc, ← hA, List.flatten_cons]
      · exact .inr hr)
    h.1 (.inl ⟨[], rfl, [], st, rest, [], .start hat hc hb⟩)
  rcases hinv with ⟨A, -, done, st', rest', part, hr⟩ | hr
  · left
    rw [hr.chunks, hr.plan_eq, planDelivers_append]
    exact List.prefix_append _ _
  · exact .inr hr

/-! ## The chunked coding -/

/-- A payload and the text of its size, shorter than the 32 bytes that `Parse` allows a
size line. The shortest text of a size in this range has at most six digits. -/
structure Chunk where
  size : Bytes
  payload : Bytes
  hex : IsHex size
  denotes : value 16 (digits 16 size) = payload.length
  short : size.length ≤ 31
  length_pos : 1 ≤ payload.length
  length_le : payload.length ≤ 1024 * 1024

namespace Chunk

def bytes (c : Chunk) : Bytes := c.size ++ CRLF ++ c.payload ++ CRLF

/-- The packet that holds the payload. -/
def packet (c : Chunk) : Packet := ⟨c.payload.length, c.payload⟩

/-- A body in the chunked coding. -/
def encode (chunks : List Chunk) : Bytes := (chunks.map bytes).flatten ++ ascii "0\r\n\r\n"

variable (c : Chunk)

theorem not_mem_size : (13 : UInt8) ∉ c.size := by
  intro h
  exact (of_hex_digit (c.hex 13 h)).2.2.2.2.2 rfl

theorem valid_size : (Stage.size c.size).Valid := ⟨c.short, c.not_mem_size⟩

theorem valid_payload : (Stage.data c.payload).Valid := by
  have h1 := c.length_pos
  have h2 := c.length_le
  exact ⟨List.length_pos_iff.1 h1, by omega⟩

theorem follows_size : (Stage.size c.size).Follows (.data c.payload) := by
  have hle := c.length_le
  have hval := c.denotes
  show chunkSize c.size = c.payload.length
  rw [chunkSize, strtol_hex c.hex (by omega), hval]
  exact toInt32_of_lt (by omega) (by omega)

end Chunk

/-- What the parser reads in a body without chunks, with one, and with more: the line end
behind a payload is a size line, so that the next size line is the last line. -/
def planOf : List Chunk → List Stage
  | [] => [.size (ascii "0"), .last []]
  | [c] => [.size c.size, .data c.payload, .size [], .last (ascii "0"), .size []]
  | c :: d :: _ => [.size c.size, .data c.payload, .size [], .last d.size]

theorem planOf_plan (chunks : List Chunk) : Plan (planOf chunks) := by
  rcases chunks with _ | ⟨c, _ | ⟨d, ds⟩⟩
  · refine ⟨?_, ?_⟩
    · intro st hst
      simp only [planOf, List.mem_cons, List.not_mem_nil, or_false] at hst
      rcases hst with rfl | rfl
      · exact ⟨by decide +kernel, by decide +kernel⟩
      · exact List.not_mem_nil
    · simp only [planOf, List.isChain_cons_cons, List.isChain_singleton, and_true]
      show chunkSize (ascii "0") = 0
      decide +kernel
  · refine ⟨?_, ?_⟩
    · intro st hst
      simp only [planOf, List.mem_cons, List.not_mem_nil, or_false] at hst
      rcases hst with rfl | rfl | rfl | rfl | rfl
      · exact c.valid_size
      · exact c.valid_payload
      · exact ⟨Nat.zero_le _, List.not_mem_nil⟩
      · exact (by decide +kernel : (13 : UInt8) ∉ ascii "0")
      · exact ⟨Nat.zero_le _, List.not_mem_nil⟩
    · simp only [planOf, List.isChain_cons_cons, List.isChain_singleton, and_true]
      exact ⟨c.follows_size, trivial, (by decide +kernel : chunkSize [] = 0), trivial⟩
  · refine ⟨?_, ?_⟩
    · intro st hst
      simp only [planOf, List.mem_cons, List.not_mem_nil, or_false] at hst
      rcases hst with rfl | rfl | rfl | rfl
      · exact c.valid_size
      · exact c.valid_payload
      · exact ⟨Nat.zero_le _, List.not_mem_nil⟩
      · exact d.not_mem_size
    · simp only [planOf, List.isChain_cons_cons, List.isChain_singleton, and_true]
      exact ⟨c.follows_size, trivial, (by decide +kernel : chunkSize [] = 0)⟩

/-- The stages of `planOf` are the beginning of the body, and all of it for one chunk. -/
theorem encode_eq (chunks : List Chunk) : ∃ more, Chunk.encode chunks =
    planBytes (planOf chunks) ++ more ∧ (chunks.length ≤ 1 → more = []) := by
  rcases chunks with _ | ⟨c, _ | ⟨d, ds⟩⟩
  · exact ⟨[], by decide +kernel, fun _ => rfl⟩
  · refine ⟨[], ?_, fun _ => rfl⟩
    have h0 : ascii "0\r\n\r\n" = ascii "0" ++ CRLF ++ CRLF := by decide +kernel
    simp [Chunk.encode, Chunk.bytes, planOf, planBytes, Stage.bytes, h0]
  · refine ⟨d.payload ++ CRLF ++ Chunk.encode ds, ?_, fun h => (by simp at h)⟩
    simp [Chunk.encode, Chunk.bytes, planOf, planBytes, Stage.bytes]

/-- What the caller should take from the parser. -/
def Chunk.deliveries (chunks : List Chunk) : List (Option Packet) :=
  chunks.map (fun c => some c.packet) ++ [none]

theorem planOf_start (chunks : List Chunk) (hs : p.state = .kExpectChunkLen)
    (hc : p.chunk = none) : ∃ st rest, planOf chunks = st :: rest ∧ st.At [] p := by
  rcases chunks with _ | ⟨c, _ | ⟨d, ds⟩⟩ <;> exact ⟨_, _, rfl, hs, rfl, hc⟩

/-- **Up to one chunk is delivered.** -/
theorem delivered_of_le_one {chunks : List Chunk} (hk : chunks.length ≤ 1)
    (hs : p.state = .kExpectChunkLen) (hc : p.chunk = none) (hch : p.isChunked = true)
    (hb : b.bytes = []) {pieces : List Bytes} (hpieces : pieces.flatten = Chunk.encode chunks) :
    ∃ t, chunkReader.Completes { parser := p, buf := b } pieces t ∧
      t.chunks = Chunk.deliveries chunks := by
  obtain ⟨more, hbytes, hmore⟩ := encode_eq chunks
  rw [hmore hk, List.append_nil] at hbytes
  obtain ⟨st, rest, hplan, hat⟩ := planOf_start chunks hs hc
  have hdelivers : planDelivers (planOf chunks) = Chunk.deliveries chunks := by
    rcases chunks with _ | ⟨c, _ | ⟨d, ds⟩⟩
    · rfl
    · rfl
    · simp at hk
  have hlen : (planBytes (planOf chunks)).length < 2 ^ 31 := by
    rcases chunks with _ | ⟨c, _ | ⟨d, ds⟩⟩
    · decide +kernel
    · have h1 := c.short
      have h2 := c.length_le
      simp [planOf, planBytes, Stage.bytes, CRLF, ascii]
      omega
    · simp at hk
  have hplan' := planOf_plan chunks
  rw [hplan] at hplan' hbytes hdelivers hlen
  obtain ⟨t, ht, htc⟩ := plan_delivered hplan' hlen hat hch hb (hpieces.trans hbytes)
  exact ⟨t, ht, htc.trans hdelivers⟩

/-- **From the second chunk on nothing is delivered as it should be.** -/
theorem not_delivered_of_two {chunks : List Chunk} (hk : 2 ≤ chunks.length)
    (hs : p.state = .kExpectChunkLen) (hc : p.chunk = none) (hch : p.isChunked = true)
    (hb : b.bytes = []) {pieces : List Bytes} (hpieces : pieces.flatten = Chunk.encode chunks)
    {t : ChunkReader} (h : chunkReader.Completes { parser := p, buf := b } pieces t) :
    t.chunks ≠ Chunk.deliveries chunks := by
  obtain ⟨more, hbytes, -⟩ := encode_eq chunks
  obtain ⟨st, rest, hplan, hat⟩ := planOf_start chunks hs hc
  have hplan' := planOf_plan chunks
  rw [hplan] at hplan' hbytes
  have hfirst := plan_first hplan' hat hch hb (hpieces.trans hbytes) h
  rw [← hplan] at hfirst
  rcases chunks with _ | ⟨c, _ | ⟨d, ds⟩⟩
  · simp at hk
  · simp at hk
  · intro heq
    rw [heq] at hfirst
    -- the plan delivers one chunk and the end of the message
    have hd : planDelivers (planOf (c :: d :: ds)) = [some c.packet, none] := rfl
    rw [hd] at hfirst
    rcases hfirst with hpre | hpre
    · have := hpre.length_le
      simp [Chunk.deliveries] at this
    · have := hpre.getElem (i := 1) (by simp)
      simp [Chunk.deliveries] at this

/-- **A chunked body is delivered exactly if it has at most one chunk.** For every parser
that a session has brought to a size line, and every segmentation of the body. -/
theorem chunked_deliver_iff {b₀ : WfBuffer} {es : List Call} {s : Session}
    (hsession : run Session.step (.start b₀) es = some s)
    (hs : s.parser.state = .kExpectChunkLen) (hb : b.bytes = []) (chunks : List Chunk)
    {pieces : List Bytes} (hpieces : pieces.flatten = Chunk.encode chunks) :
    (∃ t, chunkReader.Completes { parser := s.parser, buf := b } pieces t ∧
      t.chunks = Chunk.deliveries chunks) ↔ chunks.length ≤ 1 := by
  have hsound := run_sound hsession
  have hc := hsound.unspoiled.packet (.inr hs)
  have hch := hsound.chunked (.inl hs)
  constructor
  · rintro ⟨t, ht, heq⟩
    by_contra hk
    exact not_delivered_of_two (by omega) hs hc hch hb hpieces ht heq
  · exact fun hk => delivered_of_le_one hk hs hc hch hb hpieces

/-- A payload and a size of one digit. -/
def Chunk.digit (size : UInt8) (payload : Bytes) (h : digit? 16 size = some payload.length)
    (h0 : 1 ≤ payload.length) (hle : payload.length ≤ 1024 * 1024) : Chunk where
  size := [size]
  payload := payload
  hex := by
    intro c hc
    rw [List.mem_singleton.1 hc, h]
    rfl
  denotes := by simp [digits, h, value]
  short := by simp
  length_pos := h0
  length_le := hle

def Chunk.hello : Chunk := .digit 53 (ascii "hello") (by decide +kernel) (by decide) (by decide)

def Chunk.abc : Chunk := .digit 51 (ascii "abc") (by decide +kernel) (by decide) (by decide)

/-- A header block that announces the chunked coding. -/
theorem chunkLen_of_header : ∃ s, run Session.step (.start (.new 1024 (by decide)))
    [.append (ascii "POST / HTTP/1.1\r\nTransfer-Encoding:chunked\r\n\r\n"), .parse] = some s ∧
      s.parser.state = .kExpectChunkLen ∧ s.buf.bytes = [] := by
  have h : (run Session.step (.start (.new 1024 (by decide)))
      [.append (ascii "POST / HTTP/1.1\r\nTransfer-Encoding:chunked\r\n\r\n"), .parse]).map
      (fun s => (s.parser.state, s.buf.bytes)) = some (.kExpectChunkLen, []) := by
    decide +kernel
  obtain ⟨s, hs, heq⟩ := Option.map_eq_some_iff.1 h
  exact ⟨s, hs, (Prod.mk.inj heq).1, (Prod.mk.inj heq).2⟩

/-- Two chunks, `hello` and `abc`, in one piece. -/
theorem chunked_truncates : ¬ ∀ (es : List Call) (s : Session) (chunks : List Chunk)
    (pieces : List Bytes), run Session.step (.start (.new 1024 (by decide))) es = some s →
    s.parser.state = .kExpectChunkLen → s.buf.bytes = [] →
    pieces.flatten = Chunk.encode chunks →
    ∃ t, chunkReader.Completes { parser := s.parser, buf := s.buf } pieces t ∧
      t.chunks = Chunk.deliveries chunks := by
  intro h
  obtain ⟨s, hrun, hs, hb⟩ := chunkLen_of_header
  have hsound := run_sound hrun
  obtain ⟨t, ht, heq⟩ := h _ s [.hello, .abc] [Chunk.encode [.hello, .abc]] hrun hs hb
    (by rw [List.flatten_singleton])
  exact not_delivered_of_two (by simp) hs (hsound.unspoiled.packet (.inr hs))
    (hsound.chunked (.inl hs)) hb (by rw [List.flatten_singleton]) ht heq

/-- One chunk, cut in its data. -/
theorem chunked_deliver_hello : ∃ s t, run Session.step (.start (.new 1024 (by decide)))
      [.append (ascii "POST / HTTP/1.1\r\nTransfer-Encoding:chunked\r\n\r\n"), .parse] = some s ∧
    chunkReader.Completes { parser := s.parser, buf := s.buf }
      [ascii "5\r\nhe", ascii "llo\r\n0\r\n\r\n"] t ∧
    t.chunks = [some ⟨5, ascii "hello"⟩, none] := by
  obtain ⟨s, hrun, hs, hb⟩ := chunkLen_of_header
  have hpieces : [ascii "5\r\nhe", ascii "llo\r\n0\r\n\r\n"].flatten = Chunk.encode [.hello] := by
    decide +kernel
  obtain ⟨t, ht, heq⟩ := (chunked_deliver_iff hrun hs hb [.hello] hpieces).2 (by decide)
  exact ⟨s, t, hrun, ht, heq.trans (by decide +kernel)⟩

end HttpNest
