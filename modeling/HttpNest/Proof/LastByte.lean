import HttpNest.Proof.ContentLength
import HttpNest.Proof.ContextLoop
import HttpNest.Proof.Session

/-!
# The last byte of a body

`while (buf.ReadableBytes() > 1)` leaves a single byte in the buffer until another one comes. A
body is read to its end all the same if no read ends in such a byte: `leftOver` is what one read
leaves, and over all reads the last one-byte reads decide (`foldl_leftOver`).

`Taking` is the context while the body arrives. A turn of the loop takes every byte
(`Taking.turn`), so `Answered` holds exactly if nothing is left over, for every length that the
parser reads as it is (`lastByte_answered_iff`). A longer body does not fit into a packet.
-/

namespace HttpNest

open CNumeral ListSearch HttpParser FeedLoop

variable {m : Message} {A T block body : Bytes} {c : HttpContext} {b : WfBuffer}

/-- A header block, without its `CRLFCRLF`, whose content length is a numeral of `N`. -/
structure Announces (block : Bytes) (N : ℕ) : Prop where
  terminator : find CRLFCRLF (block ++ CRLFCRLF) = some block.length
  startLine : ∃ line rest, StringUtils.splitString block CRLF = line :: rest ∧
    (StringUtils.splitString line [32]).length = 3
  numeral : IsNumeral 10 N (stripBlanks (storedValue block (ascii "content-length")))

theorem Announces.lengthBlock {N : ℕ} (h : Announces block N) (hN : N < 2 ^ 31) :
    LengthBlock block N where
  terminator := h.terminator
  startLine := h.startLine
  stored := by rw [← stoull_stripBlanks, h.numeral.stoull_eq, if_pos (by omega)]
  length_lt := hN

/-- When all reads have been parsed, the handler has been called once, with the request and the
body. -/
def Answered (r : HttpRequest) (body : Bytes) (reads : List Bytes) (b : WfBuffer) : Prop :=
  ∃ t, HttpContext.loop.Completes { httpParser := {}, buf := b } reads t ∧
    t.requests = [(some r, some ⟨body.length, body⟩)]

/-! ## One read -/

/-- The context after `A`, a part of the message that contains the header block. -/
structure Taking (m : Message) (A : Bytes) (c : HttpContext) : Prop where
  phase : Phase m A c.httpParser c.buf.bytes
  inBody : c.httpParser.state = .kExpectNormalBody ∨ c.httpParser.state = .kExpectHttpComplete
  requests : c.requests =
    if c.httpParser.state = .kExpectHttpComplete then [(some m.request, m.chunk)] else []

/-- A complete message leaves no byte in the buffer. -/
theorem Taking.empty_of_complete (h : Taking m A c) (hA : A <+: m.bytes)
    (hs : c.httpParser.state = .kExpectHttpComplete) : c.buf.bytes = [] := by
  obtain ⟨-, -, hA'⟩ := h.phase.of_complete hs
  have hle := hA.length_le
  rw [hA', List.length_append] at hle
  exact List.length_eq_zero_iff.1 (by omega)

/-- **A turn of the loop takes every byte.** -/
theorem Taking.turn (h : Taking m A c) (hA : A <+: m.bytes) (hguard : 1 < c.buf.bytes.length) :
    ∃ c', c.turn = .ok c' ∧ Taking m A c' ∧ c'.buf.bytes = [] := by
  have hne : c.buf.bytes ≠ [] := List.ne_nil_of_length_pos (by omega)
  have hphase := h.phase
  cases hphase with
  | headers hs _ => rcases h.inBody with hs' | hs' <;> rw [hs] at hs' <;> cases hs'
  | rejected hs _ _ => rcases h.inBody with hs' | hs' <;> rw [hs] at hs' <;> cases hs'
  | complete hs _ _ _ => exact absurd (h.empty_of_complete hA hs) hne
  | filling hf hs hcap hr hA' =>
    -- the bytes are at the end of the message, so they fit
    have hfits : c.buf.bytes.length ≤ c.httpParser.packet.room := by
      have hadd := hf.ok.room_add
      have hle := hA.length_le
      rw [hA', m.length_bytes, List.length_append, List.length_append] at hle
      omega
    have hlt : c.buf.bytes.length < 2 ^ 31 := lt_of_le_of_lt hfits hf.ok.room_lt
    rcases Phase.fill hf hs hcap hr hA' (T := []) (by rwa [List.append_nil]) hne with
      ⟨hneg, -⟩ | ⟨n, p', hn, hparse, hphase', hs'⟩
    · rw [toInt32_of_lt (by omega) (by omega)] at hneg
      omega
    rw [hf.ok.taken_eq hlt, min_eq_left hfits] at hn
    obtain ⟨c', hc', hp, hb, hreq⟩ := turn_of_parse hparse (.inl rfl)
    have hnil : c'.buf.bytes = [] := by
      rw [hb, WfBuffer.bytes_retrieve, hn, List.drop_length]
    refine ⟨c', hc', ⟨?_, ?_, ?_⟩, hnil⟩
    · rw [hp, hb, WfBuffer.bytes_retrieve]
      exact hphase'
    · rw [hp, hs']
      split_ifs
      · exact .inr rfl
      · exact .inl rfl
    -- the message is reported in the turn that completes it
    · have hno : p'.state ≠ .kExpectChunkComplete := by
        rw [hs']
        split_ifs <;> decide
      have hnone : c.requests = [] := by rw [h.requests, hs]; rfl
      rw [hreq, hp, hnone]
      by_cases hdone : p'.state = .kExpectHttpComplete
      · obtain ⟨hreq', hchunk, -⟩ := hphase'.of_complete hdone
        rw [if_pos (.inl hdone), if_pos hdone, hreq', hchunk]
        rfl
      · rw [if_neg (not_or.2 ⟨hdone, hno⟩), if_neg hdone]

/-- What the loop leaves of `n` bytes. -/
def leftOver (n : ℕ) : ℕ := if n ≤ 1 then n else 0

theorem leftOver_le (n : ℕ) : leftOver n ≤ 1 := by
  unfold leftOver
  split_ifs <;> omega

/-- The loop is left, with at most one byte. -/
theorem Taking.settle (h : Taking m A c) (hA : A <+: m.bytes) (reads : List Bytes) :
    ∃ c', HttpContext.loop.Reaches (c, reads) (c', reads) ∧ Taking m A c' ∧
      c'.buf.bytes.length = leftOver c.buf.bytes.length := by
  unfold leftOver
  split_ifs with hle
  · exact ⟨c, .refl, h, rfl⟩
  · have hguard : 1 < c.buf.bytes.length := by omega
    obtain ⟨c', hc', h', hnil⟩ := h.turn hA hguard
    exact ⟨c', .single (.turn (loop_guard.2 hguard) hc'), h', by rw [hnil]; rfl⟩

/-- The next read. -/
theorem Taking.recv (h : Taking m A c) (read : Bytes) :
    Taking m (A ++ read) (HttpContext.loop.recv c read) := by
  refine ⟨?_, h.inBody, h.requests⟩
  show Phase m (A ++ read) c.httpParser (c.buf.append read).bytes
  rw [WfBuffer.bytes_append]
  refine h.phase.append read fun hs => ?_
  rcases h.inBody with hs' | hs' <;> rw [hs] at hs' <;> cases hs'

/-! ## All reads -/

/-- **What the reads leave in the buffer.** -/
theorem Taking.completes {reads : List Bytes} : ∀ {A : Bytes} {c : HttpContext}, Taking m A c →
    A ++ reads.flatten <+: m.bytes →
    ∃ t, HttpContext.loop.Completes c reads t ∧ Taking m (A ++ reads.flatten) t ∧
      t.buf.bytes.length = reads.foldl (fun n read => leftOver (n + read.length))
        (leftOver c.buf.bytes.length) := by
  induction reads with
  | nil =>
    intro A c h hA
    rw [List.flatten_nil, List.append_nil] at hA ⊢
    obtain ⟨t, hr, ht, hlen⟩ := h.settle hA []
    have hle := leftOver_le c.buf.bytes.length
    exact ⟨t, ⟨hr, loop_guard_false.2 (by omega)⟩, ht, hlen⟩
  | cons read reads ih =>
    intro A c h hA
    rw [List.flatten_cons, ← List.append_assoc] at hA ⊢
    have hA' : A <+: m.bytes := ((List.prefix_append _ _).trans (List.prefix_append _ _)).trans hA
    obtain ⟨c', hr, h', hlen⟩ := h.settle hA' (read :: reads)
    have hle := leftOver_le c.buf.bytes.length
    have hexit : HttpContext.loop.guard c' = false := loop_guard_false.2 (by omega)
    obtain ⟨t, ht, htaking, htlen⟩ := ih (h'.recv read) hA
    refine ⟨t, ⟨(hr.trans (.single (.recv hexit))).trans ht.1, ht.2⟩, htaking, ?_⟩
    have hbytes : (HttpContext.loop.recv c' read).buf.bytes = c'.buf.bytes ++ read :=
      c'.buf.bytes_append read
    rw [htlen, hbytes, List.length_append, hlen, List.foldl_cons]

/-- A run of one-byte reads at the end leaves a byte if its length is odd. -/
theorem foldl_leftOver (first : Bytes) {reads : List Bytes} (h : ∀ read ∈ reads, read ≠ []) :
    reads.foldl (fun n read => leftOver (n + read.length)) (leftOver first.length) =
      ((first :: reads).rtakeWhile fun read => read.length = 1).length % 2 := by
  induction reads using List.reverseRecOn with
  | nil =>
    rw [List.foldl_nil, ← List.nil_append [first], List.rtakeWhile_concat]
    by_cases h1 : first.length = 1
    · simp [leftOver, h1]
    · rw [if_neg (by simpa using h1), List.length_nil]
      unfold leftOver
      split_ifs <;> omega
  | append_singleton reads read ih =>
    -- a last read of one byte makes the run longer, and any other one ends it
    have hne : read ≠ [] := h read (by simp)
    have hpos := List.length_pos_iff.2 hne
    rw [List.foldl_append, List.foldl_cons, List.foldl_nil,
      ih fun read hr => h read (List.mem_append_left _ hr), ← List.cons_append,
      List.rtakeWhile_concat]
    unfold leftOver
    by_cases h1 : read.length = 1
    · simp only [h1, decide_true, if_true, List.length_append, List.length_singleton]
      split_ifs <;> omega
    · simp only [h1, decide_false, Bool.false_eq_true, if_false, List.length_nil]
      rw [if_neg (by omega)]

theorem Phase.normalBody {p : HttpParser} {bs : Bytes} (h : Phase m A p bs)
    (hheaders : p.state ≠ .kExpectHeaders) (herror : p.state ≠ .kExpectError)
    (hcomplete : p.state ≠ .kExpectHttpComplete) : p.state = .kExpectNormalBody := by
  cases h with
  | headers hs _ => exact absurd hs hheaders
  | filling _ hs _ _ _ => exact hs
  | complete hs _ _ _ => exact absurd hs hcomplete
  | rejected hs _ _ => exact absurd hs herror

/-- The read that brings the header block. -/
theorem taking_first (hb : b.bytes = []) {first : Bytes} (hfirst : first <+: m.body)
    (hbody : m.body ≠ []) (reads : List Bytes) :
    ∃ c, HttpContext.loop.Reaches
        ({ httpParser := {}, buf := b }, (m.head ++ first) :: reads) (c, reads) ∧
      Taking m (m.head ++ first) c ∧ c.buf.bytes = first := by
  set c₀ : HttpContext := { httpParser := {}, buf := b } with hc₀
  set c₁ := HttpContext.loop.recv c₀ (m.head ++ first) with hc₁
  have hbytes : c₁.buf.bytes = m.head ++ first := by
    show (b.append (m.head ++ first)).bytes = _
    rw [WfBuffer.bytes_append, hb, List.nil_append]
  have hhead := m.length_head
  have hlen : c₁.buf.bytes.length = m.head.length + first.length := by
    rw [hbytes, List.length_append]
  have hA : c₁.buf.bytes <+: m.bytes ++ [] := by
    rw [hbytes, List.append_nil]
    exact (List.prefix_append_right_inj _).2 hfirst
  -- one turn reads the block, which does not complete a message with a body
  obtain ⟨p', hparse, hphase, hne, -, hns, hiff⟩ :=
    parse_head (p := c₁.httpParser) (b := c₁.buf) rfl rfl hA (by omega)
  have hincomplete : p'.state ≠ .kExpectHttpComplete := fun h => hbody (hiff.1 h)
  obtain ⟨c₂, hc₂, hp, hbuf, hreq⟩ := turn_of_parse hparse (.inl rfl)
  have hrest : c₁.buf.bytes.drop m.head.length = first := by rw [hbytes, List.drop_left]
  rw [hrest, hbytes] at hphase
  have hstate := hphase.normalBody hns hne hincomplete
  have hlast : c₂.buf.bytes = first := by rw [hbuf, WfBuffer.bytes_retrieve, hrest]
  refine ⟨c₂, ?_, ⟨?_, ?_, ?_⟩, hlast⟩
  · refine .head (.recv (loop_guard_false.2 ?_)) (.single (.turn (loop_guard.2 ?_) hc₂))
    · rw [hb]
      exact Nat.zero_le _
    · show 1 < c₁.buf.bytes.length
      omega
  · rw [hp, hlast]
    exact hphase
  · exact .inl (by rw [hp, hstate])
  · rw [hreq, hp, hstate]
    rfl

/-- **A message is answered exactly if its reads leave no byte over.** -/
theorem Message.answered_iff (hbody : m.body ≠ []) (hb : b.bytes = []) {first : Bytes}
    {reads : List Bytes} (hreads : ∀ read ∈ reads, read ≠ [])
    (hsplit : first ++ reads.flatten = m.body) :
    Answered m.request m.body ((m.head ++ first) :: reads) b ↔
      Even ((first :: reads).rtakeWhile fun read => read.length = 1).length := by
  obtain ⟨c, hr, htaking, hbytes⟩ := taking_first hb ⟨_, hsplit⟩ hbody reads
  have hall : m.head ++ first ++ reads.flatten = m.bytes := by
    rw [List.append_assoc, hsplit, Message.bytes]
  have hpre : m.head ++ first ++ reads.flatten <+: m.bytes := by rw [hall]
  obtain ⟨t, ht, hlast, hlen⟩ := htaking.completes hpre
  rw [hbytes, foldl_leftOver first hreads] at hlen
  rw [hall] at hlast
  have hcompletes : HttpContext.loop.Completes { httpParser := {}, buf := b }
      ((m.head ++ first) :: reads) t := ⟨hr.trans ht.1, ht.2⟩
  have hchunk : m.chunk = some ⟨m.body.length, m.body⟩ := if_neg hbody
  -- the run is even exactly if the buffer ends up empty
  rw [Nat.even_iff, ← hlen]
  constructor
  · rintro ⟨t', ht', hreq⟩
    rw [← hcompletes.det ht', hlast.requests] at hreq
    split_ifs at hreq with hs
    · rw [hlast.empty_of_complete (List.prefix_refl _) hs]
      rfl
  · intro h0
    have hnil : t.buf.bytes = [] := List.length_eq_zero_iff.1 h0
    -- with nothing in the buffer, all of the message has been taken
    have hdone : t.httpParser.state = .kExpectHttpComplete := by
      refine (hlast.phase.state_eq (.inl hnil) fun hs => ?_).2 le_rfl
      rcases hlast.inBody with hs' | hs' <;> rw [hs] at hs' <;> cases hs'
    refine ⟨t, hcompletes, ?_⟩
    rw [hlast.requests, if_pos hdone, hchunk]

/-! ## Bodies of any length -/

/-- The packets that the handler is given are as long as an `int32_t` counts. -/
theorem packet_length_lt {a : HttpContext × List Bytes} {reads : List Bytes}
    (h : HttpContext.loop.Reaches ({ httpParser := {}, buf := b }, reads) a)
    {r : Option HttpRequest} {pk : Packet} (hr : (r, some pk) ∈ a.1.requests) :
    pk.data.length < 2 ^ 31 := by
  have hinv : Sound a.1.httpParser ∧ ∀ q ∈ a.1.requests, ∀ pk, q.2 = some pk → pk.Ok := by
    refine reaches_inv (L := HttpContext.loop)
      (fun c _ => Sound c.httpParser ∧ ∀ q ∈ c.requests, ∀ pk, q.2 = some pk → pk.Ok)
      (fun c _ c' hc _ hturn => ?_) (fun c read _ hc _ => hc) h ⟨.init, fun q hq => by cases hq⟩
    obtain ⟨s, hparse, hrequests⟩ := parse_of_turn hturn
    have hsound := hc.1.outcome (parse_outcome hc.1.unspoiled hparse)
    refine ⟨hsound, fun q hq pk hpk => ?_⟩
    rcases hrequests with he | he <;> rw [he] at hq
    · exact hc.2 q hq pk hpk
    · rcases List.mem_append.1 hq with hq | hq
      · exact hc.2 q hq pk hpk
      · rw [List.mem_singleton.1 hq] at hpk
        exact hsound.ok pk hpk
  have hok := hinv.2 _ hr pk rfl
  have hle := hok.size_le
  have hlt := hok.capacity_lt
  unfold Packet.packetSize at hle
  omega

/-- **The handler has the request and the body when the last byte was read exactly if the body
is shorter than `2^31` and the reads end in an even number of one-byte reads.** -/
theorem lastByte_answered_iff {first : Bytes} {reads : List Bytes} {r : HttpRequest}
    (hblock : Announces block body.length) (hr : blockRequest block = some r) (hbody : body ≠ [])
    (hb : b.bytes = []) (hreads : ∀ read ∈ reads, read ≠ [])
    (hsplit : first ++ reads.flatten = body) :
    Answered r body ((block ++ CRLFCRLF ++ first) :: reads) b ↔
      body.length < 2 ^ 31 ∧
        Even ((first :: reads).rtakeWhile fun read => read.length = 1).length := by
  rcases lt_or_ge body.length (2 ^ 31) with hlt | hge
  · rw [and_iff_right hlt]
    exact Message.answered_iff (m := ⟨block, r, body, hblock.lengthBlock hlt, hr⟩) hbody hb hreads
      hsplit
  · refine iff_of_false ?_ (fun h => absurd h.1 (by omega))
    rintro ⟨t, ht, hreq⟩
    have hmem : (some r, some (⟨body.length, body⟩ : Packet)) ∈ t.requests := by
      rw [hreq]
      exact List.mem_singleton_self _
    have hlt : body.length < 2 ^ 31 := packet_length_lt ht.1 hmem
    omega

/-- Three body bytes. -/
def postBlock : Bytes := ascii "POST / HTTP/1.1\r\nContent-Length: 3"

theorem announces_postBlock : Announces postBlock 3 where
  terminator := by decide +kernel
  startLine := ⟨ascii "POST / HTTP/1.1", [ascii "Content-Length: 3"],
    by decide +kernel, by decide +kernel⟩
  numeral := ⟨by decide +kernel, by decide +kernel, by decide +kernel⟩

/-- The byte that came with the block is taken with the next read. -/
theorem lastByte_answered_post : ∃ r, blockRequest postBlock = some r ∧
    Answered r (ascii "abc") [postBlock ++ CRLFCRLF ++ ascii "a", ascii "bc"]
      (.new 1024 (by decide)) := by
  have hlen : (ascii "abc").length = 3 := by decide +kernel
  obtain ⟨r, hr, -⟩ := (announces_postBlock.lengthBlock (by decide)).blockRequest_eq
  refine ⟨r, hr, (lastByte_answered_iff (by rw [hlen]; exact announces_postBlock) hr
    (by decide +kernel) (WfBuffer.bytes_new 1024 (by decide)) ?_ (by decide +kernel)).2 ?_⟩
  · decide +kernel
  · exact ⟨by rw [hlen]; decide, by decide +kernel⟩

/-- The last byte comes alone, and is not read. -/
theorem lastByte_unanswered : ∃ r, blockRequest postBlock = some r ∧
    ¬ Answered r (ascii "abc") [postBlock ++ CRLFCRLF ++ ascii "ab", ascii "c"]
      (.new 1024 (by decide)) := by
  have hlen : (ascii "abc").length = 3 := by decide +kernel
  have hblock : LengthBlock postBlock (ascii "abc").length :=
    hlen ▸ announces_postBlock.lengthBlock (by decide)
  obtain ⟨r, hr, -⟩ := hblock.blockRequest_eq
  refine ⟨r, hr, fun h => ?_⟩
  have hsplit : ascii "ab" ++ [ascii "c"].flatten = ascii "abc" := by decide +kernel
  have heven := (Message.answered_iff (m := ⟨postBlock, r, ascii "abc", hblock, hr⟩)
    (show ascii "abc" ≠ [] by decide +kernel) (WfBuffer.bytes_new 1024 (by decide))
    (by decide +kernel) hsplit).1 h
  revert heven
  decide +kernel

end HttpNest
