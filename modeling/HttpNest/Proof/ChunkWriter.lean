import HttpNest.Lib.ChunkedBody
import HttpNest.Spec.HttpPost

/-!
# What `PostChunk` writes

`Sending` is the invariant of a context whose chunk header has been posted, and `owed` is
what it still has to hand to the connection by itself: the data of a packet whose size line is
being written. A completion pays it (`Sending.complete`), and a post adds to it.

* `handed_eq`: behind the header a run hands over `wire packets`, whatever the order of posts
  and completions.
* `chunked_body_iff`: there is no line end behind the data of a packet, so this is a body in
  the chunked coding only without packets.
-/

namespace HttpNest

open CNumeral EventRun

/-- A packet that can be posted as a chunk: its size is positive as an `int32_t`. -/
structure Packet.Postable (pk : Packet) : Prop where
  ne_nil : pk.data ≠ []
  lt : pk.data.length < 2 ^ 31

namespace Posting

/-- What the packets and the end of the body become. -/
def wire : List Packet → Bytes
  | [] => chunkEof
  | pk :: pks => HttpPoster.chunkLen pk ++ pk.data ++ wire pks

/-- What has been handed to the connection behind the header. -/
def body (s : Posting) : Bytes := s.handed.tail.flatten

/-- The packets are posted one by one behind the header, and then the end of the body. -/
def PostsChunks (header : Bytes) (packets : List Packet) (es : List PostEvent) : Prop :=
  posts es = .postChunkHeader header :: packets.map .postChunk ++ [.postEofChunk]

instance (header : Bytes) (packets : List Packet) (es : List PostEvent) :
    Decidable (PostsChunks header packets es) := inferInstanceAs (Decidable (_ = _))

variable {s t : Posting} {pk : Packet} {packets : List Packet} {es : List PostEvent}
  {header : Bytes} {headerSent : Bool}

/-! ## Steps -/

/-- What the context sends by itself when the write is complete. -/
def owed (s : Posting) : Bytes :=
  if s.poster.postState = .kHttpContextPostChunkLen then s.poster.outPakcet.data else []

/-- The header has been posted, and nothing but chunks since. -/
structure Sending (s : Posting) : Prop where
  headerSent : s.poster.headerSent = true
  state : s.poster.postState = .kHttpContextPostInit ∨ s.writing = true ∧
    (s.poster.postState = .kHttpContextPostChunkLen ∨
      s.poster.postState = .kHttpContextPostChunkBody ∨
      s.poster.postState = .kHttpContextPostChunkEOF)

theorem owed_of_ne (h : s.poster.postState ≠ .kHttpContextPostChunkLen) : s.owed = [] := if_neg h

/-- Nothing is owed when the write has been completed. -/
theorem Sending.owed_eq (h : Sending s) (hw : s.writing = false) : s.owed = [] := by
  rcases h.state with hs | ⟨hwriting, -⟩
  · exact owed_of_ne (by rw [hs]; decide)
  · rw [hw] at hwriting
    cases hwriting

theorem post_eq_some {r : HttpPoster × Bytes} (h : s.post (some r) = some t) :
    s.writing = false ∧ t = s.send r := by
  unfold post at h
  split_ifs at h with hw
  cases h
  exact ⟨by simpa using hw, rfl⟩

theorem Sending.complete (h : Sending s) (ht : s.step .writeComplete = some t) :
    Sending t ∧ ∃ more, t.handed = s.handed ++ more ∧ more.flatten ++ t.owed = s.owed := by
  rcases h.state with hs | ⟨-, hs | hs | hs⟩
  · -- a completion without a write
    simp only [step, HttpPoster.writeComplete, hs] at ht
    cases ht
    refine ⟨⟨h.headerSent, .inl hs⟩, [], by simp, ?_⟩
    simp [owed, hs]
  · simp only [step, HttpPoster.writeComplete, hs] at ht
    cases ht
    refine ⟨⟨h.headerSent, .inr ⟨rfl, .inr (.inl rfl)⟩⟩, [s.poster.outPakcet.data], rfl, ?_⟩
    simp [owed, hs, send]
  · simp only [step, HttpPoster.writeComplete, hs] at ht
    cases ht
    refine ⟨⟨h.headerSent, .inl rfl⟩, [], by simp, ?_⟩
    simp [owed, hs]
  · simp only [step, HttpPoster.writeComplete, hs] at ht
    cases ht
    refine ⟨⟨h.headerSent, .inl rfl⟩, [], by simp, ?_⟩
    simp [owed, hs]

theorem Sending.postChunk (h : Sending s) (ht : s.step (.postChunk pk) = some t) :
    Sending t ∧ s.owed = [] ∧ t.handed = s.handed ++ [HttpPoster.chunkLen pk] ∧
      t.owed = pk.data := by
  obtain ⟨hw, rfl⟩ := post_eq_some ht
  have hc : s.poster.postChunk pk = ({ s.poster with
      outPakcet := pk, postState := .kHttpContextPostChunkLen
      header := HttpPoster.chunkLen pk }, HttpPoster.chunkLen pk) := if_pos h.headerSent
  rw [hc]
  exact ⟨⟨h.headerSent, .inr ⟨rfl, .inl rfl⟩⟩, h.owed_eq hw, rfl, rfl⟩

theorem Sending.postEofChunk (h : Sending s) (ht : s.step .postEofChunk = some t) :
    Sending t ∧ s.owed = [] ∧ t.handed = s.handed ++ [chunkEof] ∧ t.owed = [] := by
  obtain ⟨hw, rfl⟩ := post_eq_some ht
  exact ⟨⟨h.headerSent, .inr ⟨rfl, .inr (.inr rfl)⟩⟩, h.owed_eq hw, rfl, rfl⟩

/-! ## Runs -/

theorem posts_cons {e : PostEvent} (h : e ≠ .writeComplete) : posts (e :: es) = e :: posts es := by
  simp [posts, h]

/-- The steps of a run, with what it has handed to the connection. -/
def Hands (s : Posting) (es : List PostEvent) (t : Posting) (bs : Bytes) : Prop :=
  run step s es = some t → ∃ more, t.handed = s.handed ++ more ∧ more.flatten = bs

/-- The first step hands over `first`, and the others the rest. -/
theorem Hands.cons {e : PostEvent} {u : Posting} {first : List Bytes} {bs : Bytes}
    (hu : s.step e = some u) (hfirst : u.handed = s.handed ++ first) (h : Hands u es t bs) :
    Hands s (e :: es) t (first.flatten ++ bs) := by
  intro hrun
  obtain ⟨v, hv, hrun'⟩ := run_cons_eq_some.1 hrun
  rw [hu] at hv
  cases hv
  obtain ⟨more, hmore, rfl⟩ := h hrun'
  exact ⟨first ++ more, by rw [hmore, hfirst, List.append_assoc], by rw [List.flatten_append]⟩

/-- Without posts nothing but what is owed is handed over. -/
theorem Sending.run_complete : ∀ {s : Posting}, Sending s → posts es = [] → s.owed = [] →
    Hands s es t [] := by
  induction es with
  | nil =>
    intro s _ _ _ hrun
    cases hrun
    exact ⟨[], by simp, rfl⟩
  | cons e es ih =>
    intro s h hposts howed hrun
    obtain ⟨u, hu, -⟩ := run_cons_eq_some.1 hrun
    by_cases he : e = .writeComplete
    · rw [he] at hu hposts
      obtain ⟨hsend, first, hfirst, hmore⟩ := h.complete hu
      rw [howed] at hmore
      obtain ⟨hnil, howed'⟩ := List.append_eq_nil_iff.1 hmore
      have hhands := Hands.cons (e := e) (by rw [he]; exact hu) hfirst (ih hsend hposts howed')
      rw [hnil] at hhands
      exact hhands hrun
    · rw [posts_cons he] at hposts
      cases hposts

/-- **What a run behind the header hands over**: what is owed, and then the packets that are
posted. -/
theorem Sending.run_wire : ∀ {s : Posting} {packets : List Packet}, Sending s →
    posts es = packets.map .postChunk ++ [.postEofChunk] →
    Hands s es t (s.owed ++ wire packets) := by
  induction es with
  | nil =>
    intro s packets _ hposts
    exact absurd hposts.symm (by simp [posts])
  | cons e es ih =>
    intro s packets h hposts hrun
    obtain ⟨u, hu, -⟩ := run_cons_eq_some.1 hrun
    by_cases he : e = .writeComplete
    · rw [he] at hposts
      obtain ⟨hsend, first, hfirst, howed⟩ := h.complete (he ▸ hu)
      have hhands := Hands.cons hu hfirst (ih hsend hposts)
      rw [← List.append_assoc, howed] at hhands
      exact hhands hrun
    rw [posts_cons he] at hposts
    -- a post comes when nothing is owed, since the write before it is complete
    cases packets with
    | nil =>
      obtain ⟨rfl, hposts'⟩ := List.cons.inj hposts
      obtain ⟨hsend, howed, hfirst, howed'⟩ := h.postEofChunk hu
      have hhands := Hands.cons (t := t) hu hfirst (hsend.run_complete hposts' howed')
      rw [howed]
      simpa [wire] using hhands hrun
    | cons pk packets =>
      obtain ⟨rfl, hposts'⟩ := List.cons.inj hposts
      obtain ⟨hsend, howed, hfirst, howed'⟩ := h.postChunk hu
      have hhands := Hands.cons hu hfirst (ih hsend hposts')
      rw [howed'] at hhands
      rw [howed]
      simpa [wire, List.append_assoc] using hhands hrun

/-- **What is handed over behind the header.** -/
theorem handed_eq (hposts : PostsChunks header packets es)
    (hrun : run step (start headerSent) es = some t) :
    ∃ more, t.handed = header :: more ∧ more.flatten = wire packets := by
  have hinit : ∀ {es : List PostEvent} {s : Posting}, s.poster.postState = .kHttpContextPostInit →
      PostsChunks header packets es → run step s es = some t →
      ∃ more, t.handed = s.handed ++ header :: more ∧ more.flatten = wire packets := by
    intro es
    induction es with
    | nil =>
      intro s _ hposts
      exact absurd hposts.symm (by simp [posts])
    | cons e es ih =>
      intro s hs hposts hrun
      obtain ⟨u, hu, hrun'⟩ := run_cons_eq_some.1 hrun
      by_cases he : e = .writeComplete
      · -- a completion without a write
        rw [he] at hu hposts
        simp only [step, HttpPoster.writeComplete, hs] at hu
        cases hu
        exact ih (s := { s with writing := false }) hs hposts hrun'
      · rw [PostsChunks, posts_cons he] at hposts
        obtain ⟨rfl, hposts'⟩ := List.cons.inj hposts
        have hc : s.poster.postChunkHeader header = some ({ s.poster with
            header := header, postState := .kHttpContextPostInit, headerSent := true }, header) :=
          if_neg (by simp [hs])
        simp only [step, hc] at hu
        obtain ⟨-, rfl⟩ := post_eq_some hu
        obtain ⟨more, hmore, hflat⟩ := Sending.run_wire ⟨rfl, .inl rfl⟩ hposts' hrun'
        refine ⟨more, by rw [hmore, send, List.append_assoc]; rfl, ?_⟩
        rw [hflat, owed_of_ne (by simp [send])]
        rfl
  obtain ⟨more, hmore, hflat⟩ := hinit rfl hposts hrun
  exact ⟨more, by rw [hmore]; rfl, hflat⟩

theorem body_eq (hposts : PostsChunks header packets es)
    (hrun : run step (start headerSent) es = some t) : t.body = wire packets := by
  obtain ⟨more, hmore, hflat⟩ := handed_eq hposts hrun
  rw [body, hmore, List.tail_cons, hflat]

/-- Nothing is being written, and nothing is owed. -/
structure Idle (s : Posting) : Prop where
  headerSent : s.poster.headerSent = true
  state : s.poster.postState = .kHttpContextPostInit
  writing : s.writing = false

theorem Idle.chunk (h : Idle s) (pk : Packet) :
    ∃ u, run step s [.postChunk pk, .writeComplete, .writeComplete] = some u ∧ Idle u := by
  have hc : s.poster.postChunk pk = ({ s.poster with
      outPakcet := pk, postState := .kHttpContextPostChunkLen
      header := HttpPoster.chunkLen pk }, HttpPoster.chunkLen pk) := if_pos h.headerSent
  refine ⟨{
    poster := { s.poster with
      outPakcet := pk, postState := .kHttpContextPostInit, header := HttpPoster.chunkLen pk }
    handed := s.handed ++ [HttpPoster.chunkLen pk] ++ [pk.data] }, ?_, h.headerSent, rfl, rfl⟩
  simp [run_cons, step, post, h.writing, hc, send, HttpPoster.writeComplete]

theorem Idle.run_chunks (packets : List Packet) : ∀ {s : Posting}, Idle s → ∃ es t,
    posts es = packets.map .postChunk ++ [.postEofChunk] ∧ run step s es = some t := by
  induction packets with
  | nil =>
    intro s h
    refine ⟨[.postEofChunk], s.send s.poster.postEofChunk, rfl, ?_⟩
    simp [run_cons, step, post, h.writing]
  | cons pk packets ih =>
    intro s h
    obtain ⟨u, hu, hidle⟩ := h.chunk pk
    obtain ⟨es, t, hposts, ht⟩ := ih hidle
    refine ⟨[.postChunk pk, .writeComplete, .writeComplete] ++ es, t, ?_, run_append.2 ⟨u, hu, ht⟩⟩
    show _ = PostEvent.postChunk pk :: (packets.map .postChunk ++ [.postEofChunk])
    rw [← hposts]
    simp [posts]

/-- All packets can be posted. -/
theorem exists_run (headerSent : Bool) (header : Bytes) (packets : List Packet) :
    ∃ es t, PostsChunks header packets es ∧ run step (start headerSent) es = some t := by
  obtain ⟨u, hu, hidle⟩ : ∃ u, run step (start headerSent)
      [.postChunkHeader header, .writeComplete] = some u ∧ Idle u := ⟨_, rfl, rfl, rfl, rfl⟩
  obtain ⟨es, t, hposts, ht⟩ := hidle.run_chunks packets
  refine ⟨[.postChunkHeader header, .writeComplete] ++ es, t, ?_, run_append.2 ⟨u, hu, ht⟩⟩
  show _ = PostEvent.postChunkHeader header :: (packets.map .postChunk ++ [.postEofChunk])
  rw [← hposts]
  simp [posts]

/-! ## The chunked coding -/

theorem chunkLen_eq (h : pk.data.length < 2 ^ 31) :
    HttpPoster.chunkLen pk = hexText pk.data.length ++ CRLF := by
  have hsize : (pk.packetSize % 2 ^ 32).toNat = pk.data.length := by
    unfold Packet.packetSize
    omega
  rw [HttpPoster.chunkLen, hsize]

/-- The bytes behind the data of a packet are not a line end. -/
theorem not_lineEnd_wire (packets : List Packet) : ¬ ChunkedBody.lineEnd <+: wire packets := by
  -- a size line comes first, of a packet or of the end
  have hhex : ∀ {bs rest : Bytes}, bs ≠ [] → IsHex bs → ¬ ChunkedBody.lineEnd <+: bs ++ rest := by
    rintro (_ | ⟨c, bs⟩) rest hne hbs hpre
    · exact hne rfl
    · obtain ⟨more, hmore⟩ := hpre
      have hc : 13 = c := (List.cons.inj hmore).1
      exact ChunkedBody.cr_not_mem hbs (hc ▸ List.mem_cons_self ..)
  cases packets with
  | nil => decide +kernel
  | cons pk packets =>
    rw [wire, HttpPoster.chunkLen, List.append_assoc, List.append_assoc]
    exact hhex (hexText_ne_nil _) (isHex_hexText _)

theorem chunkedBody_wire_iff (hok : ∀ pk ∈ packets, pk.Postable) :
    (∃ ds, ChunkedBody ds (wire packets)) ↔ packets = [] := by
  constructor
  · rintro ⟨ds, h⟩
    cases packets with
    | nil => rfl
    | cons pk packets =>
      have hpk := hok pk (List.mem_cons_self ..)
      rw [wire, chunkLen_eq hpk.lt] at h
      exact absurd (ChunkedBody.front (isHex_hexText _) hpk.ne_nil (value_hexText _) h)
        (not_lineEnd_wire packets)
  · rintro rfl
    exact ⟨[], .last⟩

/-- **What is written is a body in the chunked coding, with these packets, only if there are
none.** -/
theorem chunked_body_iff (hok : ∀ pk ∈ packets, pk.Postable)
    (hposts : PostsChunks header packets es)
    (hrun : run step (start headerSent) es = some t) :
    ChunkedBody (packets.map Packet.data) t.body ↔ packets = [] := by
  rw [body_eq hposts hrun]
  constructor
  · exact fun h => (chunkedBody_wire_iff hok).1 ⟨_, h⟩
  · rintro rfl
    exact .last

/-- `hello`, with the completion of every write. -/
def helloPosts : List PostEvent :=
  [.postChunkHeader (ascii "header"), .writeComplete, .postChunk ⟨5, ascii "hello"⟩,
    .writeComplete, .writeComplete, .postEofChunk, .writeComplete]

theorem hello_postable : Packet.Postable ⟨5, ascii "hello"⟩ :=
  ⟨by decide +kernel, by decide +kernel⟩

theorem chunked_body_run : ∃ t, run step (start false) helloPosts = some t ∧
    t.body = ascii "5\r\nhello0\r\n\r\n" ∧ t.writing = false := by
  refine ⟨{
    poster := { header := ascii "5\r\n", outPakcet := ⟨5, ascii "hello"⟩, headerSent := true }
    handed := [ascii "header", ascii "5\r\n", ascii "hello", ascii "0\r\n\r\n"] }, ?_, ?_, rfl⟩
  · decide +kernel
  · decide +kernel

theorem chunked_body_hello : ∃ t, run step (start false) helloPosts = some t ∧
    t.body = ascii "5\r\nhello0\r\n\r\n" ∧ ¬ ChunkedBody [ascii "hello"] t.body := by
  obtain ⟨t, hrun, hbody, -⟩ := chunked_body_run
  have hok : ∀ pk ∈ [(⟨5, ascii "hello"⟩ : Packet)], pk.Postable := by
    simpa using hello_postable
  have hposts : PostsChunks (ascii "header") [⟨5, ascii "hello"⟩] helloPosts := by decide +kernel
  have hiff := chunked_body_iff hok hposts hrun
  exact ⟨t, hrun, hbody, fun h => (by simpa using hiff.1 h)⟩

theorem chunked_body_unframed : ¬ ∀ (headerSent : Bool) (header : Bytes) (packets : List Packet)
    (es : List PostEvent) (t : Posting), (∀ pk ∈ packets, pk.Postable) →
    PostsChunks header packets es → run step (start headerSent) es = some t →
    ChunkedBody (packets.map Packet.data) t.body := by
  intro h
  obtain ⟨t, hrun, -⟩ := chunked_body_run
  have hposts : PostsChunks (ascii "header") [⟨5, ascii "hello"⟩] helloPosts := by decide +kernel
  have hbody := h false _ _ _ t (by simpa using hello_postable) hposts hrun
  rw [body_eq hposts hrun] at hbody
  have hnil := (chunkedBody_wire_iff (by simpa using hello_postable)).1 ⟨_, hbody⟩
  cases hnil

end Posting

end HttpNest
