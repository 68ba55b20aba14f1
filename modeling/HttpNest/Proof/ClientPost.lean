import HttpNest.Proof.ChunkWriter
import HttpNest.Proof.HeaderBlock
import HttpNest.Proof.StreamBody
import HttpNest.Spec.HttpClient

/-!
# What `HttpClient::Post` sends

The request that `CreateTcpClient` makes of a URL has three headers and none that says how
long its body is, so for every URL the server's parser reads the packet in
`kExpectStreamBody` (`ClientRequest.streamHead`). The header block is as long as the URL makes
it, whatever the order of its parts (`ClientRequest.length_makeHeaders`); `OnConnection` and
two `WriteComplete`s hand over the block and the packet (`hands_iff`).

So the bytes are one complete request for packets of one size only (`post_arrives_iff`).
-/

namespace HttpNest

open ListSearch HttpParser HttpUtils Assignments

/-- An `http` URL: the scheme, and a non-empty rest of printable characters. -/
structure HttpUrl (url : Bytes) : Prop where
  scheme : (url.take 7).map toLower = ascii "http://"
  rest : url.drop 7 ≠ []
  printable : ∀ c ∈ url.drop 7, 33 ≤ c ∧ c ≤ 126

/-! ## The client's request -/

/-- The headers of every request of the client. -/
def clientHeaders (host : Bytes) : StringMap :=
  (((∅ : StringMap).insert (ascii "user-agent") (ascii "curl/7.61.1")).insert (ascii "accept")
    (ascii "*/*")).insert (ascii "host") host

theorem entries_clientHeaders (host : Bytes) : (clientHeaders host).entries =
    [⟨ascii "host", host⟩, ⟨ascii "accept", ascii "*/*"⟩,
      ⟨ascii "user-agent", ascii "curl/7.61.1"⟩] := rfl

/-- A request that `Post` writes, in some order of iteration. -/
structure ClientRequest (host : Bytes) (r : HttpRequest) : Prop where
  isRequest : r.isRequest = true
  method : r.method = .kPost
  version : r.version = .kUnknown
  headers : r.headers.entries.Perm (clientHeaders host).entries
  host_cr : 13 ∉ host

theorem ClientRequest.reordered {host : Bytes} {r r' : HttpRequest} (h : ClientRequest host r)
    (hr : HttpRequest.Reordered r r') : ClientRequest host r' := by
  obtain ⟨hmethod, -, hversion, hreq⟩ := hr.start
  exact ⟨hreq.trans h.isRequest, hmethod.trans h.method, hversion.trans h.version,
    hr.headers.trans h.headers, h.host_cr⟩

/-- **Every URL makes such a request**, with its authority as the host. -/
theorem createTcpClient_post {url : Bytes} (h : HttpUrl url) :
    ∃ r host, HttpClient.createTcpClient true url = some r ∧ r.headers = clientHeaders host ∧
      ClientRequest host r := by
  have hlen : 7 < url.length := by
    have hpos := List.length_pos_iff.2 h.rest
    rw [List.length_drop] at hpos
    omega
  have hcr : 13 ∉ url.drop 7 := by
    intro hm
    exact absurd (h.printable 13 hm).1 (by decide)
  have hhost : (ascii "Host").map toLower = ascii "host" := by decide +kernel
  have hua : (ascii "User-Agent").map toLower = ascii "user-agent" := by decide +kernel
  have haccept : (ascii "Accept").map toLower = ascii "accept" := by decide +kernel
  -- the host ends at the first `/`, and the path at the first `?` behind it
  rw [HttpClient.createTcpClient, HttpClient.parseUrl, if_pos hlen]
  simp only [HttpRequest.addHeader, hhost, hua, haccept, if_true]
  cases find [47] (url.drop 7) with
  | none => exact ⟨_, url.drop 7, rfl, rfl, rfl, rfl, rfl, .rfl, hcr⟩
  | some pos =>
    have hcr' : 13 ∉ (url.drop 7).take pos := fun hm => hcr (List.mem_of_mem_take hm)
    simp only
    cases find [63] ((url.drop 7).drop pos) with
    | none => exact ⟨_, (url.drop 7).take pos, rfl, rfl, rfl, rfl, rfl, .rfl, hcr'⟩
    | some pos1 =>
      simp only
      generalize hr : HttpRequest.setPath _ _ = r
      -- the query sets parameters and nothing else
      obtain ⟨m, hm⟩ := setQuery_eq r (((url.drop 7).drop pos).drop (pos1 + 1))
      rw [hm]
      subst hr
      exact ⟨_, (url.drop 7).take pos, rfl, rfl, rfl, rfl, rfl, .rfl, hcr'⟩

namespace ClientRequest

variable {host : Bytes} {r r' : HttpRequest}

theorem mem_headers (h : ClientRequest host r) {e : (_ : Bytes) × Bytes}
    (he : e ∈ r.headers.entries) : e = ⟨ascii "host", host⟩ ∨ e = ⟨ascii "accept", ascii "*/*"⟩ ∨
      e = ⟨ascii "user-agent", ascii "curl/7.61.1"⟩ := by
  have hmem := h.headers.subset he
  simpa [entries_clientHeaders] using hmem

/-- None of the names breaks its line, has a colon, or says how the body ends. -/
theorem header_name (h : ClientRequest host r) {e : (_ : Bytes) × Bytes}
    (he : e ∈ r.headers.entries) : 13 ∉ e.1 ∧ 58 ∉ e.1 ∧
      e.1.map toLower ≠ (ascii "content-length").map toLower ∧
      e.1.map toLower ≠ (ascii "transfer-encoding").map toLower := by
  have hall : ∀ k ∈ [ascii "host", ascii "accept", ascii "user-agent"], 13 ∉ k ∧ 58 ∉ k ∧
      k.map toLower ≠ (ascii "content-length").map toLower ∧
      k.map toLower ≠ (ascii "transfer-encoding").map toLower := by decide +kernel
  apply hall
  rcases h.mem_headers he with rfl | rfl | rfl <;> simp

theorem unbroken (h : ClientRequest host r) : r.Unbroken := by
  intro e he
  refine ⟨(h.header_name he).1, ?_⟩
  rcases h.mem_headers he with rfl | rfl | rfl
  · exact h.host_cr
  · show 13 ∉ ascii "*/*"
    decide +kernel
  · show 13 ∉ ascii "curl/7.61.1"
    decide +kernel

/-- **The body of a posted request has no end**: neither length nor chunks are announced. -/
theorem framing_parsed (h : ClientRequest host r) : r.parsed.framing = .stream := by
  have hcolon : ∀ e ∈ r.headers.entries, 58 ∉ e.1 := fun e he => (h.header_name he).2.1
  have hlength : r.parsed.getHeader (ascii "content-length") = [] :=
    HttpRequest.getHeader_parsed hcolon fun e he => (h.header_name he).2.2.1
  have hchunked : r.parsed.getHeader (ascii "transfer-encoding") = [] :=
    HttpRequest.getHeader_parsed hcolon fun e he => (h.header_name he).2.2.2
  have hmethod : r.parsed.method = .kPost := by
    have hpost : parseMethod (HttpRequest.methodWord .kPost) = .kPost := by decide +kernel
    rw [HttpRequest.parsed, (HttpRequest.SameStart.foldl_addField _ _).method,
      HttpRequest.reread, startRequest_method, h.method, hpost]
  have hreq : r.parsed.isRequest = true := by
    rw [HttpRequest.parsed, isRequest_foldl_addField, HttpRequest.reread,
      (startRequest_fresh _ _ _ _).2]
  have hne : ([] : Bytes) ≠ ascii "chunked" := by decide +kernel
  -- of the methods only those without a body end without it
  rw [HttpRequest.framing, hlength, hchunked, hmethod, hreq]
  simp [hne]

/-- The header block of a posted request. -/
def streamHead (h : ClientRequest host r) : StreamHead where
  block := r.block
  request := r.parsed
  terminator := h.unbroken.find_terminator
  blockRequest_eq := h.unbroken.blockRequest_eq
  framing_eq := h.framing_parsed

theorem bytes_streamHead (h : ClientRequest host r) : h.streamHead.bytes = r.makeHeaders :=
  (HttpRequest.makeHeaders_eq_block h.isRequest).symm

end ClientRequest

/-! ## The length of the block -/

/-- The bytes of a parameter in the target, with the character before it. -/
theorem length_urlEncode_parameters {es : List ((_ : Bytes) × Bytes)} (h : es ≠ []) :
    (urlEncode (63 :: [38].intercalate (es.map fun e => e.1 ++ 61 :: e.2))).length =
      (es.map fun e => (urlEncode e.1).length + (urlEncode e.2).length + 2).sum := by
  have hpiece : ∀ e : (_ : Bytes) × Bytes, (urlEncode (e.1 ++ 61 :: e.2)).length =
      (urlEncode e.1).length + (urlEncode e.2).length + 1 := by
    intro e
    rw [urlEncode_append, urlEncode_cons_of_keeps keeps_equals, List.length_append,
      List.length_cons]
    omega
  induction es with
  | nil => exact absurd rfl h
  | cons e es ih =>
    cases es with
    | nil =>
      rw [List.map_cons, List.map_nil, List.intercalate_singleton,
        urlEncode_cons_of_keeps keeps_question, List.length_cons, hpiece]
      simp
    | cons e' es =>
      have hrest := ih (List.cons_ne_nil _ _)
      rw [urlEncode_cons_of_keeps keeps_question, List.length_cons] at hrest
      rw [List.map_cons, List.map_cons, List.intercalate_cons_cons,
        urlEncode_cons_of_keeps keeps_question, List.length_cons, List.append_assoc,
        List.singleton_append, urlEncode_append, urlEncode_cons_of_keeps keeps_ampersand,
        List.length_append, List.length_cons, hpiece, List.map_cons, List.sum_cons, ← hrest,
        List.map_cons]
      omega

/-- Every order of the parameters makes a target of the same length. -/
theorem length_target_reordered {r r' : HttpRequest} (h : HttpRequest.Reordered r r') :
    (urlEncode r'.target).length = (urlEncode r.target).length := by
  -- a sum over the parameters, in whatever order
  have hlength : ∀ r : HttpRequest, (urlEncode r.target).length =
      (urlEncode (if r.path = [] then ascii "/" else r.path)).length +
        (r.parameters.entries.map fun e =>
          (urlEncode e.1).length + (urlEncode e.2).length + 2).sum := by
    intro r
    rw [HttpRequest.target, urlEncode_append, List.length_append]
    by_cases hnil : r.parameters.entries = []
    · rw [if_pos hnil, hnil]
      rfl
    · rw [if_neg hnil, HttpRequest.parameterText, length_urlEncode_parameters hnil]
  rw [hlength, hlength, h.start.2.1, (h.parameters.map _).sum_eq]

/-- **The length of the header block**: the target, the host, and what is the same for all. -/
theorem ClientRequest.length_makeHeaders {host : Bytes} {r : HttpRequest}
    (h : ClientRequest host r) :
    r.makeHeaders.length = (urlEncode r.target).length + host.length + 65 := by
  have hstart : r.startLine.length = (urlEncode r.target).length + 15 := by
    have hmethod : (HttpRequest.methodWord .kPost).length = 4 := by decide +kernel
    have hversion : (HttpRequest.versionWord .kUnknown).length = 8 := by decide +kernel
    rw [HttpRequest.startLine, h.method, h.version]
    simp only [List.length_append, List.length_cons, List.length_nil, hmethod, hversion]
    omega
  have hheaders : (r.headers.entries.flatMap fun e => e.1 ++ ascii ": " ++ e.2 ++ CRLF).length =
      host.length + 46 := by
    -- the headers may be iterated in another order than they were set in
    have hsum := (h.headers.map fun e => (e.1 ++ ascii ": " ++ e.2 ++ CRLF).length).sum_eq
    have hconst : (ascii ": ").length = 2 ∧ (ascii "host").length = 4 ∧
        (ascii "accept").length = 6 ∧ (ascii "*/*").length = 3 ∧
        (ascii "user-agent").length = 10 ∧ (ascii "curl/7.61.1").length = 11 ∧
        CRLF.length = 2 := by decide +kernel
    obtain ⟨h1, h2, h3, h4, h5, h6, h7⟩ := hconst
    rw [List.length_flatMap, hsum, entries_clientHeaders]
    simp only [List.map_cons, List.map_nil, List.sum_cons, List.sum_nil, List.length_append,
      h1, h2, h3, h4, h5, h6, h7]
    omega
  have hcrlf : CRLF.length = 2 := rfl
  rw [HttpRequest.makeHeaders_eq h.isRequest, HttpRequest.headerLines]
  simp only [List.length_append, hheaders, hstart, hcrlf]
  omega

/-! ## The two writes -/

namespace Posting

variable {s t : Posting} {header : Bytes} {packet : Packet} {es : List PostEvent}

/-- How far a posted request has been written. -/
inductive Requesting (header : Bytes) (packet : Packet) : Posting → Prop
  | header {s : Posting} : s.poster.postState = .kHttpContextPostHttpHeader →
    s.poster.outPakcet = packet → s.handed = [header] → Requesting header packet s
  | body {s : Posting} : s.poster.postState = .kHttpContextPostHttpBody →
    s.handed = [header, packet.data] → Requesting header packet s
  | sent {s : Posting} : s.poster.postState = .kHttpContextPostInit →
    s.handed = [header, packet.data] → Requesting header packet s

/-- **A `WriteComplete` sends the packet, or nothing.** -/
theorem Requesting.complete (h : Requesting header packet s)
    (ht : s.step .writeComplete = some t) : Requesting header packet t := by
  cases h with
  | header hs hp hh =>
    simp only [step, HttpPoster.writeComplete, hs] at ht
    cases ht
    refine .body rfl ?_
    rw [send, hh, hp]
    rfl
  | body hs hh =>
    simp only [step, HttpPoster.writeComplete, hs] at ht
    cases ht
    exact .sent rfl hh
  | sent hs hh =>
    simp only [step, HttpPoster.writeComplete, hs] at ht
    cases ht
    exact .sent hs hh

theorem Requesting.run (h : Requesting header packet s) (hposts : posts es = [])
    (ht : EventRun.run step s es = some t) : Requesting header packet t := by
  induction es generalizing s with
  | nil =>
    cases ht
    exact h
  | cons e es ih =>
    obtain ⟨u, hu, hrest⟩ := EventRun.run_cons_eq_some.1 ht
    by_cases he : e = .writeComplete
    · subst he
      exact ih (h.complete hu) hposts hrest
    · rw [posts_cons he] at hposts
      cases hposts

/-- A context that has been given nothing else. -/
theorem requesting_of_run (hs : s.poster.postState = .kHttpContextPostInit) (hh : s.handed = [])
    (hposts : posts es = [.postRequest header packet])
    (ht : EventRun.run step s es = some t) : Requesting header packet t := by
  induction es generalizing s with
  | nil => cases hposts
  | cons e es ih =>
    obtain ⟨u, hu, hrest⟩ := EventRun.run_cons_eq_some.1 ht
    by_cases he : e = .writeComplete
    · -- a completion before the post
      subst he
      simp only [step, HttpPoster.writeComplete, hs] at hu
      cases hu
      refine ih ?_ ?_ hposts hrest
      · exact hs
      · exact hh
    · rw [posts_cons he] at hposts
      obtain ⟨rfl, hnil⟩ := List.cons.inj hposts
      have hpost : s.poster.postRequest header packet = some ({ s.poster with
          header := header, outPakcet := packet, postState := .kHttpContextPostHttpHeader },
            header) := if_neg (by rw [hs]; exact fun hne => hne rfl)
      simp only [step, hpost] at hu
      obtain ⟨-, rfl⟩ := post_eq_some hu
      refine Requesting.run (.header rfl rfl ?_) hnil hrest
      rw [send, hh]
      rfl

end Posting

/-- **The block and the packet are handed over**, one after the other. -/
theorem hands_iff {r : HttpRequest} {packet : Packet} {bytes : Bytes} :
    HttpClient.Hands r packet bytes ↔
      ∃ r', HttpRequest.Reordered r r' ∧ bytes = r'.makeHeaders ++ packet.data := by
  constructor
  · rintro ⟨r', hr', headerSent, es, s, hrun, hposts, hsent, rfl⟩
    refine ⟨r', hr', ?_⟩
    cases Posting.requesting_of_run (s := .start headerSent) rfl rfl hposts hrun with
    | header hs _ _ => rw [hs] at hsent; cases hsent
    | body hs _ => rw [hs] at hsent; cases hsent
    | sent _ hh => rw [hh]; simp
  · rintro ⟨r', hr', rfl⟩
    refine ⟨r', hr', false, [.postRequest r'.makeHeaders packet, .writeComplete, .writeComplete],
      _, rfl, rfl, rfl, ?_⟩
    simp [Posting.send, Posting.start, HttpPoster.postRequest]

/-! ## One complete request -/

/-- The bytes that the client hands over for `packet` are a complete request with the packet as
its body: a fresh parser fed with them, in any pieces, is complete and waits for nothing. -/
def PostArrives (r : HttpRequest) (packet : Packet) : Prop :=
  ∀ bytes, HttpClient.Hands r packet bytes → ∀ pieces : List Bytes, pieces.flatten = bytes →
    ∀ b : WfBuffer, b.bytes = [] → ∃ t,
      messageReader.Completes { parser := {}, buf := b } pieces t ∧
      (t.parser.state = .kExpectHttpComplete ∨ t.parser.state = .kExpectChunkComplete) ∧
      ∃ pk, t.parser.chunk = some pk ∧ pk.data = packet.data

variable {host : Bytes} {r : HttpRequest} {packet : Packet}

/-- Only a packet that fills the parser's arrives. -/
theorem PostArrives.length_eq (hr : ClientRequest host r) (h : PostArrives r packet) :
    packet.data.length = kHttpMaxBodySize := by
  have hhands : HttpClient.Hands r packet (r.makeHeaders ++ packet.data) :=
    hands_iff.2 ⟨r, .refl r, rfl⟩
  obtain ⟨t, ht, hdone, pk, hpk, hdata⟩ := h _ hhands [r.makeHeaders ++ packet.data] (by simp)
    (.new 1024 (by decide)) (WfBuffer.bytes_new 1024 (by decide))
  have hbytes : [r.makeHeaders ++ packet.data].flatten = hr.streamHead.bytes ++ packet.data := by
    rw [hr.bytes_streamHead]
    simp
  obtain ⟨data, hdata', hlen⟩ :=
    chunk_of_completes (WfBuffer.bytes_new 1024 (by decide)) hbytes ht hdone
  rw [hpk] at hdata'
  cases hdata'
  rw [← hdata, hlen]

/-- And only a header block that is not over the limit. -/
theorem PostArrives.head_le (hr : ClientRequest host r) (h : PostArrives r packet) :
    r.makeHeaders.length ≤ kHttpMaxBodySize + 1 := by
  by_contra hlong
  rw [not_le] at hlong
  -- the cut right behind the limit
  set bytes := r.makeHeaders ++ packet.data with hbytes
  have hhands : HttpClient.Hands r packet bytes := hands_iff.2 ⟨r, .refl r, rfl⟩
  have hcut : bytes.take (kHttpMaxBodySize + 1) ++ bytes.drop (kHttpMaxBodySize + 1) =
      hr.streamHead.bytes ++ packet.data := by
    rw [List.take_append_drop, hr.bytes_streamHead]
  obtain ⟨t, ht, hdone, -⟩ := h _ hhands
    [bytes.take (kHttpMaxBodySize + 1), bytes.drop (kHttpMaxBodySize + 1)] (by simp)
    (.new 1024 (by decide)) (WfBuffer.bytes_new 1024 (by decide))
  have hfirst : (bytes.take (kHttpMaxBodySize + 1)).length = kHttpMaxBodySize + 1 := by
    rw [List.length_take, hbytes, List.length_append]
    omega
  have herror := rejected_of_long (WfBuffer.bytes_new 1024 (by decide)) hcut hfirst
    (by rw [hr.bytes_streamHead]; exact hlong) ht
  rcases hdone with hd | hd <;> rw [herror] at hd <;> cases hd

/-- **What `Post` hands over is a complete request exactly if the packet has
`kHttpMaxBodySize` bytes** and the URL is not too long: host and coded target together have
65472 bytes at most. -/
theorem post_arrives_iff {url : Bytes} (hurl : HttpUrl url) (packet : Packet) :
    ∃ r, HttpClient.createTcpClient true url = some r ∧
      (PostArrives r packet ↔ packet.data.length = kHttpMaxBodySize ∧
        (urlEncode r.target).length + (r.getHeader (ascii "host")).length ≤ 65472) := by
  obtain ⟨r, host, hcreate, hheaders, hr⟩ := createTcpClient_post hurl
  have hk : kHttpMaxBodySize = 65536 := rfl
  have hhost : r.getHeader (ascii "host") = host := by
    have hlower : (ascii "host").map toLower = ascii "host" := by decide +kernel
    rw [HttpRequest.getHeader, hlower, hheaders, clientHeaders, AList.lookup_insert]
    rfl
  refine ⟨r, hcreate, ?_⟩
  rw [hhost]
  constructor
  · intro h
    have hlen := h.head_le hr
    rw [hr.length_makeHeaders] at hlen
    exact ⟨h.length_eq hr, by omega⟩
  · rintro ⟨hsize, hurl'⟩ bytes hhands pieces hpieces b hb
    obtain ⟨r', hr', rfl⟩ := hands_iff.1 hhands
    have hclient := hr.reordered hr'
    have hhead : hclient.streamHead.bytes.length ≤ kHttpMaxBodySize + 1 := by
      rw [hclient.bytes_streamHead, hclient.length_makeHeaders, length_target_reordered hr']
      omega
    obtain ⟨t, ht, hstate, hchunk⟩ := stream_completes (h := hclient.streamHead) hb
      (by rw [hclient.bytes_streamHead]; exact hpieces) hsize hhead
    exact ⟨t, ht, .inr hstate, _, hchunk, rfl⟩

theorem httpUrl_root : HttpUrl (ascii "http://a/") :=
  ⟨by decide +kernel, by decide +kernel, by decide +kernel⟩

/-- A packet of the one size. -/
theorem post_arrives_full : ∃ r, HttpClient.createTcpClient true (ascii "http://a/") = some r ∧
    PostArrives r ⟨kHttpMaxBodySize, List.replicate kHttpMaxBodySize 120⟩ := by
  obtain ⟨r, hr, hiff⟩ := post_arrives_iff httpUrl_root
    ⟨kHttpMaxBodySize, List.replicate kHttpMaxBodySize 120⟩
  have hlength : (HttpClient.createTcpClient true (ascii "http://a/")).map (fun r =>
      (urlEncode r.target).length + (r.getHeader (ascii "host")).length) = some 2 := by
    decide +kernel
  rw [hr, Option.map_some, Option.some.injEq] at hlength
  exact ⟨r, hr, hiff.2 ⟨List.length_replicate, by omega⟩⟩

/-- Three bytes never arrive: the server waits for a full packet. -/
theorem post_waits : HttpUrl (ascii "http://a/") ∧
    ∃ r, HttpClient.createTcpClient true (ascii "http://a/") = some r ∧
      ¬ PostArrives r ⟨3, ascii "abc"⟩ := by
  refine ⟨httpUrl_root, ?_⟩
  obtain ⟨r, host, hcreate, -, hr⟩ := createTcpClient_post httpUrl_root
  refine ⟨r, hcreate, fun h => ?_⟩
  have hsize := h.length_eq hr
  revert hsize
  decide +kernel

end HttpNest
