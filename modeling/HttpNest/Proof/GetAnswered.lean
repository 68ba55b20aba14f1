import HttpNest.Proof.ClientTarget
import HttpNest.Proof.ClientUrl
import HttpNest.Proof.Exchange
import HttpNest.Proof.StatusLine

/-!
# `HttpClient::Get` and `HttpService`

The request of `Get` is the one of `Post` with another method (`createTcpClient_get`), so it
announces no body either, and with this method there is none (`exists_getMessage`). The response
of `HttpService` has two headers, and in both orders of iteration a block of length zero
(`exists_responseMessage`). `ReadBack` and `TargetBack` are what a reader makes of a message: it
leaves the blank behind the colon in a header, and the codes in a path and its parameters.
-/

namespace HttpNest

open Assignments ListSearch HttpParser HttpUtils EventRun

namespace HttpClient

theorem setQuery_method (r : HttpRequest) (method : HttpMethod) (query : Bytes) :
    { r with method := method }.setQuery query = { r.setQuery query with method := method } := by
  obtain ⟨m, hm⟩ := setQuery_eq { r with method := method } query
  obtain ⟨m', hm'⟩ := setQuery_eq r query
  have hp := parameters_setQuery { r with method := method } query
  have hp' := parameters_setQuery r query
  rw [hm] at hp
  rw [hm'] at hp'
  have hsame : m = m' := hp.trans hp'.symm
  rw [hm, hm', hsame]

theorem parseUrl_method (request : HttpRequest) (method : HttpMethod) (url : Bytes) :
    parseUrl { request with method := method } url =
      (parseUrl request url).map fun r => { r with method := method } := by
  unfold parseUrl
  split_ifs with hlen
  · cases find [47] (url.drop 7) with
    | none => rfl
    | some pos =>
      cases hquery : find [63] ((url.drop 7).drop pos) with
      | none =>
        simp only [hquery]
        rfl
      | some pos1 =>
        have hset := setQuery_method (request.setPath (((url.drop 7).drop pos).take pos1)) method
          (((url.drop 7).drop pos).drop (pos1 + 1))
        simp only [hquery]
        exact congrArg (fun r => some (HttpRequest.addHeader r (ascii "Host") _)) hset
  · rfl

/-- The requests of `Get` and `Post` differ in their methods only. -/
theorem createTcpClient_get (url : Bytes) : createTcpClient false url =
    (createTcpClient true url).map fun r => { r with method := .kGet } :=
  parseUrl_method (clientRequest true) .kGet url

end HttpClient

/-! ## What is read of a message -/

/-- `q` is read from the text of `r`: a version that has not been set is written as 1.1, and the
values keep the blank in front of them. -/
structure ReadBack (r q : HttpRequest) : Prop where
  isRequest : q.isRequest = r.isRequest
  version : q.version = if r.version = .kHttp10 then .kHttp10 else .kHttp11
  header : ∀ field, q.headers.lookup field = (r.headers.lookup field).map (32 :: ·)

/-- The target of `r`, cut at its first `?`; names and values stay coded. -/
structure TargetBack (r q : HttpRequest) : Prop where
  path : q.path = (cutQuery r.target).1
  parameter : ∀ name, q.getParameter name = ((cutQuery r.target).2.bind fun s =>
    lastValue ((assignments 38 61 s).map (Prod.map urlEncode urlEncode)) name).getD []

/-- A call of `OnRequest` with the written `GET` request `r` for the URL's host. -/
def GetFor (url : Bytes) (r : HttpRequest) (call : Option HttpRequest × Option Packet) : Prop :=
  ∃ q, call = (some q, none) ∧ ReadBack r q ∧ TargetBack r q ∧ q.isRequest = true ∧
    q.method = .kGet ∧ q.getHeader (ascii "host") = 32 :: HttpClient.domain url

/-- A call of `OnRequest` with the written response `res`. -/
def IsOk (res : HttpRequest) (call : Option HttpRequest × Option Packet) : Prop :=
  ∃ q, call = (some q, none) ∧ ReadBack res q ∧ q.isRequest = false ∧ q.code = 200

variable {url : Bytes} {r r' res : HttpRequest}

theorem HttpRequest.reread_targetBack (r : HttpRequest) : TargetBack r r.reread := by
  by_cases hq : 63 ∈ r.target
  · obtain ⟨s, t, hst, hs⟩ := List.eq_append_cons_of_mem hq
    obtain ⟨hp, hl⟩ := startRequest_query (methodWord r.method) (versionWord r.version) hs t
    rw [← hst] at hp hl
    refine ⟨?_, fun name => ?_⟩
    · rw [hst, cutQuery_append hs]
      exact hp
    · rw [hst, cutQuery_append hs, getParameter, reread, hl]
      rfl
  · obtain ⟨hp, hl⟩ := startRequest_path (methodWord r.method) (versionWord r.version) hq
    refine ⟨?_, fun name => ?_⟩
    · rw [cutQuery_of_not_mem hq]
      exact hp
    · rw [cutQuery_of_not_mem hq, getParameter, reread, hl]
      rfl

theorem version_setVersion (q : HttpRequest) (v : Version) :
    (q.setVersion (HttpRequest.versionWord v)).version =
      if v = .kHttp10 then .kHttp10 else .kHttp11 := by
  cases v <;> rfl

theorem HttpRequest.targetBack_parsed (r : HttpRequest) : TargetBack r r.parsed := by
  have hstart := HttpRequest.SameStart.foldl_addField r.lines r.reread
  have hread := r.reread_targetBack
  exact ⟨hstart.path.trans hread.path, fun name => (hstart.parameter name).trans
    (hread.parameter name)⟩

/-- A request whose field names are in lower case, as `AddHeader` makes them. -/
theorem HttpRequest.readBack_parsed (hreq : r.isRequest = true)
    (hname : ∀ e ∈ r.headers.entries, 58 ∉ e.1 ∧ e.1.map toLower = e.1) : ReadBack r r.parsed := by
  have hstart := HttpRequest.SameStart.foldl_addField r.lines r.reread
  refine ⟨?_, ?_, fun field => ?_⟩
  · rw [hreq, HttpRequest.parsed, isRequest_foldl_addField, HttpRequest.reread,
      (startRequest_fresh _ _ _ _).2]
  · rw [HttpRequest.parsed, hstart.version, HttpRequest.reread, startRequest_version,
      version_setVersion]
  · exact HttpRequest.lookup_foldl_headerLine r.keyValue_startLine
      (startRequest_fresh _ _ _ _).1 hname field

/-! ## The request -/

/-- **The request of `Get` ends with its header block.** -/
theorem exists_getMessage (h : HttpUrl url) (hr : HttpClient.createTcpClient false url = some r)
    (hr' : HttpRequest.Reordered r r') :
    ∃ q : HeadOnly, r'.makeHeaders = q.bytes ∧ q.request.isRequest = true ∧
      GetFor url r' (some q.request, none) := by
  obtain ⟨r₀, host, hr₀, hheaders, hclient⟩ := createTcpClient_post h
  have hdomain : host = HttpClient.domain url := by
    have hhost := (HttpClient.parseUrl_host hr₀).2
    have hlower : (ascii "Host").map toLower = ascii "host" := by decide +kernel
    rw [HttpRequest.getHeader, hheaders, hlower, clientHeaders, AList.lookup_insert] at hhost
    exact hhost
  rw [HttpClient.createTcpClient_get, hr₀] at hr
  cases hr
  obtain ⟨hmethod, -, hversion, hreq⟩ := hr'.start
  -- what is known of a posted request does not depend on the method
  have hpost : ClientRequest host { r' with method := .kPost } :=
    ⟨hreq.trans hclient.isRequest, rfl, hversion.trans hclient.version,
      hr'.headers.trans hclient.headers, hclient.host_cr⟩
  have hunbroken : r'.Unbroken := hpost.unbroken
  have hcolon : ∀ e ∈ r'.headers.entries, 58 ∉ e.1 := fun e he => (hpost.header_name he).2.1
  have hlength : r'.parsed.getHeader (ascii "content-length") = [] :=
    HttpRequest.getHeader_parsed hcolon fun e he => (hpost.header_name he).2.2.1
  have hchunked : r'.parsed.getHeader (ascii "transfer-encoding") = [] :=
    HttpRequest.getHeader_parsed hcolon fun e he => (hpost.header_name he).2.2.2
  have hstart := HttpRequest.SameStart.foldl_addField r'.lines r'.reread
  have hget : r'.parsed.method = .kGet := by
    have hword : parseMethod (HttpRequest.methodWord .kGet) = .kGet := by decide +kernel
    rw [HttpRequest.parsed, hstart.method, HttpRequest.reread, startRequest_method, hmethod, hword]
  have hname : ∀ e ∈ r'.headers.entries, 58 ∉ e.1 ∧ e.1.map toLower = e.1 := by
    have hall : ∀ k ∈ [ascii "host", ascii "accept", ascii "user-agent"], k.map toLower = k := by
      decide +kernel
    refine fun e he => ⟨hcolon e he, hall e.1 ?_⟩
    rcases hpost.mem_headers he with rfl | rfl | rfl <;> simp
  have hasks' : r'.isRequest = true := hreq.trans hclient.isRequest
  have hback := HttpRequest.readBack_parsed hasks' hname
  have hasks : r'.parsed.isRequest = true := hback.isRequest.trans hasks'
  have hframing : r'.parsed.framing = .noBody := by
    have hne : ([] : Bytes) ≠ ascii "chunked" := by decide +kernel
    rw [HttpRequest.framing, hlength, hchunked, hget, hasks]
    simp [hne]
  have hhost : r'.parsed.getHeader (ascii "host") = 32 :: host := by
    have hlower : (ascii "host").map toLower = ascii "host" := by decide +kernel
    have hmem : (⟨ascii "host", host⟩ : (_ : Bytes) × Bytes) ∈ r'.headers.entries := by
      rw [hpost.headers.mem_iff, entries_clientHeaders]
      exact List.mem_cons_self ..
    have hl : r'.headers.lookup (ascii "host") = some host := AList.mem_lookup_iff.2 hmem
    rw [HttpRequest.getHeader, hlower, hback.header, hl]
    rfl
  rw [hdomain] at hhost
  exact ⟨⟨r'.block, r'.parsed, hunbroken.find_terminator, hunbroken.blockRequest_eq, .inl hframing⟩,
    HttpRequest.makeHeaders_eq_block hasks', hasks, r'.parsed, rfl, hback, r'.targetBack_parsed,
    hasks, hget, hhost⟩

/-! ## The response -/

/-- What stands in the two headers of the response. -/
theorem mem_responseHeaders (h : HttpRequest.Reordered HttpService.response res)
    {e : (_ : Bytes) × Bytes} (he : e ∈ res.headers.entries) :
    (58 ∉ e.1 ∧ e.1.map toLower = e.1) ∧ 13 ∉ e.1 ∧ 13 ∉ e.2 := by
  have hall : ∀ e ∈ HttpService.response.headers.entries,
      (58 ∉ e.1 ∧ e.1.map toLower = e.1) ∧ 13 ∉ e.1 ∧ 13 ∉ e.2 := by decide +kernel
  exact hall e (h.headers.subset he)

/-- **The response ends with its header block**, in either order. -/
theorem exists_responseMessage (h : HttpRequest.Reordered HttpService.response res) :
    ∃ a : HeadOnly, res.makeHeaders = a.bytes ∧ a.request.isRequest = false ∧
      res.isChunked = false ∧ res.isStream = false ∧ IsOk res (some a.request, none) := by
  have hcode : res.code = 200 := (congrArg HttpRequest.code h.fields :)
  have hreq : res.isRequest = false := (congrArg HttpRequest.isRequest h.fields :)
  have hchunked : res.isChunked = false := (congrArg HttpRequest.isChunked h.fields :)
  have hstream : res.isStream = false := (congrArg HttpRequest.isStream h.fields :)
  have hlines := HttpRequest.Unbroken.cons_lines
    (fun _ he => (mem_responseHeaders h he).2) res.statusLine_ne_nil res.cr_not_mem_statusLine
  have hblank : 32 ∉ parseStatusMessage res.code := by
    rw [hcode]
    decide +kernel
  have hblock := HttpRequest.blockRequest_statusLine (splitString_lines hlines) hblank
  set q := (res.statusLine :: res.headers.entries.map HttpRequest.headerLine).foldl addField
    res.rereadStatus with hq
  have hanswers : q.isRequest = false :=
    (isRequest_foldl_addField _ _).trans (startRequest_fresh _ _ _ _).2
  have hstatus : q.code = 200 := by
    rw [hq, code_foldl_addField, HttpRequest.code_rereadStatus (by omega), hcode]
  have hback : ReadBack res q := by
    refine ⟨hanswers.trans hreq.symm, ?_, fun field => ?_⟩
    · rw [hq, (HttpRequest.SameStart.foldl_addField _ _).version]
      exact version_setVersion (.new false) res.version
    · exact HttpRequest.lookup_foldl_headerLine res.keyValue_statusLine
        (startRequest_fresh _ _ _ _).1 (fun _ he => (mem_responseHeaders h he).1) field
  have hframing : q.framing = .length 0 := by
    have hlower : (ascii "content-length").map toLower = ascii "content-length" := by
      decide +kernel
    have hmem : (⟨ascii "content-length", ascii "0"⟩ : (_ : Bytes) × Bytes) ∈
        res.headers.entries := by
      rw [h.headers.mem_iff]
      decide +kernel
    have hl : res.headers.lookup (ascii "content-length") = some (ascii "0") :=
      AList.mem_lookup_iff.2 hmem
    have hlength : q.getHeader (ascii "content-length") = ascii " 0" := by
      rw [HttpRequest.getHeader, hlower, hback.header, hl]
      rfl
    have hread : CNumeral.stoull (ascii " 0") = some 0 := by decide +kernel
    rw [HttpRequest.framing, hlength, if_pos (by decide), hread]
    rfl
  have hbytes : res.makeHeaders =
      CRLF.intercalate (res.statusLine :: res.headers.entries.map HttpRequest.headerLine) ++
        CRLFCRLF := by
    rw [HttpRequest.makeHeaders_eq_statusLine hreq, HttpRequest.append_headerLines]
  exact ⟨⟨_, q, find_terminator_lines hlines (List.cons_ne_nil _ _), hblock, .inr hframing⟩,
    hbytes, hanswers, hchunked, hstream, q, rfl, hback, hanswers, hstatus⟩

/-! ## The exchange -/

namespace Exchange

variable {t : Exchange} {es : List ExchangeEvent}

/-- **In every run the server is asked once and the client is answered once at most**, by the
right messages, and no turn faults: whatever the pieces in which the bytes are read. -/
theorem answered_once (h : HttpUrl url) (hr : HttpClient.createTcpClient false url = some r)
    (hr' : HttpRequest.Reordered r r') (hres : HttpRequest.Reordered HttpService.response res)
    {clientSent serverSent : Bool}
    (hrun : run (step res) (start r' clientSent serverSent) es = some t) :
    t.answers.length ≤ t.asked.length ∧ t.asked.length ≤ 1 ∧
      (∀ call ∈ t.asked, GetFor url r' call) ∧ (∀ call ∈ t.answers, IsOk res call) ∧
      ∀ p, HttpContext.loop.guard (t.peer p).context = true → (step res t (.turn p)).isSome := by
  obtain ⟨q, hq, hasks, hget⟩ := exists_getMessage h hr hr'
  obtain ⟨a, ha, hanswers, hchunked, hstream, hok⟩ := exists_responseMessage hres
  have hans : Answers res q a := ⟨hasks, hanswers, ha, hchunked, hstream⟩
  have ht := going_of_run hans (.start q a hq clientSent serverSent) hrun
  rcases ht.calls with ⟨hasked, hnone⟩ | ⟨hasked, hnone | hone⟩
  · rw [hasked, hnone]
    exact ⟨le_rfl, by simp, by simp, by simp, fun p => ht.turn_isSome p⟩
  · rw [hasked, hnone]
    exact ⟨by simp, le_rfl, by simpa using hget, by simp, fun p => ht.turn_isSome p⟩
  · rw [hasked, hone]
    exact ⟨le_rfl, le_rfl, by simpa using hget, by simpa using hok, fun p => ht.turn_isSome p⟩

/-- `GET /b?x=1 HTTP/1.1` for the host `a`. -/
def getItem : HttpRequest :=
  (HttpClient.createTcpClient false (ascii "http://a/b?x=1")).getD (.new true)

theorem httpUrl_item : HttpUrl (ascii "http://a/b?x=1") where
  scheme := by decide +kernel
  rest := by decide +kernel
  printable := by decide +kernel

theorem createTcpClient_item :
    HttpClient.createTcpClient false (ascii "http://a/b?x=1") = some getItem := by
  obtain ⟨r, hr⟩ := Option.isSome_iff_exists.1
    (show (HttpClient.createTcpClient false (ascii "http://a/b?x=1")).isSome by decide +kernel)
  rw [getItem, hr, Option.getD_some]

/-- One byte of the request is read before the rest, and the response in one piece. -/
def itemRun : List ExchangeEvent :=
  [.read .server 1, .read .server 70, .turn .server, .read .client 52, .turn .client]

theorem exists_item_run : ∃ t, run (step HttpService.response) (start getItem false false) itemRun =
    some t ∧ t.asked.length = 1 ∧ t.answers.length = 1 := by
  have hends : (run (step HttpService.response) (start getItem false false) itemRun).any
      (fun t => t.asked.length = 1 && t.answers.length = 1) = true := by
    decide +kernel
  obtain ⟨t, ht, hcalls⟩ := (Option.any_eq_true ..).1 hends
  exact ⟨t, ht, by simpa using hcalls⟩

theorem answered_once_item : ∃ t,
    run (step HttpService.response) (start getItem false false) itemRun = some t ∧
      (t.asked.length = 1 ∧ ∀ call ∈ t.asked, GetFor (ascii "http://a/b?x=1") getItem call) ∧
      (t.answers.length = 1 ∧ ∀ call ∈ t.answers, IsOk HttpService.response call) := by
  obtain ⟨t, ht, hasked, hanswers⟩ := exists_item_run
  obtain ⟨-, -, hget, hok, -⟩ :=
    answered_once httpUrl_item createTcpClient_item (.refl _) (.refl _) ht
  exact ⟨t, ht, ⟨hasked, hget⟩, hanswers, hok⟩

/-- **The answer can still arrive exactly if every read has been whole**; else a loop is never
left. -/
theorem answerable_iff (h : HttpUrl url) (hr : HttpClient.createTcpClient false url = some r)
    (hr' : HttpRequest.Reordered r r') (hres : HttpRequest.Reordered HttpService.response res)
    {clientSent serverSent : Bool}
    (hrun : run (step res) (start r' clientSent serverSent) es = some t) :
    (Meets (step res) Whole (start r' clientSent serverSent) es ↔
      ∃ fs u, run (step res) t fs = some u ∧ u.answers ≠ []) ∧
    (Meets (step res) Whole (start r' clientSent serverSent) es → es.countP counted ≤ 6 ∧
      (t.answers = [] → ∃ ev, counted ev = true ∧ Whole t ev ∧ (step res t ev).isSome)) ∧
    (¬ Meets (step res) Whole (start r' clientSent serverSent) es → ∃ p, Endless res t p) := by
  obtain ⟨q, hq, hasks, -⟩ := exists_getMessage h hr hr'
  obtain ⟨a, ha, hanswers, hchunked, hstream, -⟩ := exists_responseMessage hres
  exact arrives_iff ⟨hasks, hanswers, ha, hchunked, hstream⟩ hq hrun

/-- Two bytes of the request have been read. -/
theorem exists_split_read : ∃ t, run (step HttpService.response) (start getItem false false)
    [.read .server 2, .turn .server] = some t :=
  Option.isSome_iff_exists.1 (by decide +kernel)

/-- A read of two bytes is the last one. -/
theorem answered_never : ∃ t, run (step HttpService.response) (start getItem false false)
    [.read .server 2, .turn .server] = some t ∧
      (¬ ∃ fs u, run (step HttpService.response) t fs = some u ∧ u.answers ≠ []) ∧
      ∃ p, Endless HttpService.response t p := by
  obtain ⟨t, ht⟩ := exists_split_read
  have hread : ¬ Whole (start getItem false false) (.read .server 2) := by
    rw [Whole]
    decide +kernel
  obtain ⟨harrives, -, hendless⟩ :=
    answerable_iff httpUrl_item createTcpClient_item (.refl _) (.refl _) ht
  refine ⟨t, ht, fun hreach => hread (harrives.2 hreach).1, hendless fun hm => hread hm.1⟩

end Exchange

end HttpNest
