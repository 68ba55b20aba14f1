import HttpNest.Proof.DnsRounds
import HttpNest.Spec.SocketAddress

/-!
# Addresses on their way through texts

* `sent_as_text_iff`: `GetSockAddr` gives back what `Accept` has printed. Behind `ToIpPort` and
  `InetAddress(host)` this holds exactly for IPv4, and for the one IPv6 address that is left when
  nothing can be read.
* `one_class_iff`: an address is of exactly one of the three classes, if its text does not go on
  behind a loopback address and a zero.
* `connects_to`: whatever the rounds of `DnsService` have been, as long as no unassigned `res` has
  been read, `HttpClient` connects to the first IPv4 address of the last answer for the host, and
  without one to what its name can be read as.
-/

namespace HttpNest

open Assignments CNumeral EventRun InetText ListSearch

variable {inet6 : Inet6} {a addr : InetAddress} {ip host : Bytes}

theorem cStr_of_not_mem (h : 0 ∉ ip) : cStr ip = ip := by
  refine List.takeWhile_eq_self_iff.2 fun c hc => ?_
  rw [decide_eq_true_iff]
  rintro rfl
  exact h hc

theorem mem_of_mem_cStr {c : UInt8} (h : c ∈ cStr ip) : c ∈ ip :=
  (List.takeWhile_sublist _).mem h

theorem cStr_inetNtop (v : BitVec 32) : cStr (inetNtop v) = inetNtop v := by
  refine cStr_of_not_mem fun h => ?_
  rcases of_mem_inetNtop h with h | h <;> revert h <;> decide

theorem colon_not_mem_inetNtop (v : BitVec 32) : 58 ∉ inetNtop v := by
  intro h
  rcases of_mem_inetNtop h with h | h <;> revert h <;> decide

namespace InetAddress

/-! ## Reading -/

theorem getSockAddr_of_inet (h : a.isIpv6 = false) :
    a.getSockAddr inet6 = .inet a.iPv4 a.port := by
  rw [getSockAddr, h]
  rfl

theorem getSockAddr_setAddr (h : a.isIpv6 = false) (ip : Bytes) :
    (a.setAddr ip).getSockAddr inet6 = .inet (iPv4Of ip) a.port :=
  getSockAddr_of_inet h

theorem getSockAddr_of_inet6 (h : a.isIpv6 = true) :
    a.getSockAddr inet6 = .inet6 ((inet6.pton (cStr a.addr)).getD 0) a.port := by
  rw [getSockAddr, if_pos h]

@[simp] theorem iPv4Of_inetNtop (v : BitVec 32) : iPv4Of (inetNtop v) = v := by
  rw [iPv4Of, cStr_inetNtop, inetPton_inetNtop]
  rfl

/-- **What is printed for an address is read as this address.** -/
theorem getSockAddr_accept (x : AddrInfo) (hx : x ≠ .other) :
    (Socket.accept (ntopOf inet6) {} x).getSockAddr inet6 = x := by
  cases x with
  | inet v p =>
    rw [getSockAddr_of_inet rfl, Socket.accept, port_setPort]
    exact congrArg (AddrInfo.inet · p) (iPv4Of_inetNtop v)
  | inet6 v p =>
    rw [getSockAddr_of_inet6 rfl]
    show AddrInfo.inet6 ((inet6.pton (cStr (inet6.ntop v))).getD 0)
      (setPort (setAddr {} (inet6.ntop v)) p).port = _
    rw [port_setPort, cStr_of_not_mem (inet6.zero_not_mem v), inet6.pton_ntop]
    rfl
  | other => exact absurd rfl hx

/-! ## One text for the address and the port -/

/-- The first colon of the text is the end of the address. -/
theorem ofHost_append_cons (h : 58 ∉ ip) (port : Bytes) (isIpv6 : Bool) :
    ofHost (ip ++ 58 :: port) isIpv6 = ⟨ip, port, isIpv6⟩ := by
  simp [ofHost, getIpAndPort, find_singleton_append h]

/-- A text that is cut in front of its first colon is no IPv6 address. -/
theorem pton_of_not_mem (h : 58 ∉ ip) : inet6.pton (cStr ip) = none := by
  rw [Option.eq_none_iff_forall_ne_some]
  intro v hv
  exact h (mem_of_mem_cStr (inet6.colon_mem hv))

theorem atoi_colon (s : Bytes) : atoi (58 :: s) = 0 := by
  have hsubject : subject 10 (58 :: s) = (false, []) := rfl
  rw [atoi, strtol, hsubject]
  rfl

/-- **An address that is sent as one text**, what `ToIpPort` shows, is read again exactly if it is
one of IPv4, or `::` with the port 0. -/
theorem sent_as_text_iff (inet6 : Inet6) (x : AddrInfo) :
    (ofHost (Socket.accept (ntopOf inet6) {} x).toIpPort
      (Socket.accept (ntopOf inet6) {} x).isIpv6).getSockAddr inet6 = x ↔
        (∃ v p, x = .inet v p) ∨ x = .inet6 0 0 := by
  cases x with
  | inet v p =>
    have hsame : ofHost (Socket.accept (ntopOf inet6) {} (.inet v p)).toIpPort false =
        Socket.accept (ntopOf inet6) {} (.inet v p) :=
      ofHost_append_cons (colon_not_mem_inetNtop v) _ _
    refine iff_of_true ?_ (.inl ⟨v, p, rfl⟩)
    rw [show (Socket.accept (ntopOf inet6) {} (.inet v p)).isIpv6 = false from rfl, hsame]
    exact getSockAddr_accept _ (by simp)
  | inet6 v p =>
    -- the address ends at the first of its own colons
    obtain ⟨front, rest, htext, hfront⟩ :=
      List.eq_append_cons_of_mem (inet6.colon_mem (inet6.pton_ntop v))
    have hhost : ofHost (Socket.accept (ntopOf inet6) {} (.inet6 v p)).toIpPort true =
        ⟨front, rest ++ 58 :: decText p.toNat, true⟩ := by
      rw [← ofHost_append_cons hfront]
      show ofHost (inet6.ntop v ++ 58 :: decText p.toNat) true = _
      rw [htext, List.append_assoc]
      rfl
    -- the port of `::` is read behind this colon, at the second one
    have hport : v = 0 →
        (⟨front, rest ++ 58 :: decText p.toNat, true⟩ : InetAddress).port = 0 := by
      rintro rfl
      rw [inet6.ntop_zero] at htext
      cases front with
      | nil =>
        obtain rfl := (List.cons.inj htext).2
        exact congrArg (BitVec.ofInt 16) (atoi_colon _)
      | cons c front => exact absurd (List.cons.inj htext).1 (List.ne_of_not_mem_cons hfront)
    rw [show (Socket.accept (ntopOf inet6) {} (.inet6 v p)).isIpv6 = true from rfl, hhost,
      getSockAddr_of_inet6 rfl, pton_of_not_mem hfront, Option.getD_none]
    constructor
    · intro h
      obtain ⟨rfl, hp⟩ := AddrInfo.inet6.inj h
      exact .inr (by rw [← hp, hport rfl])
    · rintro (⟨v', p', h⟩ | h)
      · cases h
      · obtain ⟨rfl, rfl⟩ := AddrInfo.inet6.inj h
        rw [hport rfl]
  | other =>
    refine iff_of_false (fun h => ?_) ?_
    · cases h
    · rintro (⟨v, p, h⟩ | h) <;> cases h

/-- `10.1.2.3` comes back, and `2001:db8:1:1:1:1:1:1` does not. -/
theorem sent_as_text_plain :
    (ofHost (Socket.accept (ntopOf Inet6.plain) {} (.inet 0x0a010203 8080)).toIpPort
      (Socket.accept (ntopOf Inet6.plain) {} (.inet 0x0a010203 8080)).isIpv6).getSockAddr
        Inet6.plain = .inet 0x0a010203 8080 ∧
    (ofHost (Socket.accept (ntopOf Inet6.plain) {}
        (.inet6 0x20010db8000100010001000100010001 8080)).toIpPort
      (Socket.accept (ntopOf Inet6.plain) {}
        (.inet6 0x20010db8000100010001000100010001 8080)).isIpv6).getSockAddr Inet6.plain ≠
      .inet6 0x20010db8000100010001000100010001 8080 := by
  refine ⟨(sent_as_text_iff Inet6.plain (.inet 0x0a010203 8080)).2 (.inl ⟨_, _, rfl⟩), fun h => ?_⟩
  rcases (sent_as_text_iff Inet6.plain _).1 h with ⟨v, p, hsame⟩ | hsame
  · cases hsame
  · obtain ⟨hv, -⟩ := AddrInfo.inet6.inj hsame
    revert hv
    decide

/-! ## Classes of addresses -/

/-- The blocks of private addresses: the first 8, 12 or 16 bits. -/
def Private (v : BitVec 32) : Prop :=
  v.toNat / 2 ^ 24 = 10 ∨ v.toNat / 2 ^ 20 = 0xac1 ∨ v.toNat / 2 ^ 16 = 0xc0a8

instance (v : BitVec 32) : Decidable (Private v) := inferInstanceAs (Decidable (_ ∨ _ ∨ _))

theorem iPv4Of_of_text {v : BitVec 32} (h : cStr ip = inetNtop v) : iPv4Of ip = v := by
  rw [iPv4Of, h, inetPton_inetNtop]
  rfl

theorem iPv4Of_cases (ip : Bytes) :
    cStr ip = inetNtop (iPv4Of ip) ∨ iPv4Of ip = 0 ∧ ∀ v, cStr ip ≠ inetNtop v := by
  unfold iPv4Of
  cases h : inetPton (cStr ip) with
  | some v => exact .inl (inetPton_eq_some.1 h)
  | none =>
    refine .inr ⟨rfl, fun v hv => ?_⟩
    rw [inetPton_eq_some.2 hv] at h
    cases h

/-- The bounds in the source are those of the blocks. -/
theorem inBlocks_iff (v : BitVec 32) : inBlocks v = true ↔ Private v := by
  have h10 : iPv4Of (ascii "10.0.0.0") = 0x0a000000#32 := iPv4Of_of_text (by decide +kernel)
  have h10' : iPv4Of (ascii "10.255.255.255") = 0x0affffff#32 :=
    iPv4Of_of_text (by decide +kernel)
  have h172 : iPv4Of (ascii "172.16.0.0") = 0xac100000#32 := iPv4Of_of_text (by decide +kernel)
  have h172' : iPv4Of (ascii "172.31.255.255") = 0xac1fffff#32 :=
    iPv4Of_of_text (by decide +kernel)
  have h192 : iPv4Of (ascii "192.168.0.0") = 0xc0a80000#32 := iPv4Of_of_text (by decide +kernel)
  have h192' : iPv4Of (ascii "192.168.255.255") = 0xc0a8ffff#32 :=
    iPv4Of_of_text (by decide +kernel)
  have hlt := v.isLt
  rw [inBlocks, h10, h10', h172, h172', h192, h192']
  simp only [Bool.or_eq_true, Bool.and_eq_true, decide_eq_true_eq, BitVec.le_def,
    BitVec.toNat_ofNat, Private]
  omega

theorem loopback_text : ascii "127.0.0.1" = inetNtop INADDR_LOOPBACK := by decide +kernel

/-- A local address is the text of a private one. -/
theorem isLanIp_iff : a.isLanIp = true ↔ ∃ v, cStr a.addr = inetNtop v ∧ Private v := by
  rw [isLanIp, inBlocks_iff, iPv4]
  constructor
  · intro h
    rcases iPv4Of_cases a.addr with htext | ⟨hzero, -⟩
    · exact ⟨_, htext, h⟩
    · rw [hzero] at h
      exact absurd h (by decide)
  · rintro ⟨v, htext, hv⟩
    rwa [iPv4Of_of_text htext]

/-- An address of neither class is global, and so is a text that is no address. -/
theorem isWanIp_iff :
    a.isWanIp = true ↔ ¬ a.isLanIp = true ∧ cStr a.addr ≠ ascii "127.0.0.1" := by
  have hloop : a.iPv4 = INADDR_LOOPBACK ↔ cStr a.addr = ascii "127.0.0.1" := by
    rw [loopback_text]
    refine ⟨fun h => ?_, iPv4Of_of_text⟩
    rcases iPv4Of_cases a.addr with htext | ⟨hzero, -⟩
    · rwa [← iPv4, h] at htext
    · rw [iPv4, hzero] at h
      exact absurd h (by decide)
  rw [isWanIp, isLanIp, Bool.and_eq_true, bne_iff_ne, Bool.not_eq_true', Bool.not_eq_true,
    ne_eq, hloop]

/-- **The classes of addresses**: the local ones are the texts of private addresses, and an
address is of exactly one class, unless its text goes on behind that of a loopback address and a
zero. -/
theorem one_class_iff (a : InetAddress) :
    (a.isLanIp = true ↔ ∃ v, cStr a.addr = inetNtop v ∧ Private v) ∧
      ([a.isWanIp, a.isLanIp, a.isLoopbackIp].count true = 1 ↔
        (cStr a.addr = ascii "127.0.0.1" → a.addr = ascii "127.0.0.1")) := by
  refine ⟨isLanIp_iff, ?_⟩
  have hself : cStr (ascii "127.0.0.1") = ascii "127.0.0.1" := by
    rw [loopback_text, cStr_inetNtop]
  have hloop : a.isLoopbackIp = true ↔ a.addr = ascii "127.0.0.1" := beq_iff_eq
  have hlan : cStr a.addr = ascii "127.0.0.1" → a.isLanIp = false := by
    intro h
    rw [← Bool.not_eq_true, isLanIp_iff]
    rintro ⟨v, htext, hv⟩
    rw [h, loopback_text] at htext
    have hv' := congrArg inetPton htext
    rw [inetPton_inetNtop, inetPton_inetNtop] at hv'
    rw [← Option.some.inj hv'] at hv
    exact absurd hv (by decide)
  by_cases hc : cStr a.addr = ascii "127.0.0.1"
  · have hwan : a.isWanIp = false := by
      rw [← Bool.not_eq_true, isWanIp_iff]
      exact fun h => h.2 hc
    rw [hwan, hlan hc, ← hloop]
    cases a.isLoopbackIp <;> simp [hc]
  · have hno : a.isLoopbackIp = false := by
      rw [← Bool.not_eq_true, hloop]
      exact fun h => hc (by rw [h, hself])
    have hwan : a.isWanIp = !a.isLanIp := by
      rw [Bool.eq_iff_iff, isWanIp_iff]
      simp [hc]
    rw [hno, hwan]
    cases a.isLanIp <;> simp [hc]

end InetAddress

/-! ## The address of an answer -/

/-- The last answer for the host. -/
def DnsService.newest (s : DnsService) (host : Bytes) : Option (List AddrInfo) :=
  lastValue (s.lookups.filterMap fun x => x.2.res.map fun rp => (x.1, rp)) host

namespace HttpClient

open DnsService InetAddress

/-- Where the client is to connect to: the first IPv4 address of the answer, or else what the
name is read as. An element of a third family has the empty text, which is read as 0.0.0.0. -/
def target (host : Bytes) (answer : List AddrInfo) : BitVec 32 :=
  (answer.findSome? fun
    | .inet v _ => some v
    | .inet6 _ _ => none
    | .other => some 0).getD (iPv4Of host)

theorem latest_eq (ntop : Ntop) (s : DnsService) (host : Bytes) :
    s.latest ntop host = (s.newest host).map fun rp => rp.map (peerAddress ntop) := by
  rw [DnsService.latest, DnsService.newest, ← lastValue_map Function.injective_id]
  congr 1
  rw [List.map_filterMap]
  congr 1
  funext x
  cases x.2.res <;> rfl

/-- **The list gives the target**, whatever has been printed for it. -/
theorem getSockAddr_takeIPv4 (haddr : addr.isIpv6 = false) (answer : List AddrInfo) :
    (takeIPv4 addr (answer.map (peerAddress (ntopOf inet6)))).getSockAddr inet6 =
      .inet (target addr.ip answer) addr.port := by
  induction answer with
  | nil => exact getSockAddr_of_inet haddr
  | cons x answer ih =>
    cases x with
    | inet v p =>
      have htake : takeIPv4 addr ((AddrInfo.inet v p :: answer).map (peerAddress (ntopOf inet6))) =
          addr.setAddr (inetNtop v) := rfl
      rw [htake, getSockAddr_setAddr haddr, iPv4Of_inetNtop]
      rfl
    | inet6 v p => exact ih
    | other =>
      have htake : takeIPv4 addr ((AddrInfo.other :: answer).map (peerAddress (ntopOf inet6))) =
          addr.setAddr [] := rfl
      rw [htake, getSockAddr_setAddr haddr]
      rfl

theorem parseAddress_isIpv6 {url : Bytes} (h : parseAddress a url = some addr) :
    addr.isIpv6 = a.isIpv6 := by
  unfold parseAddress at h
  split_ifs at h
  split at h
  · dsimp only at h
    split at h <;> cases h <;> rfl
  · cases h
    rfl

/-- An answer is not empty, and only hosts that have been added have one. -/
theorem getHostAddress_eq {ntop : Ntop} {s : DnsService} (h : Tracked ntop s) (host : Bytes) :
    s.getHostAddress host = ((s.newest host).getD []).map (peerAddress ntop) ∧
      s.newest host ≠ some [] := by
  have hlatest := latest_eq ntop s host
  constructor
  · rw [getHostAddress, h.stored]
    split_ifs with hadded
    · rw [Option.getD_some, hlatest]
      cases s.newest host <;> rfl
    · cases hn : s.newest host with
      | none => rfl
      | some rp =>
        rw [hn] at hlatest
        exact absurd (mem_added_of_latest h hlatest) hadded
  · intro hnil
    obtain ⟨x, -, hx⟩ := List.mem_filterMap.1 (mem_of_lastValue hnil)
    obtain ⟨rp, hrp, heq⟩ := Option.map_eq_some_iff.1 hx
    cases heq
    by_cases hret : x.2.ret = 0
    · obtain ⟨a, as, hres⟩ := x.2.answered hret
      rw [hres] at hrp
      cases hrp
    · rw [x.2.failed hret] at hrp
      cases hrp

/-- **What `HttpClient` connects to**, whatever the rounds have been, if a lookup that fails does so
with the code -1: the target of the last answer for the host, or of its own lookup if there has
been none. -/
theorem connects_to (inet6 : Inet6) {es : List DnsEvent} {s s' : DnsService} {l : Lookup}
    {url : Bytes} {addr' : InetAddress} (ha : a.isIpv6 = false)
    (hrun : run (step (ntopOf inet6)) start es = some s)
    (hcode : Meets (step (ntopOf inet6)) (FailsWithMinusOne (ntopOf inet6)) start es)
    (hurl : parseAddress a url = some addr)
    (h : lookUp (ntopOf inet6) s l addr = some (s', addr')) :
    addr'.getSockAddr inet6 =
      .inet (target addr.ip ((s.newest addr.ip).getD (l.res.getD []))) addr.port := by
  have haddr := (parseAddress_isIpv6 hurl).trans ha
  have htracked : Tracked (ntopOf inet6) s :=
    run_inv_of_meets (Tracked (ntopOf inet6)) (fun _ _ _ hs he ht => hs.step he ht)
      tracked_start hcode hrun
  obtain ⟨hlist, hne⟩ := getHostAddress_eq htracked addr.ip
  have hsame : ∀ answer : List AddrInfo, (if 0 < (answer.map (peerAddress (ntopOf inet6))).length
      then takeIPv4 addr (answer.map (peerAddress (ntopOf inet6))) else addr) =
        takeIPv4 addr (answer.map (peerAddress (ntopOf inet6))) := by
    intro answer
    cases answer with
    | nil => rfl
    | cons x answer => exact if_pos (Nat.succ_pos _)
  unfold lookUp at h
  rw [hlist] at h
  cases hn : s.newest addr.ip with
  | some rp =>
    rw [hn, Option.getD_some] at h
    rw [Option.getD_some]
    have hpos : 0 < (rp.map (peerAddress (ntopOf inet6))).length := by
      rw [List.length_map]
      exact List.length_pos_of_ne_nil fun he => hne (by rw [hn, he])
    simp only [if_pos hpos] at h
    cases h
    exact getSockAddr_takeIPv4 haddr rp
  | none =>
    -- the list is empty, and the client asks itself
    rw [hn] at h
    by_cases hret : l.ret = 0
    · obtain ⟨a, as, hres, hinfo⟩ := getHostInfo_answered (ntopOf inet6) hret
      simp only [hinfo, Option.getD_none, List.map_nil, List.length_nil, lt_irrefl, if_false,
        hsame] at h
      cases h
      rw [Option.getD_none, hres, Option.getD_some]
      exact getSockAddr_takeIPv4 haddr _
    · obtain ⟨hres, hinfo⟩ := getHostInfo_failed (ntopOf inet6) hret
      rw [Option.getD_none, hres, Option.getD_none]
      split_ifs at hinfo
      · simp only [hinfo, Option.getD_none, List.map_nil, List.length_nil, lt_irrefl,
          if_false] at h
        cases h
        exact getSockAddr_takeIPv4 haddr []
      · simp [hinfo] at h

/-- The lookup of the host has found an IPv6 address and one of IPv4. -/
def answeredEvents : List DnsEvent :=
  [.addHost (ascii "nest.org"), .getHosts [ascii "nest.org"],
    .lookup ⟨0, some [.inet6 0x20010db8000100010001000100010001 0, .inet 0x0a010203 0],
      fun _ => ⟨_, _, rfl⟩, fun h => absurd rfl h⟩]

/-- `getaddrinfo` answers `EAI_NONAME`. -/
def noName : Lookup := ⟨-2, none, fun h => absurd h (by decide), fun _ => rfl⟩

theorem connects_to_second : ∃ s s' addr addr',
    run (step (ntopOf Inet6.plain)) start answeredEvents = some s ∧
      parseAddress {} (ascii "http://nest.org/") = some addr ∧
      lookUp (ntopOf Inet6.plain) s noName addr = some (s', addr') ∧
      addr'.getSockAddr Inet6.plain = .inet 0x0a010203 80 := by
  have hcode : Meets (step (ntopOf Inet6.plain)) (FailsWithMinusOne (ntopOf Inet6.plain)) start
      answeredEvents := by
    refine ⟨trivial, fun s₁ _ => ⟨trivial, fun s₂ _ => ⟨fun _ h => absurd rfl h, fun s₃ _ => ?_⟩⟩⟩
    trivial
  have hurl : parseAddress {} (ascii "http://nest.org/") =
      some ⟨ascii "nest.org", ascii "80", false⟩ := by
    decide +kernel
  obtain ⟨s, hs, s', addr', hlook, htarget⟩ : ∃ s,
      run (step (ntopOf Inet6.plain)) start answeredEvents = some s ∧ ∃ s' addr',
        lookUp (ntopOf Inet6.plain) s noName ⟨ascii "nest.org", ascii "80", false⟩ =
          some (s', addr') ∧
        target (ascii "nest.org") ((s.newest (ascii "nest.org")).getD []) = 0x0a010203 :=
    ⟨_, rfl, _, _, rfl, rfl⟩
  refine ⟨s, s', _, addr', hs, hurl, hlook, ?_⟩
  have hconnects := connects_to Inet6.plain rfl hs hcode hurl hlook
  rw [hconnects]
  exact congrArg (AddrInfo.inet · 80) htarget

end HttpClient

end HttpNest
