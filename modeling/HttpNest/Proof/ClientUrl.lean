import HttpNest.Spec.HttpClient
import HttpNest.Spec.UrlParts

/-!
# What the client takes from a URL

`ParseUrl` accepts every text of more than seven bytes, and reads the port behind the position
that the colon has in the domain, but in the URL: seven bytes too early, at the last six bytes
of the host. Without a path it does not look for a port. `parsedRight_iff` says which URLs are
taken apart as they are written.
-/

namespace HttpNest

open CNumeral ListSearch

namespace UrlParts

variable {u : UrlParts} {p q rest : Bytes}

theorem drop_text (u : UrlParts) :
    u.text.drop 7 = u.authority ++ (u.path ++ u.query.elim [] (63 :: ·)) := rfl

theorem WellFormed.slash_not_mem (h : u.WellFormed) : 47 ∉ u.authority := by
  unfold authority
  rw [List.mem_append, not_or]
  refine ⟨fun hm => (h.host 47 hm).1 rfl, ?_⟩
  rcases hp : u.port with _ | p
  · exact List.not_mem_nil
  · intro hm
    rcases List.mem_cons.1 hm with hc | hm
    · cases hc
    · have hdigit := (h.port p hp).1 47 hm
      revert hdigit
      decide

theorem WellFormed.colon_not_mem (h : u.WellFormed) : 58 ∉ u.host :=
  fun hm => (h.host 58 hm).2.1 rfl

theorem WellFormed.lt_length (h : u.WellFormed) : 7 < u.text.length := by
  have hpos : 0 < u.host.length := List.length_pos_iff.2 h.host_ne
  have hscheme : (ascii "http://").length = 7 := rfl
  simp only [text, authority, List.length_append, hscheme]
  omega

/-- Where there is a path, the first `/` ends the authority. -/
theorem WellFormed.find_slash (h : u.WellFormed) (hpath : u.path = 47 :: rest) :
    find [47] (u.text.drop 7) = some u.authority.length ∧
      (u.text.drop 7).take u.authority.length = u.authority := by
  rw [drop_text, hpath, List.cons_append]
  exact ⟨find_singleton_append h.slash_not_mem _, List.take_left⟩

/-- **Where the port is read**: in the last six bytes of the host, or in the scheme. -/
theorem WellFormed.atoi_drop (h : u.WellFormed) (hp : u.port = some p) :
    atoi (u.text.drop (u.host.length + 1)) =
      if 6 ≤ u.host.length then atoi (u.host.drop (u.host.length - 6)) else 0 := by
  have hpos : 0 < u.host.length := List.length_pos_iff.2 h.host_ne
  have htext : u.text = ascii "http://" ++ (u.host ++ 58 :: (p ++ (u.path ++
      u.query.elim [] (63 :: ·)))) := by
    simp [text, authority, hp]
  have hzero : ∀ {c : UInt8} (t : Bytes), isSpace c = false → c ≠ 45 → c ≠ 43 →
      digit? 10 c = none → atoi (c :: t) = 0 :=
    fun t hspace hminus hplus hc => atoi_append_cons hspace hminus hplus hc [] t
  split_ifs with h6
  · have hdrop : u.text.drop (u.host.length + 1) = u.host.drop (u.host.length - 6) ++
        58 :: (p ++ (u.path ++ u.query.elim [] (63 :: ·))) := by
      rw [show u.host.length + 1 = 7 + (u.host.length - 6) by omega, ← List.drop_drop, htext,
        show (7 : ℕ) = (ascii "http://").length from rfl, List.drop_left,
        List.drop_append_of_le_length (by omega)]
    rw [hdrop]
    exact atoi_append_cons (by decide) (by decide) (by decide) (by decide) _ _
  · rw [htext]
    generalize u.host ++ 58 :: (p ++ (u.path ++ u.query.elim [] (63 :: ·))) = t
    obtain h1 | h1 | h1 | h1 | h1 : u.host.length = 1 ∨ u.host.length = 2 ∨ u.host.length = 3 ∨
        u.host.length = 4 ∨ u.host.length = 5 := by omega
    -- `tp://`, `p://`, `://`, `//` and `/`
    all_goals
      rw [h1]
      exact hzero _ (by decide) (by decide) (by decide) (by decide)

end UrlParts

namespace HttpClient

variable {request r : HttpRequest} {addr a : InetAddress} {u : UrlParts} {url p q rest : Bytes}

/-- What stands between the scheme and the first `/`. -/
def domain (url : Bytes) : Bytes :=
  (find [47] (url.drop 7)).elim (url.drop 7) fun pos => (url.drop 7).take pos

theorem getHeader_addHeader (r : HttpRequest) (field value : Bytes) :
    (r.addHeader field value).getHeader field = value := by
  rw [HttpRequest.getHeader, HttpRequest.addHeader, AList.lookup_insert]
  rfl

/-- The `Host` header is the domain, for every text that is long enough. -/
theorem parseUrl_host (h : parseUrl request url = some r) :
    7 < url.length ∧ r.getHeader (ascii "Host") = domain url := by
  unfold parseUrl at h
  split_ifs at h with hlen
  refine ⟨hlen, ?_⟩
  unfold domain
  rcases hf : find [47] (url.drop 7) with _ | pos <;> rw [hf] at h <;> cases h
  · exact getHeader_addHeader _ _ _
  · exact getHeader_addHeader _ _ _

theorem parseUrl_isSome (request : HttpRequest) (url : Bytes) :
    (parseUrl request url).isSome ↔ 7 < url.length := by
  unfold parseUrl
  split_ifs with hlen
  · cases find [47] (url.drop 7) <;> simp [hlen]
  · simp [hlen]

/-- The address of a URL with a path. -/
theorem parseAddress_path (h : u.WellFormed) (hpath : u.path = 47 :: rest)
    (ha : parseAddress addr u.text = some a) :
    a.ip = u.host ∧ a.port = u.port.elim 80 fun _ =>
      if 6 ≤ u.host.length then BitVec.ofInt 16 (atoi (u.host.drop (u.host.length - 6)))
      else 0 := by
  obtain ⟨hfind, htake⟩ := h.find_slash hpath
  rw [parseAddress, if_pos h.lt_length, hfind] at ha
  simp only [htake] at ha
  rcases hp : u.port with _ | p
  · have hauth : u.authority = u.host := by simp [UrlParts.authority, hp]
    rw [hauth, find_singleton_none.2 h.colon_not_mem] at ha
    cases ha
    exact ⟨rfl, InetAddress.port_setPort⟩
  · have hauth : u.authority = u.host ++ 58 :: p := by simp [UrlParts.authority, hp]
    rw [hauth, find_singleton_append h.colon_not_mem] at ha
    simp only [List.take_left, h.atoi_drop hp] at ha
    cases ha
    refine ⟨rfl, InetAddress.port_setPort.trans ?_⟩
    simp only [Option.elim_some]
    split_ifs <;> rfl

/-- The address of a URL with neither path nor query. -/
theorem parseAddress_bare (h : u.WellFormed) (hpath : u.path = []) (hquery : u.query = none)
    (ha : parseAddress addr u.text = some a) : a.ip = u.authority ∧ a.port = 80 := by
  have hdrop : u.text.drop 7 = u.authority := by simp [UrlParts.drop_text, hpath, hquery]
  rw [parseAddress, if_pos h.lt_length, hdrop, find_singleton_none.2 h.slash_not_mem] at ha
  cases ha
  exact ⟨rfl, InetAddress.port_setPort⟩

theorem domain_path (h : u.WellFormed) (hpath : u.path = 47 :: rest) :
    domain u.text = u.authority := by
  obtain ⟨hfind, htake⟩ := h.find_slash hpath
  rw [domain, hfind]
  exact htake

theorem domain_bare (h : u.WellFormed) (hpath : u.path = []) (hquery : u.query = none) :
    domain u.text = u.authority := by
  have hdrop : u.text.drop 7 = u.authority := by simp [UrlParts.drop_text, hpath, hquery]
  rw [domain, hdrop, find_singleton_none.2 h.slash_not_mem]
  rfl

/-- Without a path, the query is taken for a part of the domain. -/
theorem domain_query_ne (h : u.WellFormed) (hpath : u.path = []) (hquery : u.query = some q) :
    domain u.text ≠ u.authority := by
  have hdrop : u.text.drop 7 = (u.authority ++ [63]) ++ q := by
    simp [UrlParts.drop_text, hpath, hquery]
  have hslash : 47 ∉ u.authority ++ [63] := by
    rw [List.mem_append, not_or]
    exact ⟨h.slash_not_mem, by decide⟩
  intro heq
  have hlen := congrArg List.length heq
  rw [domain, hdrop] at hlen
  rcases hf : find [47] q with _ | i
  · have hnone : 47 ∉ (u.authority ++ [63]) ++ q := by
      rw [List.mem_append, not_or]
      exact ⟨hslash, find_singleton_none.1 hf⟩
    rw [find_singleton_none.2 hnone] at hlen
    simp at hlen
  · rw [find_append_of_not_mem hf hslash] at hlen
    have hi := find_le hf
    simp at hlen hi
    omega

/-! ## The URLs that are taken apart as they are written -/

/-- What is accepted is a URL, and address, port and `Host` header are those that it gives. -/
def ParsedRight (url : Bytes) : Prop :=
  ∀ request addr r a, parseUrl request url = some r → parseAddress addr url = some a →
    ∃ u : UrlParts, u.WellFormed ∧ u.text = url ∧ a.ip = u.host ∧ a.port.toNat = u.portNumber ∧
      r.getHeader (ascii "Host") = u.authority

/-- Neither port, path nor query; or a path, and no port or one that the last six bytes of the
host say too. -/
def Straight (u : UrlParts) : Prop :=
  u.port = none ∧ u.path = [] ∧ u.query = none ∨
    u.path ≠ [] ∧ ∀ p, u.port = some p → 6 ≤ u.host.length ∧
      BitVec.ofInt 16 (atoi (u.host.drop (u.host.length - 6))) = BitVec.ofNat 16 (decimal p)

/-- With a path, the port decides. -/
theorem port_right_iff (h : u.WellFormed) (hpath : u.path = 47 :: rest)
    (ha : parseAddress addr u.text = some a) : a.port.toNat = u.portNumber ↔ Straight u := by
  have hne : u.path ≠ [] := by
    rw [hpath]
    exact List.cons_ne_nil _ _
  have hstraight : Straight u ↔ ∀ p, u.port = some p → 6 ≤ u.host.length ∧
      BitVec.ofInt 16 (atoi (u.host.drop (u.host.length - 6))) = BitVec.ofNat 16 (decimal p) :=
    ⟨fun hs => hs.elim (fun hbare => absurd hbare.2.1 hne) And.right, fun hs => .inr ⟨hne, hs⟩⟩
  rw [hstraight, (parseAddress_path h hpath ha).2, UrlParts.portNumber]
  rcases hp : u.port with _ | p
  · exact iff_of_true rfl (fun p hp => by cases hp)
  · obtain ⟨-, h1, hmax⟩ := h.port p hp
    have hport : (BitVec.ofNat 16 (decimal p)).toNat = decimal p := by
      rw [BitVec.toNat_ofNat]
      omega
    simp only [Option.elim_some, Option.some.injEq, forall_eq']
    split_ifs with h6
    · refine ⟨fun heq => ⟨h6, BitVec.eq_of_toNat_eq (heq.trans hport.symm)⟩, fun hc => ?_⟩
      rw [hc.2, hport]
    · refine iff_of_false (fun hzero => ?_) (fun hc => h6 hc.1)
      have hzero : 0 = decimal p := hzero
      omega

/-- **When `ParseUrl` is right**: on texts that are too short, which it refuses, on
`http://host` and on `http://host/path[?query]`, and with a port exactly if there is a path and
the last six bytes of the host are read as the port. -/
theorem parsedRight_iff (url : Bytes) :
    ParsedRight url ↔ url.length ≤ 7 ∨ ∃ u : UrlParts, u.WellFormed ∧ u.text = url ∧
      Straight u := by
  constructor
  · intro h
    by_cases hlen : url.length ≤ 7
    · exact .inl hlen
    · refine .inr ?_
      have hlen := not_le.1 hlen
      obtain ⟨r, hr⟩ := Option.isSome_iff_exists.1 ((parseUrl_isSome (.new true) url).2 hlen)
      obtain ⟨a, ha⟩ : ∃ a, parseAddress {} url = some a := by
        rw [parseAddress, if_pos hlen]
        cases find [47] (url.drop 7) <;> exact ⟨_, rfl⟩
      obtain ⟨u, hu, rfl, hip, hport, hhost⟩ := h _ _ r a hr ha
      refine ⟨u, hu, rfl, ?_⟩
      rcases hu.path with hpath | ⟨rest, hpath⟩
      · rw [(parseUrl_host hr).2] at hhost
        rcases hquery : u.query with _ | q
        · refine .inl ⟨?_, hpath, hquery⟩
          -- the address would be the authority, port included
          have hauth := (parseAddress_bare hu hpath hquery ha).1.symm.trans hip
          rcases hp : u.port with _ | p
          · rfl
          · have hlen := congrArg List.length hauth
            simp [UrlParts.authority, hp] at hlen
        · exact absurd hhost (domain_query_ne hu hpath hquery)
      · exact (port_right_iff hu hpath ha).1 hport
  · rintro (hlen | ⟨u, hu, rfl, hstraight⟩) request addr r a hr ha
    · exact absurd (parseUrl_host hr).1 (not_lt.2 hlen)
    · refine ⟨u, hu, rfl, ?_⟩
      rw [(parseUrl_host hr).2]
      rcases hu.path with hpath | ⟨rest, hpath⟩
      · obtain ⟨hp, -, hquery⟩ := hstraight.resolve_right fun hc => hc.1 hpath
        obtain ⟨hip, hport⟩ := parseAddress_bare hu hpath hquery ha
        have hauth : u.authority = u.host := by simp [UrlParts.authority, hp]
        refine ⟨hip.trans hauth, ?_, domain_bare hu hpath hquery⟩
        rw [hport, UrlParts.portNumber, hp]
        rfl
      · exact ⟨(parseAddress_path hu hpath ha).1, (port_right_iff hu hpath ha).2 hstraight,
          domain_path hu hpath⟩

/-- The port of `http://localhost:8080/` is read as 0. -/
theorem port_lost : ¬ ∀ url : Bytes, ParsedRight url := by
  intro h
  obtain ⟨r, hr⟩ := Option.isSome_iff_exists.1
    ((parseUrl_isSome (.new true) (ascii "http://localhost:8080/")).2 (by decide))
  obtain ⟨u, hu, -, -, hport, -⟩ := h _ _ {} r _ hr rfl
  have hzero : u.portNumber = 0 := by
    rw [← hport]
    decide +kernel
  rw [UrlParts.portNumber] at hzero
  rcases hp : u.port with _ | p <;> rw [hp] at hzero
  · cases hzero
  · have h1 := (hu.port p hp).2.1
    rw [Option.elim_some] at hzero
    omega

end HttpClient

end HttpNest
