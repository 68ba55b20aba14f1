import HttpNest.Spec.PostObject

/-!
# Packets and objects posted to a context

A packet that `PostChunk` or `PostStreamChunk` takes while `headerSent_` is set goes through
the states that send it. While it is not set, `header_` is sent in its place: the completion of
that write reports the packet, and the next state is the one behind it (`handsOver_iff`).

`PostRequest(HttpRequestPtr&)` drops the answers of the functions it calls, so it answers
`true` for a message that was refused (`relays_iff`).
-/

namespace HttpNest

open HttpPoster

/-- The packet is reported at some time, and whenever it has been, the bytes handed over before
are `bs`. `r` is the context behind the posting function and what that gave to `Send`. -/
def HandsOver (r : HttpPoster × Bytes) (bs : Bytes) : Prop :=
  (∃ n, .onSentNextChunk ∈ completions n r.1) ∧
    ∀ n, .onSentNextChunk ∈ completions n r.1 →
      handedBefore (.send r.2 :: completions n r.1) = bs

/-- The header that has to go first. -/
def HttpPoster.front (c : HttpPoster) : Bytes := if c.headerSent then [] else c.header

variable {c : HttpPoster} {first bs : Bytes}

/-! ## Completions -/

theorem completions_succ (n : ℕ) (c : HttpPoster) :
    completions (n + 1) c = c.writeComplete.2.toList ++ completions n c.writeComplete.1 := rfl

/-- What is handed over before a report does not depend on how many completions follow it. -/
theorem handsOver_of_report {before : Bytes} {k : ℕ} (hk : .onSentNextChunk ∈ completions k c)
    (hreport : ∀ n, .onSentNextChunk ∈ completions n c →
      handedBefore (.send first :: completions n c) = before) :
    HandsOver (c, first) bs ↔ before = bs := by
  constructor
  · rintro ⟨-, hall⟩
    exact (hreport k hk).symm.trans (hall k hk)
  · intro hbs
    exact ⟨⟨k, hk⟩, fun n hn => (hreport n hn).trans hbs⟩

/-- A context that reports at its first completion. -/
theorem handsOver_iff_of_report (h : c.writeComplete.2 = some .onSentNextChunk) :
    HandsOver (c, first) bs ↔ first = bs := by
  have hcalls : ∀ n, completions (n + 1) c =
      .onSentNextChunk :: completions n c.writeComplete.1 := by
    intro n
    rw [completions_succ, h]
    rfl
  apply handsOver_of_report (k := 1)
  · rw [hcalls]
    exact List.mem_cons_self ..
  · intro n hn
    cases n with
    | zero => cases hn
    | succ n =>
      rw [hcalls]
      exact List.append_nil _

/-- A context that sends data at its first completion, and reports at its second. -/
theorem handsOver_iff_of_send {data : Bytes} (h : c.writeComplete.2 = some (.send data))
    (h' : c.writeComplete.1.writeComplete.2 = some .onSentNextChunk) :
    HandsOver (c, first) bs ↔ first ++ data = bs := by
  have hone : completions 1 c = [.send data] := by
    rw [completions_succ, h]
    rfl
  have hcalls : ∀ n, completions (n + 2) c =
      .send data :: .onSentNextChunk :: completions n c.writeComplete.1.writeComplete.1 := by
    intro n
    rw [completions_succ, h, completions_succ, h']
    rfl
  apply handsOver_of_report (k := 2)
  · rw [hcalls]
    simp
  · intro n hn
    rcases n with - | - | n
    · cases hn
    · rw [hone] at hn
      simp at hn
    · rw [hcalls]
      show first ++ (data ++ []) = first ++ data
      rw [List.append_nil]

/-! ## The two posting functions -/

theorem handsOver_stream (hc : c.postState = .kHttpContextPostInit) (p : Packet) :
    (∀ r, c.postStreamChunk p = some r → HandsOver r (c.front ++ p.data)) ↔
      c.headerSent = true ∨ p.data = [] := by
  unfold HttpPoster.postStreamChunk front
  rw [if_neg (not_not.2 hc)]
  cases hsent : c.headerSent with
  | true =>
    simp only [if_true, Option.some.injEq, forall_eq', List.nil_append, true_or, iff_true]
    exact (handsOver_iff_of_report rfl).2 rfl
  | false =>
    simp only [Bool.false_eq_true, if_false, Option.some.injEq, forall_eq', false_or]
    rw [handsOver_iff_of_report rfl]
    exact List.self_eq_append_right

theorem chunkLen_ne_nil (p : Packet) : chunkLen p ≠ [] := by
  simp [chunkLen, CRLF]

theorem handsOver_chunk (c : HttpPoster) (p : Packet) :
    HandsOver (c.postChunk p) (c.front ++ (chunkLen p ++ p.data)) ↔ c.headerSent = true := by
  unfold HttpPoster.postChunk front
  cases hsent : c.headerSent with
  | true =>
    simp only [if_true, List.nil_append, iff_true]
    exact (handsOver_iff_of_send rfl rfl).2 rfl
  | false =>
    simp only [Bool.false_eq_true, if_false, iff_false]
    rw [handsOver_iff_of_report rfl, List.self_eq_append_right]
    intro hnil
    exact chunkLen_ne_nil p (List.append_eq_nil_iff.1 hnil).1

/-- **A packet is handed over before it is reported exactly if `headerSent_` is set**, or for a
stream if it is empty. -/
theorem handsOver_iff (hc : c.postState = .kHttpContextPostInit) (p : Packet) :
    ((∀ r, c.postStreamChunk p = some r → HandsOver r (c.front ++ p.data)) ↔
      c.headerSent = true ∨ p.data = []) ∧
    (HandsOver (c.postChunk p) (c.front ++ (chunkLen p ++ p.data)) ↔ c.headerSent = true) :=
  ⟨handsOver_stream hc p, handsOver_chunk c p⟩

/-- A context that has sent its header. -/
theorem handsOver_sent :
    HandsOver (({ headerSent := true } : HttpPoster).postChunk ⟨3, ascii "abc"⟩)
      (ascii "3\r\nabc") := by
  have h := ((handsOver_iff (c := { headerSent := true }) rfl ⟨3, ascii "abc"⟩).2).2 rfl
  have hbytes : front { headerSent := true } ++ (chunkLen ⟨3, ascii "abc"⟩ ++ ascii "abc") =
      ascii "3\r\nabc" := by decide +kernel
  rwa [hbytes] at h

/-- The first packet of a new context, whose flag happens to be false. -/
theorem not_handsOver :
    (∃ r, ({ headerSent := false } : HttpPoster).postStreamChunk ⟨3, ascii "abc"⟩ = some r ∧
      ¬ HandsOver r (ascii "abc")) ∧
    ¬ HandsOver (({ headerSent := false } : HttpPoster).postChunk ⟨3, ascii "abc"⟩)
      (ascii "3\r\nabc") := by
  refine ⟨⟨_, rfl, ?_⟩, ?_⟩
  · rw [handsOver_iff_of_report rfl]
    decide +kernel
  · intro h
    have hreport := (handsOver_iff_of_report (c := (({ headerSent := false } :
      HttpPoster).postChunk ⟨3, ascii "abc"⟩).1) rfl).1 h
    revert hreport
    decide +kernel

/-! ## Whole messages -/

/-- The answer says whether the message was handed over, and a refused one leaves the context
as it was. -/
def Relays (c : HttpPoster) (m : MessageObject) : Prop :=
  let (answer, c', handed) := c.postObject m
  (answer = true ↔ handed = some m.posted) ∧ (handed = none → c' = c)

/-- What a posting function does with the text: it sends it, or refuses it. -/
theorem sender_cases {sender : HttpPoster → Bytes → Option (HttpPoster × Bytes)}
    (h : sender = postHttp ∨ sender = postStreamHeader ∨ sender = postChunkHeader)
    (c : HttpPoster) (text : Bytes) :
    c.postState = .kHttpContextPostInit ∧ (∃ c', sender c text = some (c', text)) ∨
      c.postState ≠ .kHttpContextPostInit ∧ sender c text = none := by
  by_cases hc : c.postState = .kHttpContextPostInit
  · refine .inl ⟨hc, ?_⟩
    rcases h with rfl | rfl | rfl
    · exact ⟨_, if_neg (not_not.2 hc)⟩
    · exact ⟨_, if_neg (not_not.2 hc)⟩
    · exact ⟨_, if_neg (not_not.2 hc)⟩
  · refine .inr ⟨hc, ?_⟩
    rcases h with rfl | rfl | rfl
    · exact if_pos hc
    · exact if_pos hc
    · exact if_pos hc

/-- The function that the object is dispatched to. -/
theorem postObject_eq (c : HttpPoster) (m : MessageObject) :
    ∃ sender : HttpPoster → Bytes → Option (HttpPoster × Bytes),
      (sender = postHttp ∨ sender = postStreamHeader ∨ sender = postChunkHeader) ∧
        c.postObject m = (true, ((sender c m.posted).map Prod.fst).getD c,
          (sender c m.posted).map Prod.snd) := by
  unfold postObject MessageObject.posted
  cases hchunked : m.request.isChunked with
  | true => exact ⟨postChunkHeader, .inr (.inr rfl), by simp⟩
  | false =>
    cases hstream : m.request.isStream with
    | true => exact ⟨postStreamHeader, .inr (.inl rfl), by simp⟩
    | false => exact ⟨postHttp, .inl rfl, by simp⟩

/-- **The answer is right exactly if nothing is in flight.** -/
theorem relays_iff (c : HttpPoster) (m : MessageObject) :
    Relays c m ↔ c.postState = .kHttpContextPostInit := by
  obtain ⟨sender, hsender, hpost⟩ := postObject_eq c m
  unfold Relays
  rw [hpost]
  rcases sender_cases hsender c m.posted with ⟨hc, c', hsent⟩ | ⟨hc, hsent⟩
  · simp [hsent, hc]
  · simp [hsent, hc]

/-- A response that is posted while another one is in flight. -/
theorem not_relays :
    ¬ Relays { postState := .kHttpContextPostHttp, headerSent := false }
      { request := .new false, body := ascii "abc" } := by
  intro h
  have hhanded := h.1.1 rfl
  revert hhanded
  decide +kernel

end HttpNest
