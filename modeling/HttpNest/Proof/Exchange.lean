import HttpNest.Lib.Progress
import HttpNest.Proof.ClientPost
import HttpNest.Proof.HeadOnly

/-!
# A request and its answer, in all interleavings

`HttpClient::Get` sends a request that ends with its header block, and `HttpService` answers it
with a response that does, too. `Going q a` is the invariant of all runs: the request arrives,
is reported once and answered, and the answer arrives and is reported once
(`answered_once`).

Whether it gets that far depends on the pieces in which the bytes are read. The answer can still
arrive exactly if every read has been whole, and then it takes six reads and turns
(`answerable_iff`). The first read that is not whole leaves two bytes or more without a terminator
in a buffer, and the loop over them is never left.
-/

namespace HttpNest

open ListSearch HttpParser EventRun

namespace Exchange

variable {q a : HeadOnly} {res : HttpRequest} {s s' t : Exchange} {es : List ExchangeEvent}
  {ev : ExchangeEvent}

/-- The handler's response is `a`, and it is written in one piece. -/
structure Answers (res : HttpRequest) (q a : HeadOnly) : Prop where
  asks : q.request.isRequest = true
  answers : a.request.isRequest = false
  bytes : res.makeHeaders = a.bytes
  chunked : res.isChunked = false
  stream : res.isStream = false

theorem Answers.post (h : Answers res q a) {c : HttpPoster}
    (hc : c.postState = .kHttpContextPostInit) : c.post res =
      some ({ c with header := a.bytes, postState := .kHttpContextPostHttp }, a.bytes) := by
  rw [HttpPoster.post, h.chunked, h.stream, h.bytes, if_neg Bool.false_ne_true,
    if_neg Bool.false_ne_true, HttpPoster.postHttp, if_neg (not_not.2 hc)]

/-- A poster that `WriteComplete` gets nothing to send from. -/
def Quiet (c : HttpPoster) : Prop :=
  c.postState = .kHttpContextPostInit ∨ c.postState = .kHttpContextPostHttp

theorem Quiet.writeComplete {e : HttpEnd} (h : Quiet e.poster) :
    e.writeComplete.1.context = e.context ∧ e.writeComplete.2 = [] ∧
      e.writeComplete.1.poster.postState = .kHttpContextPostInit := by
  rcases h with h | h <;> rw [HttpEnd.writeComplete, HttpPoster.writeComplete, h]
  · exact ⟨rfl, rfl, h⟩
  · exact ⟨rfl, rfl, rfl⟩

/-- The request is on its way, or has been taken and answered. -/
inductive Going (q a : HeadOnly) (s : Exchange) : Prop
  | asking : Receiving q s.server.context s.up → s.asked = [] →
    s.server.poster.postState = .kHttpContextPostInit → Untouched s.client.context → s.down = [] →
    Quiet s.client.poster → Going q a s
  | answering : s.asked = [(some q.request, none)] → s.server.context.buf.bytes = [] → s.up = [] →
    Quiet s.server.poster → Receiving a s.client.context s.down → Quiet s.client.poster →
    Going q a s

/-- Neither loop spins. -/
def Flowing (s : Exchange) : Prop := ¬ Spinning s.server.context ∧ ¬ Spinning s.client.context

theorem not_spinning_of_nil {c : HttpContext} (h : c.buf.bytes = []) : ¬ Spinning c := by
  intro hs
  have hguard := hs.guard
  rw [h] at hguard
  cases hguard

/-- What is left of the reads and turns at one end. -/
def toGo (c : HttpContext) : ℕ := if c.requests = [] then 3 - min 2 c.buf.bytes.length else 0

def measure (s : Exchange) : ℕ := toGo s.server.context + toGo s.client.context

theorem toGo_read {c c' : HttpContext} {n : ℕ} (hreq : c.requests = []) (hreq' : c'.requests = [])
    (hlen : c'.buf.bytes.length = c.buf.bytes.length + n) (hle : c.buf.bytes.length ≤ 1)
    (hpos : 0 < n) : toGo c' < toGo c := by
  rw [toGo, toGo, if_pos hreq, if_pos hreq', hlen]
  omega

theorem toGo_taken {c c' : HttpContext} {m : HeadOnly} (hreq : c.requests = [])
    (hreq' : c'.requests = [(some m.request, none)]) : toGo c' < toGo c := by
  rw [toGo, toGo, if_pos hreq, if_neg (by rw [hreq']; exact List.cons_ne_nil _ _)]
  omega

/-! ## One step -/

/-- What every step keeps, and what it brings down. -/
structure Stepped (q a : HeadOnly) (s : Exchange) (ev : ExchangeEvent) (s' : Exchange) : Prop where
  going : Going q a s'
  flowing : Flowing s' ↔ Flowing s ∧ Whole s ev
  fewer : Flowing s' → counted ev = true → measure s' < measure s
  same : counted ev = false → measure s' = measure s

theorem stepped_read_client {n : ℕ} (h : Going q a s)
    (hs : step res s (.read .client n) = some s') :
    Stepped q a s (.read .client n) s' := by
  simp only [step, Option.bind_eq_bind, Option.bind_eq_some_iff] at hs
  obtain ⟨⟨e, down⟩, hread, hs'⟩ := hs
  cases hs'
  cases h with
  | asking _ _ _ _ hdown _ =>
    rw [hdown, read_nil] at hread
    cases hread
  | answering hasked hnil hup hserver hclient hquiet =>
    obtain ⟨hle, hpos, -⟩ := of_read hread
    obtain ⟨hnot, hclient', hposter, hreq, hreq', hlen, hiff⟩ := hclient.read hread
    refine ⟨.answering hasked hnil hup hserver hclient' (by rw [hposter]; exact hquiet), ?_,
      fun _ _ => ?_, fun hc => (by cases hc)⟩
    · have hserver' := not_spinning_of_nil hnil
      simp only [Flowing, hiff, Whole, hnot, hserver', not_not, not_false_iff, true_and]
    · exact Nat.add_lt_add_left (toGo_read hreq hreq' hlen hle hpos) _

theorem stepped_read_server {n : ℕ} (h : Going q a s)
    (hs : step res s (.read .server n) = some s') :
    Stepped q a s (.read .server n) s' := by
  simp only [step, Option.bind_eq_bind, Option.bind_eq_some_iff] at hs
  obtain ⟨⟨e, up⟩, hread, hs'⟩ := hs
  cases hs'
  cases h with
  | answering _ _ hup _ _ _ =>
    rw [hup, read_nil] at hread
    cases hread
  | asking hserver _ hinit hfresh hdown hquiet =>
    obtain ⟨hle, hpos, -⟩ := of_read hread
    obtain ⟨hnot, hserver', hposter, hreq, hreq', hlen, hiff⟩ := hserver.read hread
    refine ⟨.asking hserver' hreq' (by rw [hposter]; exact hinit) hfresh hdown hquiet, ?_,
      fun _ _ => ?_, fun hc => (by cases hc)⟩
    · have hclient := not_spinning_of_nil hfresh.empty
      simp only [Flowing, hiff, Whole, hnot, hclient, not_not, not_false_iff, true_and, and_true]
    · exact Nat.add_lt_add_right (toGo_read hreq hreq' hlen hle hpos) _

theorem stepped_turn_client (hans : Answers res q a) (h : Going q a s)
    (hs : step res s (.turn .client) = some s') : Stepped q a s (.turn .client) s' := by
  simp only [step] at hs
  split_ifs at hs with hguard
  cases h with
  | asking _ _ _ hfresh _ _ =>
    rw [loop_guard, hfresh.empty] at hguard
    cases hguard
  | answering hasked hnil hup hserver hclient hquiet =>
    have hserver' := not_spinning_of_nil hnil
    rcases hclient.turn res hguard with
      ⟨hspinning, e', he', hspinning', hposter⟩ | ⟨hreq, hbuf, hin, hnot, c', hc', hreq', hnil'⟩
    · rw [he'] at hs
      cases hs
      refine ⟨.answering hasked hnil ?_ hserver (.spinning hspinning')
        (by rw [hposter]; exact hquiet), ?_, fun hf => absurd hspinning' hf.2,
        fun hc => (by cases hc)⟩
      · rw [hup, List.append_nil]
      · simp only [Flowing, hspinning, hspinning', not_true_eq_false, and_false, false_and]
    -- a response is not answered
    · have hreply : a.reply res s.client.poster = (s.client.poster, []) := by
        rw [HeadOnly.reply, hans.answers, if_neg Bool.false_ne_true]
      rw [hreply] at hc'
      rw [hc'] at hs
      cases hs
      refine ⟨.answering hasked hnil ?_ hserver (.taken hreq' hnil' hin) hquiet, ?_, fun _ _ => ?_,
        fun hc => (by cases hc)⟩
      · rw [hup, List.append_nil]
      · have hnot' := not_spinning_of_nil hnil'
        simp only [Flowing, Whole, hserver', hnot, hnot', not_false_iff, and_true]
      · exact Nat.add_lt_add_left (toGo_taken hreq hreq') _

theorem stepped_turn_server (hans : Answers res q a) (h : Going q a s)
    (hs : step res s (.turn .server) = some s') : Stepped q a s (.turn .server) s' := by
  simp only [step] at hs
  split_ifs at hs with hguard
  cases h with
  | answering _ hnil _ _ _ _ =>
    rw [loop_guard, hnil] at hguard
    cases hguard
  | asking hserver _ hinit hfresh hdown hquiet =>
    have hclient := not_spinning_of_nil hfresh.empty
    rcases hserver.turn res hguard with
      ⟨hspinning, e', he', hspinning', hposter⟩ | ⟨hreq, hbuf, hin, hnot, c', hc', hreq', hnil'⟩
    · rw [he'] at hs
      cases hs
      refine ⟨.asking (.spinning hspinning') hspinning'.requests (by rw [hposter]; exact hinit)
        hfresh ?_ hquiet, ?_, fun hf => absurd hspinning' hf.1, fun hc => (by cases hc)⟩
      · rw [hdown, List.append_nil]
      · simp only [Flowing, hspinning, hspinning', not_true_eq_false, false_and]
    -- the request is answered, and the answer is on its way
    · have hreply : q.reply res s.server.poster =
          ({ s.server.poster with header := a.bytes, postState := .kHttpContextPostHttp },
            a.bytes) := by
        rw [HeadOnly.reply, hans.asks, if_pos rfl, hans.post hinit, Option.getD_some]
      rw [hreply] at hc'
      rw [hc'] at hs
      cases hs
      refine ⟨.answering hreq' hnil' hin (.inr rfl) ?_ hquiet, ?_, fun _ _ => ?_,
        fun hc => (by cases hc)⟩
      · show Receiving a s.client.context (s.down ++ a.bytes)
        rw [hdown, List.nil_append]
        exact hfresh.receiving
      · have hnot' := not_spinning_of_nil hnil'
        simp only [Flowing, Whole, hclient, hnot, hnot', not_false_iff, and_true]
      · exact Nat.add_lt_add_right (toGo_taken hreq hreq') _

theorem stepped_writeComplete {p : Peer} (h : Going q a s)
    (hs : step res s (.writeComplete p) = some s') : Stepped q a s (.writeComplete p) s' := by
  cases p with
  | client =>
    cases hs
    have hquiet : Quiet s.client.poster := by cases h <;> assumption
    obtain ⟨hcontext, hsent, hinit⟩ := hquiet.writeComplete
    rw [hsent, List.append_nil]
    refine ⟨?_, ?_, fun _ hc => (by cases hc), fun _ => ?_⟩
    · cases h with
      | asking hserver hasked hinit' hfresh hdown _ =>
        exact .asking hserver hasked hinit' (hcontext ▸ hfresh) hdown (.inl hinit)
      | answering hasked hnil hup hserver hclient _ =>
        exact .answering hasked hnil hup hserver (hcontext ▸ hclient) (.inl hinit)
    · simp only [Flowing, Whole, hcontext, and_true]
    · simp only [measure, hcontext]
  | server =>
    cases hs
    have hquiet : Quiet s.server.poster := by
      cases h with
      | asking _ _ hinit _ _ _ => exact .inl hinit
      | answering _ _ _ hserver _ _ => exact hserver
    obtain ⟨hcontext, hsent, hinit⟩ := hquiet.writeComplete
    rw [hsent, List.append_nil]
    refine ⟨?_, ?_, fun _ hc => (by cases hc), fun _ => ?_⟩
    · cases h with
      | asking hserver hasked _ hfresh hdown hclient =>
        refine .asking (hcontext ▸ hserver) ?_ hinit hfresh hdown hclient
        rwa [asked, hcontext]
      | answering hasked hnil hup _ hclient hquiet' =>
        refine .answering ?_ (by rw [hcontext]; exact hnil) hup (.inl hinit) hclient hquiet'
        rwa [asked, hcontext]
    · simp only [Flowing, Whole, hcontext, and_true]
    · simp only [measure, hcontext]

theorem stepped (hans : Answers res q a) (h : Going q a s) (hs : step res s ev = some s') :
    Stepped q a s ev s' := by
  cases ev with
  | read p n =>
    cases p with
    | client => exact stepped_read_client h hs
    | server => exact stepped_read_server h hs
  | turn p =>
    cases p with
    | client => exact stepped_turn_client hans h hs
    | server => exact stepped_turn_server hans h hs
  | writeComplete p => exact stepped_writeComplete h hs

/-! ## Runs -/

theorem Going.start (q a : HeadOnly) {r : HttpRequest} (hr : r.makeHeaders = q.bytes)
    (clientSent serverSent : Bool) : Going q a (start r clientSent serverSent) := by
  refine .asking ?_ rfl rfl (.new clientSent) rfl (.inr rfl)
  show Receiving q _ r.makeHeaders
  rw [hr]
  exact (Untouched.new serverSent).receiving

theorem Flowing.start (r : HttpRequest) (clientSent serverSent : Bool) :
    Flowing (start r clientSent serverSent) :=
  ⟨not_spinning_of_nil (Untouched.new serverSent).empty,
    not_spinning_of_nil (Untouched.new clientSent).empty⟩

theorem going_of_run (hans : Answers res q a) (h : Going q a s)
    (hrun : run (step res) s es = some t) : Going q a t :=
  run_inv (Going q a) (fun _ _ _ hs he => (stepped hans hs he).going) h hrun

/-- **The end of a run shows whether all reads have been whole.** -/
theorem flowing_iff (hans : Answers res q a) (h : Going q a s) (hf : Flowing s)
    (hrun : run (step res) s es = some t) : Meets (step res) Whole s es ↔ Flowing t := by
  have hlost := meets_iff_of_lost (C := Whole) (E := fun _ _ => True) (Going q a) Flowing
    (fun _ _ _ hs _ he => (stepped hans hs he).going)
    (fun _ _ _ hs _ he => (stepped hans hs he).flowing) h (meets_of_forall fun _ _ => trivial) hrun
  rw [← hlost]
  exact (and_iff_right hf).symm

/-- Where neither loop spins, a whole read or a turn leads on to the answer. -/
theorem Going.enabled (h : Going q a s) (hf : Flowing s)
    (hno : s.answers = []) :
    ∃ ev, counted ev = true ∧ Whole s ev ∧ (step res s ev).isSome := by
  -- what is left of a message is read in one piece, and then one turn takes it
  have hread : ∀ {m : HeadOnly} {e : HttpEnd} {incoming : Bytes},
      e.context.buf.bytes ++ incoming = m.bytes → e.context.buf.bytes.length ≤ 1 →
      e.context.closed = false → ∃ r, e.read incoming incoming.length = some r := by
    intro m e incoming hsplit hle hclosed
    refine Option.isSome_iff_exists.1 (exists_read hle hclosed fun hnil => ?_)
    have hlt := m.four_lt
    rw [← hsplit, hnil, List.append_nil] at hlt
    omega
  have hguard : ∀ {m : HeadOnly} {c : HttpContext}, c.buf.bytes = m.bytes →
      HttpContext.loop.guard c = true := by
    intro m c hbuf
    have hlt := m.four_lt
    rw [loop_guard, hbuf]
    omega
  cases h with
  | asking hserver hasked hinit hfresh hdown hquiet =>
    cases hserver with
    | waiting _ _ hclosed hsplit hle =>
      obtain ⟨r, hr⟩ := hread hsplit hle hclosed
      exact ⟨.read .server s.up.length, rfl, .inr rfl, by simp [step, hr]⟩
    | arrived hparser hreq _ hbuf _ =>
      obtain ⟨c', hc', -⟩ := endTurn_arrived res hparser hreq hbuf
      exact ⟨.turn .server, rfl, trivial, by simp [step, hguard hbuf, hc']⟩
    | taken hreq _ _ =>
      rw [asked, hreq] at hasked
      cases hasked
    | spinning hs => exact absurd hs hf.1
  | answering hasked hnil hup hserver hclient hquiet =>
    cases hclient with
    | waiting _ _ hclosed hsplit hle =>
      obtain ⟨r, hr⟩ := hread hsplit hle hclosed
      exact ⟨.read .client s.down.length, rfl, .inr rfl, by simp [step, hr]⟩
    | arrived hparser hreq _ hbuf _ =>
      obtain ⟨c', hc', -⟩ := endTurn_arrived res hparser hreq hbuf
      exact ⟨.turn .client, rfl, trivial, by simp [step, hguard hbuf, hc']⟩
    | taken hreq _ _ =>
      rw [answers, hreq] at hno
      cases hno
    | spinning hs => exact absurd hs hf.2

/-- At most one call at each end, the client's behind the server's. -/
theorem Going.calls (h : Going q a s) :
    s.asked = [] ∧ s.answers = [] ∨
      s.asked = [(some q.request, none)] ∧
        (s.answers = [] ∨ s.answers = [(some a.request, none)]) := by
  cases h with
  | asking _ hasked _ hfresh _ _ => exact .inl ⟨hasked, hfresh.requests⟩
  | answering hasked _ _ _ hclient _ =>
    refine .inr ⟨hasked, ?_⟩
    cases hclient with
    | waiting _ hreq _ _ _ => exact .inl hreq
    | arrived _ hreq _ _ _ => exact .inl hreq
    | taken hreq _ _ => exact .inr hreq
    | spinning hs => exact .inl hs.requests

/-- The answer has arrived only where neither loop spins. -/
theorem Going.flowing_of_answers (h : Going q a s) (hne : s.answers ≠ []) : Flowing s := by
  cases h with
  | asking _ _ _ hfresh _ _ => exact absurd hfresh.requests hne
  | answering _ hnil _ _ hclient _ =>
    exact ⟨not_spinning_of_nil hnil, fun hs => hne hs.requests⟩

/-- A turn of a loop that runs does not fault. -/
theorem Going.turn_isSome (h : Going q a s) (p : Peer)
    (hguard : HttpContext.loop.guard (s.peer p).context = true) :
    (step res s (.turn p)).isSome := by
  cases p with
  | client =>
    have hguard' : HttpContext.loop.guard s.client.context = true := hguard
    cases h with
    | asking _ _ _ hfresh _ _ =>
      rw [loop_guard, hfresh.empty] at hguard'
      cases hguard'
    | answering _ _ _ _ hclient _ =>
      obtain ⟨r, hr⟩ := hclient.turn_isOk res hguard'
      simp only [step, if_pos hguard', hr, Option.isSome_some]
  | server =>
    have hguard' : HttpContext.loop.guard s.server.context = true := hguard
    cases h with
    | answering _ hnil _ _ _ _ =>
      rw [loop_guard, hnil] at hguard'
      cases hguard'
    | asking hserver _ _ _ _ _ =>
      obtain ⟨r, hr⟩ := hserver.turn_isOk res hguard'
      simp only [step, if_pos hguard', hr, Option.isSome_some]

/-- A loop that spins does so behind every step. -/
theorem spinning_step {p : Peer} (h : Spinning (s.peer p).context) (hs : step res s ev = some s') :
    Spinning (s'.peer p).context := by
  cases ev with
  | read p' n =>
    -- nothing is read where the loop spins
    cases p' <;> simp only [step, Option.bind_eq_bind, Option.bind_eq_some_iff] at hs <;>
      obtain ⟨r, hread, hs⟩ := hs <;> cases hs <;> cases p
    · exact (Option.some_ne_none _ (hread.symm.trans (Spinning.read_none (e := s.client) h))).elim
    · exact h
    · exact h
    · exact (Option.some_ne_none _ (hread.symm.trans (Spinning.read_none (e := s.server) h))).elim
  | turn p' =>
    cases p' <;> simp only [step] at hs <;> split_ifs at hs with hguard <;> split at hs <;>
      cases hs <;> rename_i e sent hturn <;> cases p
    · exact Spinning.of_endTurn (e := s.client) res h hturn
    · exact h
    · exact h
    · exact Spinning.of_endTurn (e := s.server) res h hturn
  | writeComplete p' =>
    cases p' <;> cases hs <;> cases p <;> first | exact h | exact h.writeComplete

/-- **A loop that spins is never left.** -/
theorem Spinning.endless {p : Peer} (h : Spinning (s.peer p).context) : Endless res s p := by
  intro es t hrun
  have ht : Spinning (t.peer p).context :=
    run_inv (fun s : Exchange => Spinning (s.peer p).context) (fun _ _ _ => spinning_step) h hrun
  have hguard := loop_guard.2 ht.guard
  obtain ⟨e', he', -⟩ := Spinning.endTurn res ht
  refine ⟨hguard, ?_⟩
  cases p with
  | client =>
    have hguard' : HttpContext.loop.guard t.client.context = true := hguard
    have hturn : t.client.turn res = .ok (e', []) := he'
    simp only [step, if_pos hguard', hturn, Option.isSome_some]
  | server =>
    have hguard' : HttpContext.loop.guard t.server.context = true := hguard
    have hturn : t.server.turn res = .ok (e', []) := he'
    simp only [step, if_pos hguard', hturn, Option.isSome_some]

/-- **The answer can still arrive exactly if all reads have been whole**, and then there are
six reads and turns at most; else a loop is never left. -/
theorem arrives_iff {r : HttpRequest} (hans : Answers res q a) (hr : r.makeHeaders = q.bytes)
    {clientSent serverSent : Bool}
    (hrun : run (step res) (start r clientSent serverSent) es = some t) :
    (Meets (step res) Whole (start r clientSent serverSent) es ↔
      ∃ fs u, run (step res) t fs = some u ∧ u.answers ≠ []) ∧
    (Meets (step res) Whole (start r clientSent serverSent) es → es.countP counted ≤ 6 ∧
      (t.answers = [] → ∃ ev, counted ev = true ∧ Whole t ev ∧ (step res t ev).isSome)) ∧
    (¬ Meets (step res) Whole (start r clientSent serverSent) es → ∃ p, Endless res t p) := by
  have hstart := Going.start q a hr clientSent serverSent
  have hflow := Flowing.start r clientSent serverSent
  have ht := going_of_run hans hstart hrun
  have hiff := flowing_iff hans hstart hflow hrun
  -- what holds along the steps that meet the condition
  have hinv : ∀ s ev s', Going q a s ∧ Flowing s → Whole s ev → step res s ev = some s' →
      Going q a s' ∧ Flowing s' := by
    rintro s ev s' ⟨hs, hf⟩ hw hs'
    have hst := stepped hans hs hs'
    exact ⟨hst.going, hst.flowing.2 ⟨hf, hw⟩⟩
  have hdec : ∀ s ev s', Going q a s ∧ Flowing s → Whole s ev → step res s ev = some s' →
      counted ev = true → measure s' < measure s := fun s ev s' hs hw hs' =>
    (stepped hans hs.1 hs').fewer (hinv s ev s' hs hw hs').2
  refine ⟨⟨fun hm => ?_, ?_⟩, fun hm => ⟨?_, fun hno => ?_⟩, fun hm => ?_⟩
  · obtain ⟨fs, u, -, hu, hne⟩ := exists_run_to_of_meets (fun s => Going q a s ∧ Flowing s)
      (fun s => s.answers ≠ []) measure counted hinv hdec
      (fun s hs hno => hs.1.enabled hs.2 (not_not.1 hno)) ⟨ht, hiff.1 hm⟩
    exact ⟨fs, u, hu, hne⟩
  · rintro ⟨fs, u, hu, hne⟩
    have hrun' : run (step res) (start r clientSent serverSent) (es ++ fs) = some u :=
      run_append.2 ⟨t, hrun, hu⟩
    have hfu := (going_of_run hans ht hu).flowing_of_answers hne
    exact ((flowing_iff hans hstart hflow hrun').2 hfu).append_left
  · have hbound := countP_le_of_meets (fun s => Going q a s ∧ Flowing s) measure counted
      (fun _ => false) 0 hinv hdec
      (fun s ev s' hs _ hs' hc => by simpa using ((stepped hans hs.1 hs').same hc).le)
      ⟨hstart, hflow⟩ hm hrun
    have hsix : measure (start r clientSent serverSent) ≤ 6 := by
      have htogo : ∀ c : HttpContext, toGo c ≤ 3 := by
        intro c
        rw [toGo]
        split_ifs <;> omega
      exact Nat.add_le_add (htogo _) (htogo _)
    omega
  · exact ht.enabled (hiff.1 hm) hno
  · rw [hiff, Flowing, not_and_or, not_not, not_not] at hm
    rcases hm with hs | hs
    · exact ⟨.server, Spinning.endless (p := .server) hs⟩
    · exact ⟨.client, Spinning.endless (p := .client) hs⟩

end Exchange

end HttpNest
