import HttpNest.Proof.Delivery

/-!
# Requests are sent one after the other

`Serving c due rest` says what the part `rest` of the log behind the last `OnSent` can be, by
the state of the context. It is empty, or one accepted request with the pieces sent so far, the
last of which is due to be completed. Every step keeps this (`Orderly.step`), wherever a
completion comes between the posts.
-/

namespace HttpNest

open EventRun

namespace Delivery

variable {s t : Delivery} {f : PostFn} {log : List Entry} {c : HttpPoster} {due : Bool}
  {rest : List Entry}

/-- The request that is being sent, and how far. -/
inductive Serving (c : HttpPoster) : Bool → List Entry → Prop
  | idle : c.postState = .kHttpContextPostInit → Serving c false []
  | whole (bs : Bytes) : c.postState = .kHttpContextPostHttp →
    Serving c true [.accepted (.postHttp bs), .send bs]
  | header (bs : Bytes) : c.postState = .kHttpContextPostHttpHeader →
    Serving c true [.accepted (.postRequest bs c.outPakcet), .send bs]
  | body (bs : Bytes) (pk : Packet) : c.postState = .kHttpContextPostHttpBody →
    Serving c true [.accepted (.postRequest bs pk), .send bs, .send pk.data]

/-- All requests but the one being sent are complete. -/
structure Orderly (s : Delivery) : Prop where
  balanced : Balanced s
  settled : Settled s.log
  blocks : ∃ (done : List PostFn) (rest : List Entry), visible s.log = done.flatMap block ++ rest ∧
    Serving s.poster s.due rest

theorem orderly_start (headerSent : Bool) : Orderly (start headerSent) := by
  refine ⟨rfl, ?_, [], [], rfl, .idle rfl⟩
  intro pre post hlog
  cases pre <;> cases hlog

theorem Orderly.write (h : Orderly s) {n : ℕ} (hn : n ≤ s.unwritten.length) :
    Orderly { s with unwritten := s.unwritten.drop n, log := s.log ++ [.written n] } := by
  obtain ⟨done, rest, hlog, hserving⟩ := h.blocks
  refine ⟨h.balanced.write hn, settled_append_of_ne h.settled (by simp), done, rest, ?_, hserving⟩
  rw [visible_append, hlog]
  simp

theorem Orderly.refused (h : Orderly s) (f : PostFn) :
    Orderly { s with log := s.log ++ [.refused f] } := by
  obtain ⟨done, rest, hlog, hserving⟩ := h.blocks
  refine ⟨?_, settled_append_of_ne h.settled (by simp), done, rest, ?_, hserving⟩
  · have hb := h.balanced
    unfold Balanced at *
    simpa using hb
  · rw [visible_append, hlog]
    simp

/-- Requests are refused while one is being sent. -/
theorem run_eq_none_iff (hf : f.IsRequest) :
    f.run c = none ↔ c.postState ≠ .kHttpContextPostInit := by
  cases f with
  | postHttp bs => simp [PostFn.run, HttpPoster.postHttp]
  | postRequest bs pk => simp [PostFn.run, HttpPoster.postRequest]
  | postChunkHeader bs | postChunk pk | postEofChunk => exact hf.elim

/-- An accepted request is being sent. -/
theorem serving_run (hf : f.IsRequest) {r : HttpPoster × Bytes} (hr : f.run c = some r) :
    Serving r.1 true [.accepted f, .send r.2] := by
  have hinit : c.postState = .kHttpContextPostInit := by
    by_contra hne
    rw [(run_eq_none_iff hf).2 hne] at hr
    cases hr
  cases f with
  | postHttp bs =>
    have he : r = ({ c with header := bs, postState := .kHttpContextPostHttp }, bs) := by
      simpa [PostFn.run, HttpPoster.postHttp, hinit] using hr.symm
    rw [he]
    exact .whole bs rfl
  | postRequest bs pk =>
    have he : r = ({ c with
        header := bs, outPakcet := pk, postState := .kHttpContextPostHttpHeader }, bs) := by
      simpa [PostFn.run, HttpPoster.postRequest, hinit] using hr.symm
    rw [he]
    exact .header bs rfl
  | postChunkHeader bs | postChunk pk | postEofChunk => exact hf.elim

theorem Serving.of_init (h : Serving c due rest) (hs : c.postState = .kHttpContextPostInit) :
    due = false ∧ rest = [] := by
  cases h with
  | idle => exact ⟨rfl, rfl⟩
  | whole _ h | header _ h | body _ _ h =>
    rw [hs] at h
    cases h

theorem Orderly.post (h : Orderly s) (hf : f.IsRequest) : Orderly (s.post f) := by
  cases hr : f.run s.poster with
  | none =>
    rw [post_refused hr]
    exact h.refused f
  | some r =>
    have hinit : s.poster.postState = .kHttpContextPostInit := by
      by_contra hne
      rw [(run_eq_none_iff hf).2 hne] at hr
      cases hr
    obtain ⟨done, rest, hlog, hserving⟩ := h.blocks
    obtain ⟨-, rfl⟩ := hserving.of_init hinit
    rw [post_accepted hr]
    refine ⟨Balanced.send ?_ _ _, ?_, done, [.accepted f, .send r.2], ?_, serving_run hf hr⟩
    · have hb := h.balanced
      unfold Balanced at *
      simpa using hb
    · exact settled_append_of_ne (settled_append_of_ne h.settled (by simp)) (by simp)
    · rw [List.append_nil] at hlog
      simp only [Delivery.send, visible_append, visible_singleton, hlog, List.append_assoc]
      rfl

/-- A completion ends the request or sends its packet. -/
theorem Orderly.writeComplete (h : Orderly s) (hu : s.unwritten = []) :
    Orderly s.writeComplete := by
  have hb := h.balanced
  obtain ⟨done, rest, hlog, hserving⟩ := h.blocks
  -- the request is complete: its block joins the others
  have hend : ∀ f, rest ++ [.onSent] = block f →
      Orderly { s with
        poster := { s.poster with postState := .kHttpContextPostInit }
        due := false, log := s.log ++ [.onSent] } := by
    intro f hblock
    refine ⟨?_, settled_append h.settled fun _ => ?_, done ++ [f], [], ?_, .idle rfl⟩
    · unfold Balanced at *
      simpa using hb
    · unfold Balanced at hb
      rw [hu] at hb
      simpa using hb
    · simp only [visible_append, hlog, List.flatMap_append, List.flatMap_singleton,
        List.append_assoc, List.append_nil, ← hblock]
      rfl
  rw [Delivery.writeComplete]
  generalize hd : s.due = due at hserving
  cases hserving with
  | idle hs =>
    rw [HttpPoster.writeComplete, hs]
    exact ⟨hb, h.settled, done, [], hlog, .idle hs⟩
  | whole bs hs =>
    rw [HttpPoster.writeComplete, hs]
    exact hend (.postHttp bs) rfl
  | header bs hs =>
    rw [HttpPoster.writeComplete, hs]
    -- the packet behind the header is handed out, and the completion is still due
    refine ⟨hb.send _ _, settled_append_of_ne h.settled (by simp), done, _, ?_,
      .body bs s.poster.outPakcet rfl⟩
    simp [Delivery.send, hlog]
  | body bs pk hs =>
    rw [HttpPoster.writeComplete, hs]
    exact hend (.postRequest bs pk) rfl

/-- **Every step keeps the requests in order.** -/
theorem Orderly.step (h : Orderly s) {e : DeliveryEvent} (he : e.Posts PostFn.IsRequest)
    (ht : s.step e = some t) : Orderly t := by
  cases e with
  | post f =>
    cases ht
    exact h.post he
  | write n =>
    rw [Delivery.step, Option.ite_none_right_eq_some] at ht
    obtain ⟨hn, ht⟩ := ht
    cases ht
    exact h.write hn
  | writeComplete =>
    rw [Delivery.step, Option.ite_none_right_eq_some] at ht
    obtain ⟨hu, ht⟩ := ht
    cases ht
    exact h.writeComplete hu

theorem Orderly.run (h : Orderly s) {es : List DeliveryEvent}
    (hes : ∀ e ∈ es, e.Posts PostFn.IsRequest) (ht : EventRun.run Delivery.step s es = some t) :
    Orderly t :=
  run_inv_of_meets Orderly (fun _ _ _ h he ht => h.step he ht) h (meets_of_forall hes) ht

/-! ## The write is completed -/

/-- Everything is written, and then completed. -/
def flush (s : Delivery) : List DeliveryEvent := [.write s.unwritten.length, .writeComplete]

theorem Orderly.flush (h : Orderly s) :
    ∃ t, EventRun.run Delivery.step s s.flush = some t ∧ Orderly t ∧
      t.poster = s.poster.writeComplete.1 := by
  set u : Delivery := { s with
    unwritten := s.unwritten.drop s.unwritten.length
    log := s.log ++ [.written s.unwritten.length] } with hu
  have hempty : u.unwritten = [] := List.drop_length
  have hrun : EventRun.run Delivery.step s s.flush = some u.writeComplete := by
    simp [Delivery.flush, run_cons, Delivery.step, hu]
  refine ⟨_, hrun, (h.write le_rfl).writeComplete hempty, ?_⟩
  have hposter : ∀ v : Delivery, v.writeComplete.poster = v.poster.writeComplete.1 := by
    intro v
    unfold Delivery.writeComplete
    split <;> rename_i heq <;> rw [heq]
    rfl
  exact hposter u

/-- A context that has nothing to send has nothing to complete. -/
theorem Orderly.due_eq_false (h : Orderly s)
    (hs : s.poster.postState = .kHttpContextPostInit) : s.due = false := by
  obtain ⟨_, _, -, hserving⟩ := h.blocks
  exact (hserving.of_init hs).1

/-- Two completions are enough for the request that is being sent. -/
theorem Orderly.finishes (h : Orderly s) :
    ∃ es t, (∀ e ∈ es, e.Posts fun _ => False) ∧ EventRun.run Delivery.step s es = some t ∧
      t.due = false := by
  have hflush : ∀ (s : Delivery), ∀ e ∈ s.flush, e.Posts fun _ => False := by
    intro s e he
    rcases List.mem_pair.1 he with rfl | rfl <;> trivial
  -- a flush that leads to the initial state
  have hlast : ∀ s : Delivery, Orderly s →
      s.poster.writeComplete.1.postState = .kHttpContextPostInit →
        ∃ es t, (∀ e ∈ es, e.Posts fun _ => False) ∧ EventRun.run Delivery.step s es = some t ∧
          t.due = false := by
    intro s h hs
    obtain ⟨t, ht, hord, hposter⟩ := h.flush
    exact ⟨s.flush, t, hflush s, ht, hord.due_eq_false (by rw [hposter, hs])⟩
  obtain ⟨_, _, -, hserving⟩ := h.blocks
  generalize hd : s.due = due at hserving
  cases hserving with
  | idle hs => exact ⟨[], s, by simp, rfl, hd⟩
  | whole bs hs => exact hlast s h (by rw [HttpPoster.writeComplete, hs])
  | body bs pk hs => exact hlast s h (by rw [HttpPoster.writeComplete, hs])
  | header bs hs =>
    obtain ⟨u, hu, hord, hposter⟩ := h.flush
    have hbody : u.poster.postState = .kHttpContextPostHttpBody := by
      rw [hposter, HttpPoster.writeComplete, hs]
    obtain ⟨es, t, hes, ht, hdue⟩ := hlast u hord (by rw [HttpPoster.writeComplete, hbody])
    refine ⟨s.flush ++ es, t, fun e he => ?_, run_append.2 ⟨u, hu, ht⟩, hdue⟩
    exact (List.mem_append.1 he).elim (hflush s e) (hes e)

/-! ## What the caller can rely on -/

/-- The accepted requests are sent whole, in order and one `OnSent` each, but for the last one
while its completion is due; a request is refused in that time only. -/
structure Delivered (s : Delivery) : Prop where
  blocks : ∃ (done : List PostFn) (rest : List Entry), visible s.log = done.flatMap block ++ rest ∧
    (rest = [] ∨ s.due = true ∧ ∃ f sent, sent <+: f.pieces ∧
      rest = .accepted f :: sent.map .send)
  bytes : handed s.log <+: (accepted s.log).flatMap PostFn.pieces ∧
    (s.due = false → handed s.log = (accepted s.log).flatMap PostFn.pieces)
  settled : Settled s.log
  refuses : ∀ f, f.IsRequest → s.due = true →
    s.step (.post f) = some { s with log := s.log ++ [.refused f] }
  accepts : ∀ f, f.IsRequest → s.due = false →
    ∃ t, s.step (.post f) = some t ∧ accepted t.log = accepted s.log ++ [f]
  finishes : ∃ es t, (∀ e ∈ es, e.Posts fun _ => False) ∧ run Delivery.step s es = some t ∧
    t.due = false

/-- The log of the request that is being sent. -/
theorem Serving.cases (h : Serving c due rest) :
    due = false ∧ rest = [] ∧ c.postState = .kHttpContextPostInit ∨
      due = true ∧ c.postState ≠ .kHttpContextPostInit ∧ ∃ f sent, sent <+: f.pieces ∧
        rest = .accepted f :: sent.map .send := by
  cases h with
  | idle hs => exact .inl ⟨rfl, rfl, hs⟩
  | whole bs hs =>
    exact .inr ⟨rfl, by rw [hs]; decide, .postHttp bs, [bs], List.prefix_refl _, rfl⟩
  | header bs hs =>
    exact .inr ⟨rfl, by rw [hs]; decide, .postRequest bs c.outPakcet, [bs], ⟨[_], rfl⟩, rfl⟩
  | body bs pk hs =>
    exact .inr ⟨rfl, by rw [hs]; decide, .postRequest bs pk, [bs, pk.data], List.prefix_refl _, rfl⟩

theorem Orderly.delivered (h : Orderly s) : Delivered s := by
  obtain ⟨done, rest, hlog, hserving⟩ := h.blocks
  -- the requests done are whole, so the last one decides
  have hhanded : handed s.log = done.flatMap PostFn.pieces ++ handed rest := by
    rw [← handed_visible, hlog, handed_append, handed_blocks]
  have haccepted : accepted s.log = done ++ accepted rest := by
    rw [← accepted_visible, hlog, accepted_append, accepted_blocks]
  rcases hserving.cases with ⟨hdue, rfl, hs⟩ | ⟨hdue, hs, f, sent, hsent, rfl⟩
  · have hbytes : handed s.log = (accepted s.log).flatMap PostFn.pieces := by
      rw [hhanded, haccepted]
      simp [handed, accepted]
    refine ⟨⟨done, [], hlog, .inl rfl⟩, ⟨hbytes ▸ List.prefix_refl _, fun _ => hbytes⟩, h.settled,
      fun f _ hd => ?_, fun f hf _ => ?_, h.finishes⟩
    · rw [hdue] at hd
      cases hd
    · obtain ⟨r, hr⟩ := Option.ne_none_iff_exists'.1 fun hr => (run_eq_none_iff hf).1 hr hs
      refine ⟨_, rfl, ?_⟩
      rw [post_accepted hr]
      simp [Delivery.send]
  · refine ⟨⟨done, _, hlog, .inr ⟨hdue, f, sent, hsent, rfl⟩⟩, ⟨?_, fun hd => ?_⟩, h.settled,
      fun g hg _ => ?_, fun g hg hd => ?_, h.finishes⟩
    · rw [hhanded, haccepted, handed_accepted_cons, accepted_accepted_cons, handed_map_send,
        accepted_map_send, List.flatMap_append, List.flatMap_singleton]
      exact (List.prefix_append_right_inj _).2 hsent
    · rw [hdue] at hd
      cases hd
    · rw [Delivery.step, post_refused ((run_eq_none_iff hg).2 hs)]
    · rw [hdue] at hd
      cases hd

/-- **Requests are delivered one by one**, whatever the order of posts, writes and completions:
every accepted one whole and with one `OnSent` behind its last byte. -/
theorem requests_delivered {headerSent : Bool} {es : List DeliveryEvent}
    (hes : ∀ e ∈ es, e.Posts PostFn.IsRequest)
    (h : run Delivery.step (start headerSent) es = some s) : Delivered s :=
  ((orderly_start headerSent).run hes h).delivered

/-- A header and a packet, written in two parts and completed twice, and a request refused. -/
def helloEvents : List DeliveryEvent :=
  [.post (.postRequest (ascii "POST") ⟨5, ascii "hello"⟩), .write 1, .post (.postHttp (ascii "x")),
    .write 3, .writeComplete, .write 5, .writeComplete]

theorem requests_delivered_hello :
    (∀ e ∈ helloEvents, e.Posts PostFn.IsRequest) ∧
      ∃ s, run Delivery.step (start false) helloEvents = some s ∧ Delivered s := by
  have hes : ∀ e ∈ helloEvents, e.Posts PostFn.IsRequest := by
    intro e he
    fin_cases he <;> trivial
  refine ⟨hes, ?_⟩
  have hrun : (run Delivery.step (start false) helloEvents).isSome := by decide +kernel
  obtain ⟨s, hs⟩ := Option.isSome_iff_exists.1 hrun
  exact ⟨s, hs, requests_delivered hes hs⟩

end Delivery

end HttpNest
