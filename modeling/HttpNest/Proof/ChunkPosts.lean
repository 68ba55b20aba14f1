import HttpNest.Proof.Delivery

/-!
# Chunks posted while a write is pending

`PostChunk` and `PostEofChunk` do not look at the state of the context. `Chunking` is what
holds as long as no call comes between a size line and its data, or replaces a header or a packet
that is not written (`Allowed`): all pieces have been handed over in order, but for the data of a
last packet whose size line is not completed. A call that is not allowed shows at once, so this is
the exact condition (`chunks_whole_iff`).
-/

namespace HttpNest

open EventRun

namespace Delivery

variable {s t : Delivery} {f : PostFn} {pk : Packet}

/-- All pieces of the accepted calls, in order. -/
def expected (s : Delivery) : List Bytes := (accepted s.log).flatMap PostFn.pieces

/-- The size line of the last packet has been sent, and its data has not. -/
def AtSizeLine (s : Delivery) (pk : Packet) : Prop :=
  ∃ fs, accepted s.log = fs ++ [.postChunk pk] ∧
    handed s.log = fs.flatMap PostFn.pieces ++ [HttpPoster.chunkLen pk]

/-- `header_` was not assigned while it was being written, and no packet was dropped. Packets are
sent whole behind their size lines and in the order of the calls; the last one may wait for its
size line. -/
def Whole (s : Delivery) : Prop :=
  s.overwritten = false ∧ s.dropped = false ∧
    (handed s.log = s.expected ∨ s.due = true ∧ ∃ pk, AtSizeLine s pk)

/-- The call does not replace a packet or a header that is still needed. -/
def Allowed (s : Delivery) : DeliveryEvent → Prop
  | .post (.postChunkHeader _) =>
    s.poster.postState = .kHttpContextPostInit → s.headerUnwritten = false
  | .post (.postChunk _) =>
    s.poster.headerSent = true ∧ s.poster.postState ≠ .kHttpContextPostChunkLen ∧
      s.headerUnwritten = false ∧ s.packetUnwritten = false
  | .post .postEofChunk => s.poster.postState ≠ .kHttpContextPostChunkLen
  | .post (.postHttp _) | .post (.postRequest _ _) | .write _ | .writeComplete => True

/-- The invariant of allowed calls. -/
structure Chunking (s : Delivery) : Prop where
  kept : s.overwritten = false
  held : s.dropped = false
  unset : s.poster.headerSent = false →
    s.poster.header = [] ∧ s.poster.postState ≠ .kHttpContextPostChunkLen
  state : s.poster.postState = .kHttpContextPostChunkLen ∧ s.due = true ∧
      AtSizeLine s s.poster.outPakcet ∨
    (s.poster.postState = .kHttpContextPostInit ∨ s.poster.postState = .kHttpContextPostChunkBody ∨
      s.poster.postState = .kHttpContextPostChunkEOF) ∧ handed s.log = s.expected

theorem chunking_start (headerSent : Bool) : Chunking (start headerSent) :=
  ⟨rfl, rfl, fun _ => ⟨rfl, by simp [start]⟩, .inr ⟨.inl rfl, rfl⟩⟩

theorem Chunking.whole (h : Chunking s) : Whole s := by
  rcases h.state with ⟨-, hdue, hline⟩ | ⟨-, hhanded⟩
  · exact ⟨h.kept, h.held, .inr ⟨hdue, _, hline⟩⟩
  · exact ⟨h.kept, h.held, .inl hhanded⟩

/-- Nothing is owed outside the state of the size line. -/
theorem Chunking.handed_eq (h : Chunking s)
    (hs : s.poster.postState ≠ .kHttpContextPostChunkLen) : handed s.log = s.expected := by
  rcases h.state with ⟨hs', -, -⟩ | ⟨-, hhanded⟩
  · exact absurd hs' hs
  · exact hhanded

/-! ## Steps that keep it -/

/-- An accepted call adds itself and one `Send` to the log. -/
theorem log_post {r : HttpPoster × Bytes} (hr : f.run s.poster = some r) :
    accepted (s.post f).log = accepted s.log ++ [f] ∧
      handed (s.post f).log = handed s.log ++ [r.2] ∧ (s.post f).poster = r.1 ∧
      (s.post f).due = true ∧
      (s.post f).overwritten = (s.overwritten || (f.assigns s.poster && s.headerUnwritten)) ∧
      (s.post f).dropped = (s.dropped || (f.replaces && s.packetUnwritten)) := by
  rw [post_accepted hr]
  refine ⟨?_, ?_, rfl, rfl, rfl, rfl⟩ <;> simp [Delivery.send]

theorem expected_post {r : HttpPoster × Bytes} (hr : f.run s.poster = some r) :
    (s.post f).expected = s.expected ++ f.pieces := by
  rw [expected, (log_post hr).1, List.flatMap_append, List.flatMap_singleton, expected]

theorem Chunking.write (h : Chunking s) (n : ℕ) :
    Chunking { s with unwritten := s.unwritten.drop n, log := s.log ++ [.written n] } := by
  have hlog : ∀ log : List Entry, accepted (log ++ [.written n]) = accepted log ∧
      handed (log ++ [.written n]) = handed log := by
    intro log
    simp
  refine ⟨h.kept, h.held, h.unset, ?_⟩
  rcases h.state with ⟨hs, hdue, fs, hacc, hhanded⟩ | ⟨hs, hhanded⟩
  · exact .inl ⟨hs, hdue, fs, by rwa [(hlog _).1], by rwa [(hlog _).2]⟩
  · refine .inr ⟨hs, ?_⟩
    rw [expected, (hlog _).1, (hlog _).2]
    exact hhanded

/-- A completed size line is followed by its data. -/
theorem Chunking.writeComplete (h : Chunking s) : Chunking s.writeComplete := by
  rw [Delivery.writeComplete, HttpPoster.writeComplete]
  rcases h.state with ⟨hs, -, fs, hacc, hhanded⟩ | ⟨hs | hs | hs, hhanded⟩
  · rw [hs]
    refine ⟨h.kept, h.held, fun hn => ⟨(h.unset hn).1, by simp [Delivery.send]⟩,
      .inr ⟨.inr (.inl rfl), ?_⟩⟩
    simp [Delivery.send, expected, hacc, hhanded, PostFn.pieces]
  · rw [hs]
    exact ⟨h.kept, h.held, h.unset, .inr ⟨.inl hs, hhanded⟩⟩
  · rw [hs]
    refine ⟨h.kept, h.held, fun hn => ⟨(h.unset hn).1, by simp⟩, .inr ⟨.inl rfl, ?_⟩⟩
    simp [expected, hhanded]
  · rw [hs]
    refine ⟨h.kept, h.held, fun hn => ⟨(h.unset hn).1, by simp⟩, .inr ⟨.inl rfl, ?_⟩⟩
    simp [expected, hhanded]

theorem run_chunkHeader {c : HttpPoster} (header : Bytes) :
    PostFn.run c (.postChunkHeader header) =
      if c.postState ≠ .kHttpContextPostInit then none
      else some ({ c with
        header := header, postState := .kHttpContextPostInit, headerSent := true }, header) := rfl

theorem run_chunk {c : HttpPoster} (h : c.headerSent = true) (pk : Packet) :
    PostFn.run c (.postChunk pk) = some ({ c with
      outPakcet := pk, postState := .kHttpContextPostChunkLen
      header := HttpPoster.chunkLen pk }, HttpPoster.chunkLen pk) := by
  rw [PostFn.run, HttpPoster.postChunk, if_pos h]

theorem run_eofChunk (c : HttpPoster) :
    PostFn.run c .postEofChunk =
      some ({ c with postState := .kHttpContextPostChunkEOF }, chunkEof) := rfl

theorem Chunking.refused (h : Chunking s) (f : PostFn) :
    Chunking { s with log := s.log ++ [.refused f] } := by
  refine ⟨h.kept, h.held, h.unset, ?_⟩
  rcases h.state with ⟨hs, hdue, fs, hacc, hhanded⟩ | ⟨hs, hhanded⟩
  · exact .inl ⟨hs, hdue, fs, by simp [hacc], by simp [hhanded]⟩
  · exact .inr ⟨hs, by simp [expected, hhanded]⟩

/-- A call whose only piece is sent at once. -/
theorem Chunking.post_whole (h : Chunking s) {r : HttpPoster × Bytes}
    (hr : f.run s.poster = some r) (hpieces : f.pieces = [r.2])
    (hs : s.poster.postState ≠ .kHttpContextPostChunkLen)
    (hstate : r.1.postState = .kHttpContextPostInit ∨ r.1.postState = .kHttpContextPostChunkEOF)
    (hunset : r.1.headerSent = false → r.1.header = [])
    (hkept : (f.assigns s.poster && s.headerUnwritten) = false) (hheld : f.replaces = false) :
    Chunking (s.post f) := by
  obtain ⟨hacc, hhanded, hposter, hdue, hover, hdrop⟩ := log_post hr
  refine ⟨by rw [hover, h.kept, hkept]; rfl, by rw [hdrop, h.held, hheld]; rfl, fun hn => ?_,
    .inr ⟨?_, ?_⟩⟩
  · rw [hposter] at hn ⊢
    refine ⟨hunset hn, ?_⟩
    rcases hstate with hs' | hs' <;> rw [hs'] <;> decide
  · rw [hposter]
    rcases hstate with hs' | hs'
    · exact .inl hs'
    · exact .inr (.inr hs')
  · rw [hhanded, expected_post hr, h.handed_eq hs, hpieces]

theorem Chunking.postChunkHeader (h : Chunking s) (header : Bytes)
    (hok : Allowed s (.post (.postChunkHeader header))) :
    Chunking (s.post (.postChunkHeader header)) := by
  by_cases hs : s.poster.postState = .kHttpContextPostInit
  · have hr : PostFn.run s.poster (.postChunkHeader header) = some _ :=
      (run_chunkHeader header).trans (if_neg (not_not.2 hs))
    refine h.post_whole hr rfl (by rw [hs]; decide) (.inl rfl) (fun hn => by cases hn) ?_ rfl
    rw [hok hs, Bool.and_false]
  · rw [post_refused ((run_chunkHeader header).trans (if_pos hs))]
    exact h.refused _

theorem Chunking.postEofChunk (h : Chunking s)
    (hs : s.poster.postState ≠ .kHttpContextPostChunkLen) : Chunking (s.post .postEofChunk) :=
  h.post_whole (run_eofChunk s.poster) rfl hs (.inr rfl) (fun hn => (h.unset hn).1) rfl rfl

theorem Chunking.postChunk (h : Chunking s) (hsent : s.poster.headerSent = true)
    (hs : s.poster.postState ≠ .kHttpContextPostChunkLen) (hw : s.headerUnwritten = false)
    (hp : s.packetUnwritten = false) : Chunking (s.post (.postChunk pk)) := by
  have hr := run_chunk hsent pk
  obtain ⟨hacc, hhanded, hposter, hdue, hover, hdrop⟩ := log_post hr
  refine ⟨by rw [hover, h.kept, hw]; simp, by rw [hdrop, h.held, hp]; simp, fun hn => ?_,
    .inl ⟨?_, hdue, ?_⟩⟩
  · rw [hposter, hsent] at hn
    cases hn
  · rw [hposter]
  · rw [hposter]
    exact ⟨accepted s.log, hacc, by rw [hhanded, h.handed_eq hs]; rfl⟩

/-- **Allowed calls keep packets whole.** -/
theorem Chunking.step (h : Chunking s) {e : DeliveryEvent} (he : e.Posts PostFn.IsChunked)
    (hok : Allowed s e) (ht : s.step e = some t) : Chunking t := by
  cases e with
  | post f =>
    cases ht
    cases f with
    | postHttp bs | postRequest bs pk => exact he.elim
    | postChunkHeader header => exact h.postChunkHeader header hok
    | postChunk pk => exact h.postChunk hok.1 hok.2.1 hok.2.2.1 hok.2.2.2
    | postEofChunk => exact h.postEofChunk hok
  | write n =>
    rw [Delivery.step, Option.ite_none_right_eq_some] at ht
    cases ht.2
    exact h.write n
  | writeComplete =>
    rw [Delivery.step, Option.ite_none_right_eq_some] at ht
    cases ht.2
    exact h.writeComplete

/-! ## Steps that break it -/

theorem not_whole_of_overwritten (h : s.overwritten = true) : ¬ Whole s := by
  rintro ⟨hkept, -⟩
  rw [h] at hkept
  cases hkept

theorem not_whole_of_dropped (h : s.dropped = true) : ¬ Whole s := by
  rintro ⟨-, hheld, -⟩
  rw [h] at hheld
  cases hheld

/-- The last call of a log. -/
theorem AtSizeLine.of_last {fs : List PostFn} {f : PostFn} (h : AtSizeLine s pk)
    (hacc : accepted s.log = fs ++ [f]) :
    f = .postChunk pk ∧
      handed s.log = fs.flatMap PostFn.pieces ++ [HttpPoster.chunkLen pk] := by
  obtain ⟨fs', hacc', hhanded⟩ := h
  obtain ⟨rfl, hlast⟩ := List.append_inj' (hacc.symm.trans hacc') rfl
  exact ⟨List.singleton_inj.1 hlast, hhanded⟩

/-- A `Send` too few. -/
theorem not_whole_of_length (fs : List PostFn) (hacc : accepted s.log = fs ++ [f])
    (hlt : (handed s.log).length < (fs.flatMap PostFn.pieces).length + 1) : ¬ Whole s := by
  rintro ⟨-, -, hhanded | ⟨-, pk, hline⟩⟩
  · have hlen := congrArg List.length hhanded
    have hpieces : 0 < f.pieces.length := by cases f <;> exact Nat.succ_pos _
    rw [expected, hacc, List.flatMap_append, List.flatMap_singleton, List.length_append] at hlen
    omega
  · have hlen := congrArg List.length (hline.of_last hacc).2
    rw [List.length_append, List.length_singleton] at hlen
    omega

/-- A call between a size line and its data cuts the packet off. -/
theorem Chunking.not_whole_of_sizeLine (h : Chunking s)
    (hs : s.poster.postState = .kHttpContextPostChunkLen) {r : HttpPoster × Bytes}
    (hr : f.run s.poster = some r) : ¬ Whole (s.post f) := by
  obtain ⟨hacc, hhanded, -⟩ := log_post hr
  rcases h.state with ⟨-, -, fs, hacc', hhanded'⟩ | ⟨hs' | hs' | hs', -⟩
  · refine not_whole_of_length _ hacc ?_
    rw [hhanded, hhanded', hacc']
    simp [PostFn.pieces]
  all_goals
    rw [hs] at hs'
    cases hs'

/-- Without a header posted before, what is sent is not the size line. -/
theorem Chunking.not_whole_of_unset (h : Chunking s) (hsent : s.poster.headerSent = false) :
    ¬ Whole (s.post (.postChunk pk)) := by
  obtain ⟨hheader, hs⟩ := h.unset hsent
  have hr : PostFn.run s.poster (.postChunk pk) = some ({ s.poster with
      outPakcet := pk, postState := .kHttpContextPostChunkHeader, headerSent := true },
        s.poster.header) := by
    rw [PostFn.run, HttpPoster.postChunk, if_neg (by rw [hsent]; decide)]
  obtain ⟨hacc, hhanded, -⟩ := log_post hr
  rw [h.handed_eq hs, hheader] at hhanded
  rintro ⟨-, -, hw | ⟨-, pk', hline⟩⟩
  · have hlen := congrArg List.length hw
    rw [hhanded, expected_post hr] at hlen
    simp [PostFn.pieces] at hlen
  · obtain ⟨-, hw⟩ := hline.of_last hacc
    have hnil := List.append_inj' (hhanded.symm.trans hw) rfl
    have hne : HttpPoster.chunkLen pk' ≠ [] := by simp [HttpPoster.chunkLen, CRLF]
    exact hne (List.singleton_inj.1 hnil.2).symm

/-- **A call that is not allowed shows at once.** -/
theorem Chunking.broken (h : Chunking s) {e : DeliveryEvent} (he : e.Posts PostFn.IsChunked)
    (hno : ¬ Allowed s e) : ∃ t, s.step e = some t ∧ ¬ Whole t := by
  cases e with
  | write n | writeComplete => exact absurd trivial hno
  | post f =>
    refine ⟨_, rfl, ?_⟩
    cases f with
    | postHttp bs | postRequest bs pk => exact he.elim
    | postChunkHeader header =>
      obtain ⟨hs, hw⟩ := Classical.not_imp.1 hno
      rw [Bool.not_eq_false] at hw
      have hr : PostFn.run s.poster (.postChunkHeader header) = some _ :=
        (run_chunkHeader header).trans (if_neg (not_not.2 hs))
      -- a header that is not written yet is replaced
      refine not_whole_of_overwritten ?_
      rw [(log_post hr).2.2.2.2.1, hw]
      simp [PostFn.assigns]
    | postEofChunk => exact h.not_whole_of_sizeLine (not_not.1 hno) (run_eofChunk s.poster)
    | postChunk pk =>
      by_cases hsent : s.poster.headerSent = true
      · have hr := run_chunk hsent pk
        by_cases hs : s.poster.postState = .kHttpContextPostChunkLen
        -- a size line without its data
        · exact h.not_whole_of_sizeLine hs hr
        · by_cases hw : s.headerUnwritten = true
          · refine not_whole_of_overwritten ?_
            rw [(log_post hr).2.2.2.2.1, hw]
            simp [PostFn.assigns, hsent]
          -- a packet that is not written yet is dropped
          · have hp : s.packetUnwritten = true := by
              by_contra hp
              exact hno ⟨hsent, hs, by simpa using hw, by simpa using hp⟩
            refine not_whole_of_dropped ?_
            rw [(log_post hr).2.2.2.2.2, hp]
            simp [PostFn.replaces]
      · exact h.not_whole_of_unset (by simpa using hsent)

/-- **Packets stay whole all along a run exactly if no chunk is posted before a header, between
a size line and its data, or while a header or a packet is unwritten**, and no other call does
so. -/
theorem chunks_whole_iff {headerSent : Bool} {es : List DeliveryEvent}
    (hes : ∀ e ∈ es, e.Posts PostFn.IsChunked) :
    Passes Delivery.step Whole (start headerSent) es ↔
      Meets Delivery.step Allowed (start headerSent) es :=
  passes_iff_meets_of_forall Chunking (fun _ h => h.whole)
    (fun _ _ _ h he hok ht => h.step he hok ht) (fun _ _ h he hno => h.broken he hno) hes
    (chunking_start headerSent)

/-- A header, written and completed, and a chunk. -/
def oneChunk : List DeliveryEvent :=
  [.post (.postChunkHeader (ascii "h")), .write 1, .writeComplete,
    .post (.postChunk ⟨5, ascii "hello"⟩)]

theorem posts_oneChunk : ∀ e ∈ oneChunk, e.Posts PostFn.IsChunked := by
  intro e he
  fin_cases he <;> trivial

theorem chunks_whole_one :
    (∀ e ∈ oneChunk, e.Posts PostFn.IsChunked) ∧
      Passes Delivery.step Whole (start false) oneChunk := by
  refine ⟨posts_oneChunk, (chunks_whole_iff posts_oneChunk).2 ?_⟩
  refine ⟨fun _ => rfl, fun s₁ h₁ => ⟨trivial, fun s₂ h₂ => ⟨trivial, fun s₃ h₃ => ?_⟩⟩⟩
  cases h₁
  cases h₂
  cases h₃
  exact ⟨⟨rfl, by decide, rfl, rfl⟩, fun _ _ => trivial⟩

/-- A second chunk before the completion of the first one's size line: the data of the first
one is never sent. -/
theorem chunks_cut_off : ¬ Passes Delivery.step Whole (start false)
    (oneChunk ++ [.write 3, .post (.postChunk ⟨5, ascii "world"⟩)]) := by
  intro h
  refine not_whole_of_length (f := .postChunk ⟨5, ascii "world"⟩)
    [.postChunkHeader (ascii "h"), .postChunk ⟨5, ascii "hello"⟩] ?_ ?_ (h 6 _ rfl)
  · rfl
  · decide +kernel

end Delivery

end HttpNest
