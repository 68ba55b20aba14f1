import HttpNest.Lib.EventRun
import HttpNest.Spec.DnsService

/-!
# Lookups that fail

`GetHostInfo` takes -1 for the failure of a lookup, which is one of the codes that `getaddrinfo`
returns. With any other one it reads `res`. Where every failing lookup has this code the table
has the last answer for every host after every round (`rounds_sound_iff`).
-/

namespace HttpNest

open Assignments EventRun

namespace DnsService

variable {ntop : Ntop} {s t : DnsService} {e : DnsEvent} {host : Bytes} {l : Lookup}

/-- No unassigned `res` has been read, and after every round a host that has been added has the
addresses of its last lookup with an answer. -/
structure Sound (ntop : Ntop) (s : DnsService) : Prop where
  assigned : s.fault = false
  stored : s.position = none → ∀ host, s.hostsInfo.lookup host =
    if host ∈ s.added then some ((s.latest ntop host).getD []) else none

/-- A lookup that is made and fails does so with the code -1. -/
def FailsWithMinusOne (ntop : Ntop) (s : DnsService) : DnsEvent → Prop
  | .lookup l => s.step ntop (.lookup l) ≠ none → l.ret ≠ 0 → l.ret = -1
  | _ => True

/-- All along the rounds. -/
structure Tracked (ntop : Ntop) (s : DnsService) : Prop where
  assigned : s.fault = false
  stored : ∀ host, s.hostsInfo.lookup host =
    if host ∈ s.added then some ((s.latest ntop host).getD []) else none
  known : ∀ x ∈ s.lookups, x.1 ∈ s.added
  copied : ∀ todo i, s.position = some (todo, i) → ∀ host ∈ todo, host ∈ s.added

theorem Tracked.sound (h : Tracked ntop s) : Sound ntop s := ⟨h.assigned, fun _ => h.stored⟩

/-! ## One lookup -/

theorem getHostInfo_answered (ntop : Ntop) (h : l.ret = 0) : ∃ a as, l.res = some (a :: as) ∧
    getHostInfo ntop l = some ((a :: as).map (peerAddress ntop)) := by
  obtain ⟨a, as, hres⟩ := l.answered h
  refine ⟨a, as, hres, ?_⟩
  rw [getHostInfo, if_neg (by omega), hres]

theorem getHostInfo_failed (ntop : Ntop) (h : l.ret ≠ 0) :
    l.res = none ∧ getHostInfo ntop l = if l.ret = -1 then some [] else none := by
  have hres := l.failed h
  refine ⟨hres, ?_⟩
  rw [getHostInfo, hres]

/-- An answer is the latest one, for its host. -/
theorem latest_append (ht : t.lookups = s.lookups ++ [(host, l)]) (x : Bytes) :
    t.latest ntop x = (if x = host then l.res.map fun rp => rp.map (peerAddress ntop) else none).or
      (s.latest ntop x) := by
  rw [latest, ht, List.filterMap_append, lastValue_append]
  congr 1
  rcases hres : l.res with _ | rp
  · simp [hres]
  · rw [List.filterMap_cons_some (by rw [hres]; rfl), List.filterMap_nil, lastValue_cons]
    simp

theorem mem_added_of_latest (h : Tracked ntop s) {list : List InetAddress}
    (hl : s.latest ntop host = some list) : host ∈ s.added := by
  obtain ⟨x, hx, hmap⟩ := List.mem_filterMap.1 (mem_of_lastValue hl)
  obtain ⟨rp, -, hpair⟩ := Option.map_eq_some_iff.1 hmap
  have hhost : x.1 = host := congrArg Prod.fst hpair
  exact hhost ▸ h.known x hx

/-! ## Steps -/

theorem Tracked.addHost (h : Tracked ntop s) (host : Bytes) : Tracked ntop (s.addHost host) := by
  refine ⟨h.assigned, fun x => ?_, fun x hx => List.mem_cons_of_mem _ (h.known x hx),
    fun todo i hp x hx => List.mem_cons_of_mem _ (h.copied todo i hp x hx)⟩
  have hlatest : (s.addHost host).latest ntop x = s.latest ntop x := rfl
  rw [hlatest]
  have hold := h.stored x
  unfold DnsService.addHost
  simp only [List.mem_cons]
  by_cases hx : x = host
  · subst hx
    by_cases hin : x ∈ s.added
    · rw [if_pos hin] at hold
      rw [if_pos (by rw [hold]; rfl), if_pos (.inl rfl), hold]
    · -- a host that is new has not been looked up
      rw [if_neg hin] at hold
      have hnone : s.latest ntop x = none := by
        rcases hl : s.latest ntop x with _ | list
        · rfl
        · exact absurd (mem_added_of_latest h hl) hin
      rw [if_neg (by rw [hold]; decide), if_pos (.inl rfl), AList.lookup_insert, hnone]
      rfl
  · have hother : ((if (s.hostsInfo.lookup host).isSome then s.hostsInfo
        else s.hostsInfo.insert host []) : AList fun _ => List InetAddress).lookup x =
        s.hostsInfo.lookup x := by
      split_ifs
      · rfl
      · exact AList.lookup_insert_ne hx
    rw [hother, hold]
    simp [hx]

/-- **A lookup**, unless it reads an unassigned `res`: an answer is stored, and a failure changes
nothing. -/
theorem Tracked.lookupHost (h : Tracked ntop s) {todo : List Bytes} {i : ℤ}
    (hp : s.position = some (host :: todo, i)) (hl : l.ret ≠ 0 → l.ret = -1) :
    Tracked ntop (s.lookupHost ntop host todo i l) := by
  have hhost : host ∈ s.added := h.copied _ _ hp host (List.mem_cons_self ..)
  have hknown : ∀ x ∈ s.lookups ++ [(host, l)], x.1 ∈ s.added := by
    intro x hx
    rcases List.mem_append.1 hx with hx | hx
    · exact h.known x hx
    · rw [List.mem_singleton.1 hx]
      exact hhost
  by_cases hret : l.ret = 0
  · obtain ⟨a, as, hres, hinfo⟩ := getHostInfo_answered ntop hret
    unfold DnsService.lookupHost updateHost
    simp only [hinfo]
    rw [if_pos (by simp)]
    refine ⟨h.assigned, fun x => ?_, hknown, ?_⟩
    · rw [latest_append rfl, hres]
      dsimp only
      by_cases hx : x = host
      · rw [hx, if_pos rfl, if_pos hhost, AList.lookup_insert]
        rfl
      · rw [if_neg hx, AList.lookup_insert_ne hx, h.stored x]
        rfl
    · intro todo' i' hp' x hx
      cases hp'
      exact h.copied _ _ hp x (List.mem_cons_of_mem _ hx)
  · obtain ⟨hres, hinfo⟩ := getHostInfo_failed ntop hret
    rw [if_pos (hl hret)] at hinfo
    unfold DnsService.lookupHost
    simp only [hinfo]
    rw [if_neg (by simp)]
    refine ⟨h.assigned, fun x => ?_, hknown, ?_⟩
    · rw [latest_append rfl, hres, Option.map_none, ite_self, Option.none_or]
      exact h.stored x
    · intro todo' i' hp' x hx
      cases hp'
      exact h.copied _ _ hp x hx

/-- What the step of a lookup that is made is. -/
theorem of_step_lookup (h : s.step ntop (.lookup l) = some t) : s.fault = false ∧
    ∃ host todo i, s.position = some (host :: todo, i) ∧ t = s.lookupHost ntop host todo i l := by
  unfold step at h
  split_ifs at h with hf
  refine ⟨Bool.not_eq_true _ ▸ hf, ?_⟩
  rcases hp : s.position with _ | ⟨_ | ⟨host, todo⟩, i⟩ <;> rw [hp] at h
  · cases h
  · cases h
  · simp only [Option.ite_none_right_eq_some, Option.some.injEq] at h
    exact ⟨host, todo, i, rfl, h.2.symm⟩

/-- Steps that are no lookups. -/
theorem Tracked.step (h : Tracked ntop s) (he : FailsWithMinusOne ntop s e)
    (ht : s.step ntop e = some t) : Tracked ntop t := by
  cases e with
  | lookup l =>
    have hl : l.ret ≠ 0 → l.ret = -1 := he (by rw [ht]; exact Option.some_ne_none t)
    obtain ⟨-, host, todo, i, hp, rfl⟩ := of_step_lookup ht
    exact h.lookupHost hp hl
  | addHost host =>
    unfold DnsService.step at ht
    split_ifs at ht
    cases ht
    exact h.addHost host
  | setDnsServiceParam retry =>
    unfold DnsService.step at ht
    split_ifs at ht
    cases ht
    exact ⟨h.assigned, h.stored, h.known, h.copied⟩
  | stop =>
    unfold DnsService.step at ht
    split_ifs at ht
    cases ht
    exact ⟨h.assigned, h.stored, h.known, h.copied⟩
  | getHosts order =>
    unfold DnsService.step at ht
    split_ifs at ht
    rcases hp : s.position with _ | ⟨_ | ⟨host, todo⟩, i⟩ <;> rw [hp] at ht
    · simp only [Option.ite_none_right_eq_some, Option.some.injEq] at ht
      obtain ⟨⟨-, hperm⟩, rfl⟩ := ht
      refine ⟨h.assigned, h.stored, h.known, fun todo i hp' x hx => ?_⟩
      cases hp'
      -- the keys of the table have been added
      have hkey : x ∈ s.hostsInfo := AList.mem_keys.2 (hperm.subset hx)
      obtain ⟨list, hlist⟩ := Option.isSome_iff_exists.1 (AList.lookup_isSome.2 hkey)
      have hstored := h.stored x
      by_contra hno
      rw [hlist, if_neg hno] at hstored
      cases hstored
    · cases ht
    · cases ht
  | nextHost =>
    unfold DnsService.step at ht
    split_ifs at ht
    rcases hp : s.position with _ | ⟨_ | ⟨host, todo⟩, i⟩ <;> rw [hp] at ht
    · cases ht
    · cases ht
    · simp only [Option.ite_none_left_eq_some, Option.some.injEq] at ht
      obtain ⟨-, rfl⟩ := ht
      refine ⟨h.assigned, h.stored, h.known, fun todo' i' hp' x hx => ?_⟩
      cases hp'
      exact h.copied _ _ hp x (List.mem_cons_of_mem _ hx)
  | endRound =>
    unfold DnsService.step at ht
    split_ifs at ht
    rcases hp : s.position with _ | ⟨_ | ⟨host, todo⟩, i⟩ <;> rw [hp] at ht
    · cases ht
    · cases ht
      exact ⟨h.assigned, h.stored, h.known, fun _ _ hp' => by cases hp'⟩
    · cases ht

/-- A lookup that fails with another code reads `res`. -/
theorem fault_of_lookup (he : ¬ FailsWithMinusOne ntop s e) :
    ∃ t, s.step ntop e = some t ∧ ¬ Sound ntop t := by
  cases e with
  | lookup l =>
    have he : ¬ (s.step ntop (.lookup l) ≠ none → l.ret ≠ 0 → l.ret = -1) := he
    simp only [Classical.not_imp] at he
    obtain ⟨hstep, hret, hcode⟩ := he
    obtain ⟨t, ht⟩ := Option.ne_none_iff_exists'.1 hstep
    obtain ⟨-, host, todo, i, -, rfl⟩ := of_step_lookup ht
    refine ⟨_, ht, fun hsound => ?_⟩
    have hfault := hsound.assigned
    obtain ⟨-, hinfo⟩ := getHostInfo_failed ntop hret
    rw [if_neg hcode] at hinfo
    unfold DnsService.lookupHost at hfault
    simp only [hinfo] at hfault
    cases hfault
  | _ => exact absurd trivial he

theorem tracked_start : Tracked ntop start := by
  refine ⟨rfl, fun host => rfl, fun x hx => ?_, fun _ _ hp => ?_⟩
  · cases hx
  · cases hp

/-- **When the rounds are sound**: exactly if every lookup that fails does so with the code -1. -/
theorem rounds_sound_iff (ntop : Ntop) (es : List DnsEvent) :
    Passes (step ntop) (Sound ntop) start es ↔
      Meets (step ntop) (FailsWithMinusOne ntop) start es :=
  passes_iff_meets (Tracked ntop) (fun _ h => h.sound) (fun _ _ _ h he ht => h.step he ht)
    (fun _ _ _ he => fault_of_lookup he) tracked_start

/-- `EAI_NONAME` is -2. -/
theorem noname_reads_res : ¬ ∀ (ntop : Ntop) (es : List DnsEvent),
    Passes (step ntop) (Sound ntop) start es := by
  intro h
  have hsound := h ⟨fun _ => [], fun _ => []⟩ [.addHost [104], .getHosts [[104]],
    .lookup ⟨-2, none, fun h => absurd h (by decide), fun _ => rfl⟩] 3 _ rfl
  cases hsound.assigned

end DnsService

end HttpNest
