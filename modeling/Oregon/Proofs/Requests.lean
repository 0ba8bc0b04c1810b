import Oregon.Sanity.Requests

/-! Every response is matched with the request that is open for its key, and a late response
to a request that has expired is recognised as such, unless at least 128 other requests with
no earlier deadline have expired as well. -/

namespace Oregon.Peer

/-- The registry after a history, told apart by what the calls and replies say. -/
structure RequestsMatched (h : RequestHistory) (s : RequestRegistry) : Prop where
  apart : ∀ e ∈ s.grace, e.key ∉ s.outstanding
  distinct : (s.grace.map GraceEntry.key).Nodup
  bounded : s.grace.length ≤ 128
  balance : h.accepted = h.successes + h.timeouts + s.outstanding.size
  /-- The counters are these numbers, up to the greatest number they can hold. -/
  counters : s.performance.successCount = min h.successes U64_MAX ∧
    s.performance.timeoutCount = min h.timeouts U64_MAX
  matched : ∀ key now, (∀ x ∈ h, x.1.now ≤ now) →
    ((s.classifyKeyAt key now).2 = .matched key ↔ ∃ r, h.openRequest key = some r)
  late : ∀ key now, (∀ x ∈ h, x.1.now ≤ now) → ∀ r, h.lateRequest key = some r →
    now < r.madeAt + 50 * SECOND → (s.classifyKeyAt key now).2 = .unsolicited key →
    Crowded {o | o ∈ h.expiredRequests} r

variable {h : RequestHistory} {s : RequestRegistry}

theorem requests_matched (run : RequestRun h s) : RequestsMatched h s := by
  have ht := run.tracks
  refine ⟨ht.apart, ht.distinct, ht.bounded, ht.balance, ⟨ht.successes, ht.timeouts⟩, ?_, ?_⟩
  · intro key now hlater
    have hclassify := ht.classifyKeyAt key (RequestHistory.latest_le hlater)
    obtain ⟨hd, hopen, -⟩ | ⟨hd, hclosed, -⟩ | ⟨hd, hclosed, -⟩ := hclassify
    · exact iff_of_true hd hopen
    all_goals
      refine iff_of_false (by simp [hd]) ?_
      rintro ⟨r, hr⟩
      exact absurd (hr.symm.trans hclosed) (by simp)
  · intro key now hlater r hr hnow hunsolicited
    have hlatest := RequestHistory.latest_le hlater
    obtain ⟨hd, -⟩ | ⟨hd, -⟩ | ⟨-, -, hforgotten, -⟩ := ht.classifyKeyAt key hlatest
    · exact absurd (hd.symm.trans hunsolicited) (by simp)
    · exact absurd (hd.symm.trans hunsolicited) (by simp)
    -- Pruned at the time of the response, the entry of the request is still too young to go.
    · have hend : r.graceEnd = r.madeAt + 50 * SECOND := by
        rw [Request.graceEnd, Request.deadline, Nat.add_assoc]
        rfl
      obtain ⟨-, ⟨e, he, hkey⟩ | hpast | hcrowded⟩ := (ht.prune hlatest).late key r hr
      · exact absurd hkey (hforgotten e he)
      · exact absurd (hend ▸ hpast) (Nat.not_le_of_lt hnow)
      · exact hcrowded

/-- A request for headers that expired, with nothing heard of it yet. -/
theorem requests_matched_late :
    ∃ h s, RequestRun h s ∧ h.lateRequest .headers = some ⟨0, .headers, 0⟩ ∧
      (s.classifyKeyAt .headers (49 * SECOND)).2 = .graceDrop .headers ∧ RequestsMatched h s := by
  have hrun : RequestRun _ _ :=
    .step (.expireAt (20 * SECOND)) (.step (.expectAt .headers 0) .start (by simp)) (by decide)
  exact ⟨_, _, hrun, by decide +kernel, by decide +kernel, requests_matched hrun⟩

end Oregon.Peer
