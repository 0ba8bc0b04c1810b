import Oregon.Lib.Maps
import Oregon.Spec.Requests

/-! What the calls of a registry and their replies say about each request, and how the
registry keeps up with it: whatever is open there is outstanding here, and what has expired
is remembered until its time is over, it is answered, or later requests have crowded it out. -/

namespace Oregon.Peer

open Lib Protocol
open Std (ExtTreeMap)

/-- A request that was accepted, after some number of calls. -/
structure Request where
  number : ℕ
  key : RequestKey
  madeAt : Instant
  deriving DecidableEq, Repr

def Request.deadline (r : Request) : Instant := r.madeAt + RESPONSE_START_TIMEOUT

/-- When an expired request is forgotten at the latest. -/
def Request.graceEnd (r : Request) : Instant := r.deadline + EXPIRED_REQUEST_GRACE

/-- The calls made so far with their replies, the newest first. -/
abbrev RequestHistory := List (RequestCall × RequestReply)

namespace RequestHistory

/-- The request for a key that was made and neither matched nor expired since. -/
def openRequest (key : RequestKey) : RequestHistory → Option Request
  | [] => none
  | (.expectAt k now, .expected (.ok ())) :: past =>
    if k = key then some ⟨past.length, k, now⟩ else openRequest key past
  | (.classifyKeyAt k _, .classified (.matched _)) :: past =>
    if k = key then none else openRequest key past
  | (.expireAt _, .expired keys) :: past => if key ∈ keys then none else openRequest key past
  | _ :: past => openRequest key past

/-- The request for a key that has expired, with no response and no new request since. -/
def lateRequest (key : RequestKey) : RequestHistory → Option Request
  | [] => none
  | (.expectAt k _, .expected (.ok ())) :: past => if k = key then none else lateRequest key past
  | (.classifyKeyAt k _, _) :: past => if k = key then none else lateRequest key past
  | (.expireAt _, .expired keys) :: past =>
    if key ∈ keys then openRequest key past else lateRequest key past
  | _ :: past => lateRequest key past

def expiredRequests : RequestHistory → List Request
  | [] => []
  | (.expireAt _, .expired keys) :: past =>
    keys.filterMap (openRequest · past) ++ expiredRequests past
  | _ :: past => expiredRequests past

/-- How many expectations were accepted. -/
def accepted (h : RequestHistory) : ℕ := h.countP fun x => x.2 = .expected (.ok ())

/-- How many responses were matched. -/
def successes (h : RequestHistory) : ℕ :=
  h.countP fun x => match x.2 with
    | .classified (.matched _) => true
    | _ => false

/-- How many requests expired. -/
def timeouts (h : RequestHistory) : ℕ :=
  (h.map fun x => match x.2 with
    | .expired keys => keys.length
    | _ => 0).sum

/-- The time of the last call. -/
def latest (h : RequestHistory) : Instant := (h.head?.map fun x => x.1.now).getD 0

end RequestHistory

/-- Enough other requests with no earlier deadline have expired to displace this one. -/
def Crowded (expired : Set Request) (r : Request) : Prop :=
  ∃ others : List Request, others.Nodup ∧ 128 ≤ others.length ∧
    ∀ o ∈ others, o ∈ expired ∧ o ≠ r ∧ r.deadline ≤ o.deadline

/-- A registry after the calls of a history, made at times that do not decrease. -/
inductive RequestRun : RequestHistory → RequestRegistry → Prop
  | start : RequestRun [] .default
  | step {h : RequestHistory} {s : RequestRegistry} (call : RequestCall) (run : RequestRun h s)
      (later : ∀ x ∈ h, x.1.now ≤ call.now) : RequestRun ((call, (s.call call).2) :: h) (s.call call).1

theorem eraseP_eq_filter {grace : List GraceEntry} {key : RequestKey}
    (hdistinct : (grace.map GraceEntry.key).Nodup) :
    grace.eraseP (fun e => e.key = key) = grace.filter fun e => e.key ≠ key := by
  induction grace with
  | nil => rfl
  | cons e grace ih =>
    obtain ⟨he, hdistinct⟩ := List.nodup_cons.mp hdistinct
    by_cases hkey : e.key = key
    · have hothers : ∀ e' ∈ grace, e'.key ≠ key := fun e' he' heq =>
        he (List.mem_map.mpr ⟨e', he', heq.trans hkey.symm⟩)
      have hfilter : grace.filter (fun e => e.key ≠ key) = grace :=
        List.filter_eq_self.mpr fun e' he' => decide_eq_true (hothers e' he')
      grind
    · simp [hkey, ih hdistinct]

/-- What is known of the requests: which are open, which are late, and which have expired. -/
structure RequestView where
  opened : RequestKey → Option Request
  late : RequestKey → Option Request
  expired : Set Request
  now : Instant
  accepted : ℕ
  successes : ℕ
  timeouts : ℕ

def RequestHistory.view (h : RequestHistory) : RequestView where
  opened key := h.openRequest key
  late key := h.lateRequest key
  expired := {r | r ∈ h.expiredRequests}
  now := h.latest
  accepted := h.accepted
  successes := h.successes
  timeouts := h.timeouts

namespace RequestView

def tick (v : RequestView) (now : Instant) : RequestView := { v with now }

def accept (v : RequestView) (r : Request) : RequestView :=
  { v with
    opened := Function.update v.opened r.key (some r)
    late := Function.update v.late r.key none
    accepted := v.accepted + 1 }

def answer (v : RequestView) (key : RequestKey) : RequestView :=
  { v with
    opened := Function.update v.opened key none
    late := Function.update v.late key none
    successes := v.successes + 1 }

def forget (v : RequestView) (key : RequestKey) : RequestView :=
  { v with late := Function.update v.late key none }

def expire (v : RequestView) (key : RequestKey) : RequestView :=
  { v with
    opened := Function.update v.opened key none
    late := Function.update v.late key (v.opened key)
    expired := {r | v.opened key = some r} ∪ v.expired
    timeouts := v.timeouts + 1 }

theorem foldl_expire (v : RequestView) {keys : List RequestKey} (hnodup : keys.Nodup) :
    keys.foldl expire v = { v with
      opened := fun k => if k ∈ keys then none else v.opened k
      late := fun k => if k ∈ keys then v.opened k else v.late k
      expired := {r | ∃ k ∈ keys, v.opened k = some r} ∪ v.expired
      timeouts := v.timeouts + keys.length } := by
  induction keys generalizing v with
  | nil => simp
  | cons key keys ih =>
    obtain ⟨hkey, hnodup⟩ := List.nodup_cons.mp hnodup
    rw [List.foldl_cons, ih _ hnodup]
    simp only [expire, mk.injEq, List.length_cons, true_and]
    refine ⟨?_, ?_, ?_, by omega⟩
    · grind
    · grind
    · ext r
      have hothers : (∃ k ∈ keys, Function.update v.opened key none k = some r) ↔
          ∃ k ∈ keys, v.opened k = some r := by
        grind
      simp only [Set.mem_union, Set.mem_ofPred_eq, hothers, List.mem_cons, exists_eq_or_imp]
      exact or_left_comm.trans or_assoc.symm

end RequestView

namespace RequestHistory

variable {h : RequestHistory} {key : RequestKey} {now : Instant}

theorem view_nil : view [] = ⟨fun _ => none, fun _ => none, ∅, 0, 0, 0, 0⟩ := by
  simp [view, openRequest, lateRequest, expiredRequests, latest, accepted, successes, timeouts]

theorem view_refused (e : RequestError) :
    view ((.expectAt key now, .expected (.error e)) :: h) = h.view.tick now := by
  simp [view, RequestView.tick, openRequest, lateRequest, expiredRequests, latest, accepted,
    successes, timeouts, RequestCall.now]

theorem view_accepted :
    view ((.expectAt key now, .expected (.ok ())) :: h) =
      (h.view.tick now).accept ⟨h.length, key, now⟩ := by
  simp only [view, RequestView.tick, RequestView.accept, openRequest, lateRequest, expiredRequests]
  simp [latest, accepted, successes, timeouts, RequestCall.now, funext_iff, Function.update_apply,
    eq_comm]

theorem view_matched (k : RequestKey) :
    view ((.classifyKeyAt key now, .classified (.matched k)) :: h) =
      (h.view.tick now).answer key := by
  simp only [view, RequestView.tick, RequestView.answer, openRequest, lateRequest, expiredRequests]
  simp [latest, accepted, successes, timeouts, RequestCall.now, funext_iff, Function.update_apply,
    eq_comm]

theorem view_dropped (k : RequestKey) :
    view ((.classifyKeyAt key now, .classified (.graceDrop k)) :: h) =
      (h.view.tick now).forget key := by
  simp only [view, RequestView.tick, RequestView.forget, openRequest, lateRequest, expiredRequests]
  simp [latest, accepted, successes, timeouts, RequestCall.now, funext_iff, Function.update_apply,
    eq_comm]

theorem view_unsolicited (k : RequestKey) :
    view ((.classifyKeyAt key now, .classified (.unsolicited k)) :: h) =
      (h.view.tick now).forget key := by
  simp only [view, RequestView.tick, RequestView.forget, openRequest, lateRequest, expiredRequests]
  simp [latest, accepted, successes, timeouts, RequestCall.now, funext_iff, Function.update_apply,
    eq_comm]

theorem view_expired {keys : List RequestKey} (hnodup : keys.Nodup) :
    view ((.expireAt now, .expired keys) :: h) = keys.foldl .expire (h.view.tick now) := by
  rw [RequestView.foldl_expire _ hnodup]
  simp only [view, RequestView.tick, openRequest, lateRequest, expiredRequests]
  simp [latest, accepted, successes, timeouts, RequestCall.now, Set.ext_iff, add_comm]

end RequestHistory

/-- The registry keeps up with what is known of the requests. -/
structure Tracks (v : RequestView) (s : RequestRegistry) : Prop where
  outstanding : ∀ key, (s.outstanding[key]?).map OutstandingRequest.startedAt =
    (v.opened key).map Request.madeAt
  keyed : ∀ key r, v.opened key = some r ∨ v.late key = some r → r.key = key
  ordered : ∀ r ∈ v.expired, r.deadline ≤ v.now ∧
    ∀ key o, v.opened key = some o → r.deadline ≤ o.deadline
  apart : ∀ e ∈ s.grace, e.key ∉ s.outstanding
  distinct : (s.grace.map GraceEntry.key).Nodup
  bounded : s.grace.length ≤ MAX_RECENTLY_EXPIRED_REQUESTS_PER_PEER
  remembered : ∀ e ∈ s.grace, ∃ r, v.late e.key = some r ∧ e.expiresAt = r.graceEnd
  late : ∀ key r, v.late key = some r → r ∈ v.expired ∧
    ((∃ e ∈ s.grace, e.key = key) ∨ r.graceEnd ≤ v.now ∨ Crowded v.expired r)
  balance : v.accepted = v.successes + v.timeouts + s.outstanding.size
  successes : s.performance.successCount = min v.successes U64_MAX
  timeouts : s.performance.timeoutCount = min v.timeouts U64_MAX

theorem tracks_start : Tracks (RequestHistory.view []) .default := by
  rw [RequestHistory.view_nil]
  constructor <;> simp [RequestRegistry.default]

theorem Crowded.mono {expired expired' : Set Request} {r : Request} (h : Crowded expired r)
    (hsub : expired ⊆ expired') : Crowded expired' r := by
  obtain ⟨others, hnodup, hlength, hothers⟩ := h
  exact ⟨others, hnodup, hlength, fun o ho => ⟨hsub (hothers o ho).1, (hothers o ho).2⟩⟩

namespace Tracks

variable {v : RequestView} {s : RequestRegistry} {key : RequestKey} {now : Instant}

theorem mem_outstanding (ht : Tracks v s) : key ∈ s.outstanding ↔ ∃ r, v.opened key = some r := by
  have hkey := ht.outstanding key
  rw [mem_iff_lookup]
  cases ho : s.outstanding[key]? <;> cases hv : v.opened key <;> simp_all

theorem tick (ht : Tracks v s) (hnow : v.now ≤ now) : Tracks (v.tick now) s :=
  { ht with
    ordered := fun r hr => ⟨(ht.ordered r hr).1.trans hnow, (ht.ordered r hr).2⟩
    late := by
      intro key r hr
      obtain ⟨hexpired, h | h | h⟩ := ht.late key r hr
      · exact ⟨hexpired, .inl h⟩
      · exact ⟨hexpired, .inr (.inl (h.trans hnow))⟩
      · exact ⟨hexpired, .inr (.inr h)⟩ }

theorem prune (ht : Tracks v s) (hnow : v.now ≤ now) : Tracks (v.tick now) (s.pruneGrace now) := by
  have hsub : (s.pruneGrace now).grace.Sublist s.grace := List.filter_sublist
  have ht' := ht.tick hnow
  refine { ht' with
    apart := fun e he => ht'.apart e (hsub.mem he)
    distinct := ht'.distinct.sublist (hsub.map _)
    bounded := hsub.length_le.trans ht'.bounded
    remembered := fun e he => ht'.remembered e (hsub.mem he)
    late := ?_ }
  intro key r hr
  obtain ⟨hexpired, ⟨e, he, hkey⟩ | h⟩ := ht'.late key r hr
  · refine ⟨hexpired, ?_⟩
    obtain ⟨r', hr', hends⟩ := ht'.remembered e he
    obtain rfl : r' = r := Option.some.inj (hr'.symm.trans (hkey ▸ hr))
    by_cases hpast : now < e.expiresAt
    · exact .inl ⟨e, List.mem_filter.mpr ⟨he, decide_eq_true hpast⟩, hkey⟩
    · exact .inr (.inl (hends ▸ Nat.le_of_not_lt hpast))
  · exact ⟨hexpired, .inr h⟩

theorem forget (ht : Tracks v s) (key : RequestKey) : Tracks (v.forget key)
    { s with grace := s.grace.filter fun e => e.key ≠ key } := by
  have hmem : ∀ e, e ∈ s.grace.filter (fun e => e.key ≠ key) ↔ e ∈ s.grace ∧ e.key ≠ key :=
    fun e => by rw [List.mem_filter, decide_eq_true_iff]
  have hlate : ∀ k r, (v.forget key).late k = some r ↔ k ≠ key ∧ v.late k = some r := by
    intro k r
    by_cases hk : k = key <;> simp [RequestView.forget, hk]
  refine { ht with
    keyed := fun k r h => ht.keyed k r (h.imp_right fun h => ((hlate k r).mp h).2)
    apart := fun e he => ht.apart e ((hmem e).mp he).1
    distinct := ht.distinct.sublist (List.filter_sublist.map _)
    bounded := (List.length_filter_le ..).trans ht.bounded
    remembered := ?_
    late := ?_ }
  · intro e he
    obtain ⟨r, hr, hends⟩ := ht.remembered e ((hmem e).mp he).1
    exact ⟨r, (hlate e.key r).mpr ⟨((hmem e).mp he).2, hr⟩, hends⟩
  · intro k r hr
    obtain ⟨hk, hr⟩ := (hlate k r).mp hr
    obtain ⟨hexpired, ⟨e, he, hkey⟩ | h⟩ := ht.late k r hr
    · exact ⟨hexpired, .inl ⟨e, (hmem e).mpr ⟨he, hkey ▸ hk⟩, hkey⟩⟩
    · exact ⟨hexpired, .inr h⟩

theorem accept (ht : Tracks v s) {r : Request} (hkey : r.key ∉ s.outstanding)
    (hgrace : ∀ e ∈ s.grace, e.key ≠ r.key) (hnow : v.now ≤ r.madeAt) (generation next : ℕ) :
    Tracks (v.accept r) { s with
      outstanding := s.outstanding.insert r.key ⟨r.madeAt, generation⟩
      nextGeneration := next } := by
  have hopened : ∀ k o, (v.accept r).opened k = some o ↔
      (k = r.key ∧ o = r) ∨ (k ≠ r.key ∧ v.opened k = some o) := by
    intro k o
    by_cases hk : k = r.key <;> simp [RequestView.accept, hk, eq_comm]
  have hlate : ∀ k o, (v.accept r).late k = some o ↔ k ≠ r.key ∧ v.late k = some o := by
    intro k o
    by_cases hk : k = r.key <;> simp [RequestView.accept, hk]
  constructor
  case outstanding =>
    intro k
    simp only [RequestView.accept, lookup_insert, Function.update_apply]
    by_cases hk : k = r.key
    · simp [hk]
    · rw [if_neg (Ne.symm hk), if_neg hk]
      exact ht.outstanding k
  case keyed =>
    rintro k o (ho | ho)
    · obtain ⟨rfl, rfl⟩ | ⟨-, ho⟩ := (hopened k o).mp ho
      · rfl
      · exact ht.keyed k o (.inl ho)
    · exact ht.keyed k o (.inr ((hlate k o).mp ho).2)
  case ordered =>
    intro o ho
    obtain ⟨hnow', hopen⟩ := ht.ordered o ho
    refine ⟨hnow', fun k o' ho' => ?_⟩
    obtain ⟨rfl, rfl⟩ | ⟨-, ho'⟩ := (hopened k o').mp ho'
    · exact hnow'.trans (hnow.trans (Nat.le_add_right ..))
    · exact hopen k o' ho'
  case apart =>
    intro e he hmem
    rw [ExtTreeMap.mem_insert, Std.LawfulEqOrd.compare_eq_iff_eq] at hmem
    obtain h | h := hmem
    · exact hgrace e he h.symm
    · exact ht.apart e he h
  case distinct => exact ht.distinct
  case bounded => exact ht.bounded
  case remembered =>
    intro e he
    obtain ⟨o, ho, hends⟩ := ht.remembered e he
    exact ⟨o, (hlate e.key o).mpr ⟨hgrace e he, ho⟩, hends⟩
  case late => exact fun k o ho => ht.late k o ((hlate k o).mp ho).2
  case balance =>
    have hbalance := ht.balance
    simp only [RequestView.accept, size_insert_of_notMem _ hkey]
    omega
  case successes => exact ht.successes
  case timeouts => exact ht.timeouts

theorem answer (ht : Tracks v s) (hkey : key ∈ s.outstanding) (latency : ℕ) :
    Tracks (v.answer key)
      (({ s with outstanding := s.outstanding.erase key }).recordSuccess latency) := by
  have hopened : ∀ k o, (v.answer key).opened k = some o ↔ k ≠ key ∧ v.opened k = some o := by
    intro k o
    by_cases hk : k = key <;> simp [RequestView.answer, hk]
  have hlate : ∀ k o, (v.answer key).late k = some o ↔ k ≠ key ∧ v.late k = some o := by
    intro k o
    by_cases hk : k = key <;> simp [RequestView.answer, hk]
  have hgrace : ∀ e ∈ s.grace, e.key ≠ key := fun e he heq => ht.apart e he (heq ▸ hkey)
  constructor
  case outstanding =>
    intro k
    simp only [RequestRegistry.recordSuccess, RequestView.answer, lookup_erase,
      Function.update_apply]
    by_cases hk : k = key
    · simp [hk]
    · rw [if_neg (Ne.symm hk), if_neg hk]
      exact ht.outstanding k
  case keyed =>
    intro k o ho
    rw [hopened, hlate] at ho
    exact ht.keyed k o (ho.imp And.right And.right)
  case ordered =>
    intro o ho
    exact ⟨(ht.ordered o ho).1, fun k o' ho' => (ht.ordered o ho).2 k o' ((hopened k o').mp ho').2⟩
  case apart =>
    intro e he hmem
    exact ht.apart e he (ExtTreeMap.mem_of_mem_erase hmem)
  case distinct => exact ht.distinct
  case bounded => exact ht.bounded
  case remembered =>
    intro e he
    obtain ⟨o, ho, hends⟩ := ht.remembered e he
    exact ⟨o, (hlate e.key o).mpr ⟨hgrace e he, ho⟩, hends⟩
  case late => exact fun k o ho => ht.late k o ((hlate k o).mp ho).2
  case balance =>
    have hbalance := ht.balance
    have hsize := size_erase_of_mem hkey
    simp only [RequestView.answer, RequestRegistry.recordSuccess]
    omega
  case successes =>
    have hcount := ht.successes
    simp only [RequestView.answer, RequestRegistry.recordSuccess, saturatingAdd]
    omega
  case timeouts => exact ht.timeouts

/-- A request expires and leaves a grace list that may have lost entries that are crowded out. -/
theorem expire (ht : Tracks v s) {o : Request} {grace : List GraceEntry}
    (ho : v.opened key = some o) (hdeadline : o.deadline ≤ v.now)
    (hfirst : ∀ k o', v.opened k = some o' → o.deadline ≤ o'.deadline)
    (hgrace : ∀ e ∈ grace, e ∈ s.grace ∨ (e.key = key ∧ e.expiresAt = o.graceEnd))
    (hdistinct : (grace.map GraceEntry.key).Nodup)
    (hbounded : grace.length ≤ MAX_RECENTLY_EXPIRED_REQUESTS_PER_PEER)
    (hgone : ∀ e ∈ s.grace, e ∉ grace → ∀ r, v.late e.key = some r →
      Crowded (v.expire key).expired r)
    (hkept : (∃ e ∈ grace, e.key = key) ∨ o.graceEnd ≤ v.now) :
    Tracks (v.expire key) { s with
      outstanding := s.outstanding.erase key
      performance := { s.performance with
        timeoutCount := saturatingAdd U64_MAX s.performance.timeoutCount 1 }
      grace } := by
  have hkey : key ∈ s.outstanding := ht.mem_outstanding.mpr ⟨o, ho⟩
  have hapart : ∀ e ∈ s.grace, e.key ≠ key := fun e he heq => ht.apart e he (heq ▸ hkey)
  have hopened : ∀ k r, (v.expire key).opened k = some r ↔ k ≠ key ∧ v.opened k = some r := by
    intro k r
    by_cases hk : k = key <;> simp [RequestView.expire, hk]
  have hlate : ∀ k r, (v.expire key).late k = some r ↔
      (k = key ∧ r = o) ∨ (k ≠ key ∧ v.late k = some r) := by
    intro k r
    by_cases hk : k = key <;> simp [RequestView.expire, hk, ho, eq_comm]
  have hexpired : ∀ r, r ∈ (v.expire key).expired ↔ r = o ∨ r ∈ v.expired := by
    simp [RequestView.expire, ho, eq_comm]
  constructor
  case outstanding =>
    intro k
    simp only [RequestView.expire, lookup_erase, Function.update_apply]
    by_cases hk : k = key
    · simp [hk]
    · rw [if_neg (Ne.symm hk), if_neg hk]
      exact ht.outstanding k
  case keyed =>
    rintro k r (hr | hr)
    · exact ht.keyed k r (.inl ((hopened k r).mp hr).2)
    · obtain ⟨rfl, rfl⟩ | ⟨-, hr⟩ := (hlate k r).mp hr
      · exact ht.keyed k r (.inl ho)
      · exact ht.keyed k r (.inr hr)
  case ordered =>
    intro r hr
    obtain rfl | hr := (hexpired r).mp hr
    · exact ⟨hdeadline, fun k o' ho' => hfirst k o' ((hopened k o').mp ho').2⟩
    · obtain ⟨hnow, hopen⟩ := ht.ordered r hr
      exact ⟨hnow, fun k o' ho' => hopen k o' ((hopened k o').mp ho').2⟩
  case apart =>
    intro e he hmem
    obtain h | ⟨h, -⟩ := hgrace e he
    · exact ht.apart e h (ExtTreeMap.mem_of_mem_erase hmem)
    · simp [h] at hmem
  case distinct => exact hdistinct
  case bounded => exact hbounded
  case remembered =>
    intro e he
    obtain h | ⟨h, hends⟩ := hgrace e he
    · obtain ⟨r, hr, hends⟩ := ht.remembered e h
      exact ⟨r, (hlate e.key r).mpr (.inr ⟨hapart e h, hr⟩), hends⟩
    · exact ⟨o, (hlate e.key o).mpr (.inl ⟨h, rfl⟩), hends⟩
  case late =>
    intro k r hr
    rw [hexpired]
    obtain ⟨rfl, rfl⟩ | ⟨hk, hr⟩ := (hlate k r).mp hr
    · exact ⟨.inl rfl, hkept.imp_right .inl⟩
    · obtain ⟨hr', ⟨e, he, rfl⟩ | h | h⟩ := ht.late k r hr
      · grind
      · exact ⟨.inr hr', .inr (.inl h)⟩
      · exact ⟨.inr hr', .inr (.inr (h.mono fun x hx => (hexpired x).mpr (.inr hx)))⟩
  case balance =>
    have hbalance := ht.balance
    have hsize := size_erase_of_mem hkey
    simp only [RequestView.expire]
    omega
  case successes => exact ht.successes
  case timeouts =>
    have hcount := ht.timeouts
    simp only [RequestView.expire, saturatingAdd]
    omega

/-- The entry that makes room in a full grace list belongs to a request that 127 others in the
list and the one that now expires do not precede. -/
theorem crowded (ht : Tracks v s) {o : Request} {e : GraceEntry} {r : Request}
    (ho : v.opened key = some o) (he : e ∈ s.grace) (hr : v.late e.key = some r)
    (hfull : s.grace.length = MAX_RECENTLY_EXPIRED_REQUESTS_PER_PEER)
    (hmin : ∀ e' ∈ s.grace, e.expiresAt ≤ e'.expiresAt) : Crowded (v.expire key).expired r := by
  have hkey : key ∈ s.outstanding := ht.mem_outstanding.mpr ⟨o, ho⟩
  have hnodup := ht.distinct.of_map
  have hexpired : ∀ r, r ∈ (v.expire key).expired ↔ r = o ∨ r ∈ v.expired := by
    simp [RequestView.expire, ho, eq_comm]
  obtain ⟨requestOf, hrequest⟩ : ∃ f : GraceEntry → Request, ∀ e' ∈ s.grace,
      v.late e'.key = some (f e') ∧ e'.expiresAt = (f e').graceEnd := by
    refine ⟨fun e' => (v.late e'.key).getD o, fun e' he' => ?_⟩
    obtain ⟨r', hr', hends⟩ := ht.remembered e' he'
    simp [hr', hends]
  have hkeys : ∀ e' ∈ s.grace, (requestOf e').key = e'.key := fun e' he' =>
    ht.keyed _ _ (.inr (hrequest e' he').1)
  have ht' : ∀ e' ∈ s.grace.erase e, e' ∈ s.grace ∧ e' ≠ e := fun e' he' =>
    ⟨List.mem_of_mem_erase he', (hnodup.mem_erase_iff.mp he').1⟩
  refine ⟨o :: (s.grace.erase e).map requestOf, ?_, ?_, ?_⟩
  · refine List.Nodup.of_map Request.key ?_
    have hmap : ((s.grace.erase e).map requestOf).map Request.key =
        (s.grace.erase e).map GraceEntry.key := by
      simp_all
    rw [List.map_cons, hmap, ht.keyed key o (.inl ho), List.nodup_cons]
    refine ⟨fun hmem => ?_, ht.distinct.sublist ((List.erase_sublist).map _)⟩
    obtain ⟨e', he', rfl⟩ := List.mem_map.mp hmem
    exact ht.apart e' (ht' e' he').1 hkey
  · rw [List.length_cons, List.length_map, List.length_erase_of_mem he, hfull]
    decide
  · have hends : e.expiresAt = r.graceEnd := by simp_all
    rintro o' (_ | ⟨_, ho'⟩)
    · refine ⟨(hexpired _).mpr (.inl rfl), ?_, (ht.ordered r (ht.late _ _ hr).1).2 key o ho⟩
      rintro rfl
      have heq : key = e.key := (ht.keyed key o (.inl ho)).symm.trans (ht.keyed _ _ (.inr hr))
      exact ht.apart e he (heq ▸ hkey)
    · obtain ⟨e', he', rfl⟩ := List.mem_map.mp ho'
      obtain ⟨hmem, hne⟩ := ht' e' he'
      obtain ⟨hlate, hends'⟩ := hrequest e' hmem
      refine ⟨(hexpired _).mpr (.inr (ht.late _ _ hlate).1), fun heq => hne ?_, ?_⟩
      · have hsame : e'.key = e.key := by rw [← hkeys e' hmem, heq, ht.keyed _ _ (.inr hr)]
        exact List.inj_on_of_nodup_map ht.distinct hmem he hsame
      · have hle := hmin e' hmem
        rw [hends, hends', Request.graceEnd, Request.graceEnd] at hle
        exact Nat.le_of_add_le_add_right hle

/-- Room for one more entry costs at most the earliest entry of a full list. -/
theorem makeRoom (ht : Tracks v s) {o : Request} (ho : v.opened key = some o) :
    (RequestRegistry.makeRoom s.grace).Sublist s.grace ∧
      (RequestRegistry.makeRoom s.grace).length + 1 ≤ MAX_RECENTLY_EXPIRED_REQUESTS_PER_PEER ∧
      ∀ e ∈ s.grace, e ∉ RequestRegistry.makeRoom s.grace → ∀ r, v.late e.key = some r →
        Crowded (v.expire key).expired r := by
  rw [RequestRegistry.makeRoom]
  split_ifs with hfull
  case neg =>
    have hbounded := ht.bounded
    exact ⟨List.Sublist.refl _, by omega, fun e he hgone => absurd he hgone⟩
  cases hmin : s.grace.argmin GraceEntry.rank with
  | none =>
    rw [List.argmin_eq_none.mp hmin] at hfull
    exact absurd hfull (by decide)
  | some earliest =>
    have hmem : earliest ∈ s.grace := List.argmin_mem hmin
    refine ⟨List.erase_sublist, ?_, fun e he hgone r hr => ?_⟩
    · grind
    · obtain rfl : e = earliest := by grind
      refine ht.crowded ho he hr hfull fun e' he' => ?_
      have hle := List.le_of_mem_argmin he' hmin
      grind [GraceEntry.rank, Prod.Lex.toLex_le_toLex]

theorem expireRequest (ht : Tracks v s) {o : Request} (generation : ℕ)
    (ho : v.opened key = some o) (hdeadline : o.deadline ≤ v.now)
    (hfirst : ∀ k o', v.opened k = some o' → o.deadline ≤ o'.deadline) :
    Tracks (v.expire key) (s.expireRequest v.now ⟨key, o.deadline, generation⟩) := by
  have hkey : key ∈ s.outstanding := ht.mem_outstanding.mpr ⟨o, ho⟩
  have hapart : ∀ e ∈ s.grace, e.key ≠ key := fun e he heq => ht.apart e he (heq ▸ hkey)
  have hfilter : s.grace.filter (fun e => e.key ≠ key) = s.grace :=
    List.filter_eq_self.mpr fun e he => decide_eq_true (hapart e he)
  have hgraceEnd : o.deadline + EXPIRED_REQUEST_GRACE = o.graceEnd := rfl
  simp only [RequestRegistry.expireRequest, hgraceEnd]
  split_ifs with hkept
  case neg =>
    exact ht.expire ho hdeadline hfirst (fun e he => .inl he) ht.distinct ht.bounded
      (fun e he hgone => absurd he hgone) (.inr (Nat.le_of_not_lt hkept))
  obtain ⟨hsub, hlength, hgone⟩ := ht.makeRoom ho
  simp only [RequestRegistry.insertGrace, hfilter]
  refine ht.expire ho hdeadline hfirst (fun e he => ?_) ?_ ?_ (fun e he hgone' => ?_) ?_
  · grind
  · rw [List.map_append, List.nodup_append]
    refine ⟨ht.distinct.sublist (hsub.map _), List.nodup_singleton _, ?_⟩
    grind
  · rw [List.length_append]
    exact hlength
  · exact hgone e he fun h => hgone' (List.mem_append_left _ h)
  · exact .inl ⟨_, List.mem_append_right _ (List.mem_singleton.mpr rfl), rfl⟩

/-- The loop over the overdue requests, which come in the order of their deadlines. -/
theorem expireAll (expired : List Overdue) (ht : Tracks v s)
    (hopen : ∀ e ∈ expired, ∃ o, v.opened e.key = some o ∧ e.deadline = o.deadline ∧
      o.deadline ≤ v.now)
    (hrest : ∀ k o, v.opened k = some o → (∃ e ∈ expired, e.key = k) ∨ v.now < o.deadline)
    (hsorted : expired.Pairwise fun a b => a.deadline ≤ b.deadline)
    (hdistinct : (expired.map Overdue.key).Nodup) :
    Tracks ((expired.map Overdue.key).foldl .expire v)
      (expired.foldl (RequestRegistry.expireRequest v.now) s) := by
  induction expired generalizing v s with
  | nil => exact ht
  | cons e expired ih =>
    obtain ⟨hfirst, hsorted⟩ := List.pairwise_cons.mp hsorted
    obtain ⟨hkey, hdistinct⟩ := List.nodup_cons.mp hdistinct
    obtain ⟨o, ho, hdeadline, hnow⟩ := hopen e List.mem_cons_self
    have hothers : ∀ e' ∈ expired, e'.key ≠ e.key := fun e' he' heq =>
      hkey (List.mem_map.mpr ⟨e', he', heq⟩)
    have hopened : ∀ k r, (v.expire e.key).opened k = some r ↔ k ≠ e.key ∧ v.opened k = some r := by
      intro k r
      by_cases hk : k = e.key <;> simp [RequestView.expire, hk]
    have hleast : ∀ k o', v.opened k = some o' → o.deadline ≤ o'.deadline := by grind
    have hstep := ht.expireRequest e.generation ho hnow hleast
    rw [← hdeadline] at hstep
    refine ih hstep (fun e' he' => ?_) (fun k o' ho' => ?_) hsorted hdistinct
    · obtain ⟨o', ho', h⟩ := hopen e' (List.mem_cons_of_mem _ he')
      exact ⟨o', (hopened _ _).mpr ⟨hothers e' he', ho'⟩, h⟩
    · obtain ⟨hk, ho'⟩ := (hopened k o').mp ho'
      obtain ⟨e', he', rfl⟩ | hlater := hrest k o' ho'
      · grind
      · exact .inr hlater

/-- What is collected as overdue is what is open and past its deadline. -/
theorem overdue (ht : Tracks v s) {e : Overdue} (he : e ∈ s.overdue now) :
    ∃ o, v.opened e.key = some o ∧ e.deadline = o.deadline ∧ o.deadline ≤ now := by
  obtain ⟨⟨k, request⟩, hmem, hsome⟩ := List.mem_filterMap.mp he
  rw [ExtTreeMap.mem_toList_iff_getElem?_eq_some] at hmem
  obtain ⟨hdue, hsome⟩ := Option.ite_none_right_eq_some.mp hsome
  obtain rfl := Option.some.inj hsome
  have hopened := ht.outstanding k
  rw [hmem, Option.map_some, eq_comm, Option.map_eq_some_iff] at hopened
  grind [Request.deadline]

theorem overdue_of_opened (ht : Tracks v s) {o : Request} (ho : v.opened key = some o) :
    (∃ e ∈ s.overdue now, e.key = key) ∨ now < o.deadline := by
  by_cases hdue : o.deadline ≤ now
  · have houtstanding := ht.outstanding key
    rw [ho, Option.map_some, Option.map_eq_some_iff] at houtstanding
    obtain ⟨request, hrequest, hmade⟩ := houtstanding
    refine .inl ⟨⟨key, o.deadline, request.generation⟩, List.mem_filterMap.mpr ?_, rfl⟩
    refine ⟨(key, request), ExtTreeMap.mem_toList_iff_getElem?_eq_some.mpr hrequest, ?_⟩
    rw [Request.deadline] at hdue ⊢
    simp [hmade, hdue]
  · exact .inr (Nat.lt_of_not_le hdue)

theorem expireAt (ht : Tracks v s) (hnow : v.now ≤ now) :
    (s.expireAt now).2.Nodup ∧
      Tracks ((s.expireAt now).2.foldl .expire (v.tick now)) (s.expireAt now).1 := by
  have ht' := ht.prune hnow
  have hperm := List.perm_insertionSort (fun a b : Overdue => a.rank ≤ b.rank)
    ((s.pruneGrace now).overdue now)
  have hdistinct : (((s.pruneGrace now).overdue now).map Overdue.key).Nodup := by
    have hkeys : ((s.pruneGrace now).overdue now).map Overdue.key =
        (((s.pruneGrace now).outstanding.toList.filter fun e =>
          e.2.startedAt + RESPONSE_START_TIMEOUT ≤ now).map Prod.fst) := by
      rw [RequestRegistry.overdue]
      induction (s.pruneGrace now).outstanding.toList with
      | nil => rfl
      | cons e l ih =>
        by_cases hdue : e.2.startedAt + RESPONSE_START_TIMEOUT ≤ now <;> simp [hdue, ih]
    grind [nodup_toList_keys]
  have hsorted : (((s.pruneGrace now).overdue now).insertionSort fun a b =>
      a.rank ≤ b.rank).Pairwise fun a b => a.deadline ≤ b.deadline := by
    grind [List.pairwise_insertionSort, Overdue.rank, Prod.Lex.toLex_le_toLex, le_of_lt]
  have hnodup := (hperm.map Overdue.key).nodup_iff.mpr hdistinct
  refine ⟨hnodup, ht'.expireAll _ (fun e he => ht'.overdue (hperm.mem_iff.mp he)) ?_ hsorted hnodup⟩
  intro k o ho
  refine (ht'.overdue_of_opened ho).imp_left ?_
  rintro ⟨e, he, hkey⟩
  exact ⟨e, hperm.mem_iff.mpr he, hkey⟩

theorem expectAt (ht : Tracks v s) (key : RequestKey) (hnow : v.now ≤ now) (number : ℕ) :
    (∃ e, (s.expectAt key now).2 = .error e ∧ Tracks (v.tick now) (s.expectAt key now).1) ∨
      ((s.expectAt key now).2 = .ok () ∧
        Tracks ((v.tick now).accept ⟨number, key, now⟩) (s.expectAt key now).1) := by
  rw [RequestRegistry.expectAt]
  split_ifs with hkey
  · exact .inl ⟨_, rfl, ht.tick hnow⟩
  · refine .inr ⟨rfl, ?_⟩
    have hforget := (ht.tick hnow).forget key
    have haccept := hforget.accept (r := ⟨number, key, now⟩) hkey
      (fun e he => of_decide_eq_true (List.mem_filter.mp he).2) le_rfl s.nextGeneration
      ((s.nextGeneration + 1) % 2 ^ 64)
    simpa [RequestView.accept, RequestView.forget] using haccept

/-- A response is matched when the key is open, dropped when it is remembered, and otherwise
nobody asked for it. -/
theorem classifyKeyAt (ht : Tracks v s) (key : RequestKey) (hnow : v.now ≤ now) :
    ((s.classifyKeyAt key now).2 = .matched key ∧ (∃ r, v.opened key = some r) ∧
        Tracks ((v.tick now).answer key) (s.classifyKeyAt key now).1) ∨
      ((s.classifyKeyAt key now).2 = .graceDrop key ∧ v.opened key = none ∧
        Tracks ((v.tick now).forget key) (s.classifyKeyAt key now).1) ∨
      ((s.classifyKeyAt key now).2 = .unsolicited key ∧ v.opened key = none ∧
        (∀ e ∈ (s.pruneGrace now).grace, e.key ≠ key) ∧
        Tracks ((v.tick now).forget key) (s.classifyKeyAt key now).1) := by
  have ht' := ht.prune hnow
  have hforget := ht'.forget key
  have hopened := ht'.outstanding key
  simp only [RequestRegistry.classifyKeyAt]
  cases hrequest : (s.pruneGrace now).outstanding[key]? with
  | some request =>
    refine .inl ⟨rfl, ?_, ht'.answer ((mem_iff_lookup _ _).mpr ⟨request, hrequest⟩) _⟩
    rw [hrequest, Option.map_some, eq_comm, Option.map_eq_some_iff] at hopened
    exact hopened.imp fun r hr => hr.1
  | none =>
    rw [hrequest, Option.map_none, eq_comm, Option.map_eq_none_iff] at hopened
    right
    cases hindex : (s.pruneGrace now).grace.findIdx? fun e => e.key = key with
    | some index =>
      refine .inl ⟨rfl, hopened, ?_⟩
      have herase : (s.pruneGrace now).grace.eraseIdx index =
          (s.pruneGrace now).grace.filter fun e => e.key ≠ key := by
        rw [← eraseP_eq_filter ht'.distinct, List.eraseP_eq_eraseIdx, hindex]
      simpa only [herase] using hforget
    | none =>
      have hnone : ∀ e ∈ (s.pruneGrace now).grace, e.key ≠ key := by simp_all
      refine .inr ⟨rfl, hopened, hnone, ?_⟩
      rwa [List.filter_eq_self.mpr fun e he => decide_eq_true (hnone e he)] at hforget

end Tracks

namespace RequestHistory

variable {h : RequestHistory} {now : Instant}

theorem latest_le (hlater : ∀ x ∈ h, x.1.now ≤ now) : h.latest ≤ now := by
  cases h with
  | nil => exact Nat.zero_le _
  | cons x h => exact hlater x List.mem_cons_self

end RequestHistory

/-- After any calls the registry agrees with what the calls and replies say. -/
theorem RequestRun.tracks {h : RequestHistory} {s : RequestRegistry} (run : RequestRun h s) :
    Tracks h.view s := by
  induction run with
  | start => exact tracks_start
  | @step h s call _ later ih =>
    have hlatest : ∀ now, (∀ x ∈ h, x.1.now ≤ now) → h.view.now ≤ now :=
      fun now => RequestHistory.latest_le
    cases call with
    | expectAt key now =>
      obtain ⟨e, he, ht⟩ | ⟨hok, ht⟩ := ih.expectAt key (hlatest now later) h.length
      · rw [RequestRegistry.call, he, RequestHistory.view_refused]
        exact ht
      · rw [RequestRegistry.call, hok, RequestHistory.view_accepted]
        exact ht
    | classifyKeyAt key now =>
      obtain ⟨hd, -, ht⟩ | ⟨hd, -, ht⟩ | ⟨hd, -, -, ht⟩ := ih.classifyKeyAt key (hlatest now later)
      · rw [RequestRegistry.call, hd, RequestHistory.view_matched]
        exact ht
      · rw [RequestRegistry.call, hd, RequestHistory.view_dropped]
        exact ht
      · rw [RequestRegistry.call, hd, RequestHistory.view_unsolicited]
        exact ht
    | expireAt now =>
      obtain ⟨hnodup, ht⟩ := ih.expireAt (hlatest now later)
      rw [RequestRegistry.call, RequestHistory.view_expired hnodup]
      exact ht

end Oregon.Peer
