import Oregon.Sanity.Sample
import Oregon.Spec.Fees

/-! The book of escrows over any sequence of calls. The history next to the book records
which capability funded which escrow and which escrows were settled; the counts of the
book follow it, and every escrow that is open can be settled for any weight within its
terms. -/

namespace Oregon.Execution

open Lib Std

/-- The price for one unit of weight. -/
def FeeTermsV1.price (terms : FeeTermsV1) : ℕ :=
  min terms.maxFeePerWeight (terms.baseFeePerWeight + terms.maxPriorityFeePerWeight)

theorem FeeTermsV1.base_le_price (terms : FeeTermsV1) : terms.baseFeePerWeight ≤ terms.price :=
  Nat.le_min.mpr ⟨terms.base_le, Nat.le_add_right ..⟩

theorem FeeTermsV1.cost_le (terms : FeeTermsV1) {weight : ℕ} (h : weight ≤ terms.maxWeight) :
    weight * terms.price ≤ terms.maxEscrow := by
  rw [terms.maxEscrow_eq]
  exact Nat.mul_le_mul h (Nat.min_le_left ..)

theorem supply_le_u64 : MAX_SUPPLY_BASE_UNITS ≤ U64_MAX := by decide

theorem narrow_eq {a : ℕ} (h : a ≤ MAX_SUPPLY_BASE_UNITS) : narrow a = some a :=
  if_pos (h.trans supply_le_u64)

/-- The amounts of a receipt are those the terms give for `weight`. -/
structure Exact (terms : FeeTermsV1) (weight : ℕ) (parts : FeeSettlementReceiptV1Parts) : Prop where
  actual : parts.actualWeight = weight
  charged : parts.charged = weight * terms.price
  base : parts.baseComponent = weight * terms.baseFeePerWeight
  components : parts.baseComponent + parts.priorityComponent = parts.charged
  refund : parts.charged + parts.refund = terms.maxEscrow

/-- The parts of the receipt that settles `ticket` for `weight`. -/
def exactParts (escrowId : Hash256) (ticket : EscrowTicketV1) (outcome : ExecutionOutcome)
    (weight : ℕ) : FeeSettlementReceiptV1Parts where
  txid := ticket.txid
  escrowId
  payer := ticket.payer
  sourceKind := ticket.sourceKind
  outcome
  baseFeePerWeight := ticket.terms.baseFeePerWeight
  maxFeePerWeight := ticket.terms.maxFeePerWeight
  maxPriorityFeePerWeight := ticket.terms.maxPriorityFeePerWeight
  maxWeight := ticket.terms.maxWeight
  actualWeight := weight
  effectivePrice := ticket.terms.price
  baseComponent := weight * ticket.terms.baseFeePerWeight
  priorityComponent := weight * ticket.terms.price - weight * ticket.terms.baseFeePerWeight
  charged := weight * ticket.terms.price
  refund := ticket.terms.maxEscrow - weight * ticket.terms.price

section

variable {escrowId : Hash256} {ticket : EscrowTicketV1} {outcome : ExecutionOutcome} {weight : ℕ}

theorem exactParts_exact (hmax : weight ≤ ticket.terms.maxWeight) :
    Exact ticket.terms weight (exactParts escrowId ticket outcome weight) where
  actual := rfl
  charged := rfl
  base := rfl
  components := Nat.add_sub_of_le (Nat.mul_le_mul_left _ ticket.terms.base_le_price)
  refund := Nat.add_sub_of_le (ticket.terms.cost_le hmax)

theorem settlementParts_eq (hpos : weight ≠ 0) (hmax : weight ≤ ticket.terms.maxWeight) :
    settlementParts escrowId ticket outcome weight =
      .ok (exactParts escrowId ticket outcome weight) := by
  have hbase := Nat.mul_le_mul_left weight ticket.terms.base_le_price
  have hcost := ticket.terms.cost_le hmax
  have hsupply := ticket.terms.maxEscrow_le
  have hprice : ticket.terms.price ≤ weight * ticket.terms.price :=
    Nat.le_mul_of_pos_left _ (Nat.pos_of_ne_zero hpos)
  have hnarrow : ∀ a ≤ ticket.terms.maxEscrow, narrow a = some a :=
    fun a ha => narrow_eq (ha.trans hsupply)
  have hpriority := checkedSub_eq_some.mpr ⟨hbase, rfl⟩
  have hrefund := checkedSub_eq_some.mpr ⟨hcost, rfl⟩
  simp only [settlementParts, ← FeeTermsV1.price.eq_1, hpriority, hrefund,
    hnarrow _ (hprice.trans hcost), hnarrow _ hcost, hnarrow _ (hbase.trans hcost),
    hnarrow _ ((Nat.sub_le ..).trans hcost), hnarrow _ (Nat.sub_le ..), orElse_some, ok_bind]
  rfl

theorem validateArithmetic_exactParts (hpos : weight ≠ 0) (hmax : weight ≤ ticket.terms.maxWeight) :
    validateArithmetic (exactParts escrowId ticket outcome weight) = .ok () := by
  have hbase := checkedSub_eq_some.mpr
    ⟨Nat.mul_le_mul_left weight ticket.terms.base_le_price, rfl⟩
  have hrefund := checkedSub_eq_some.mpr ⟨ticket.terms.cost_le hmax, rfl⟩
  have hsupply := ticket.terms.maxEscrow_le
  rw [ticket.terms.maxEscrow_eq] at hsupply hrefund
  have hrange : ¬ (ticket.terms.maxWeight = 0 ∨ weight = 0 ∨ ticket.terms.maxWeight < weight) := by
    omega
  simp [validateArithmetic, exactParts, ← FeeTermsV1.price.eq_1, bind_eq_ok, hbase, hrefund, hrange,
    ticket.terms.base_le, ticket.terms.priority_le, hsupply, hsupply.trans supply_le_u64,
    ticket.terms.maxEscrow_eq]

theorem receipt_exactParts (hpos : weight ≠ 0) (hmax : weight ≤ ticket.terms.maxWeight) :
    FeeSettlementReceiptV1.new (exactParts escrowId ticket outcome weight) =
      .ok ⟨exactParts escrowId ticket outcome weight, validateArithmetic_exactParts hpos hmax⟩ := by
  unfold FeeSettlementReceiptV1.new
  grind

end

section

variable {book book' : EscrowBookV1} {txid escrowId : Hash256} {capability : FundingCapabilityV1}
  {terms : FeeTermsV1} {ticket : EscrowTicketV1} {outcome : ExecutionOutcome} {weight : ℕ}
  {result : SettlementResultV1}

/-- What opening an escrow checks and changes. -/
structure Opened [Crypto] (book : EscrowBookV1) (txid : Hash256) (capability : FundingCapabilityV1)
    (terms : FeeTermsV1) (book' : EscrowBookV1) : Prop where
  capability_new : capability.capabilityId ∉ book.consumedCapabilities
  source_new : capability.sourceId ∉ book.consumedSources
  capacity : book.consumedCapabilities.size < MAX_ESCROW_HISTORY_ENTRIES
  funded : terms.maxEscrow ≤ capability.availableAmount
  not_open : (EscrowTicketV1.new txid capability terms).escrowId ∉ book.openEscrows
  not_settled : (EscrowTicketV1.new txid capability terms).escrowId ∉ book.settled
  eq : book' = { book with
    consumedCapabilities := book.consumedCapabilities.insert capability.capabilityId
    consumedSources := book.consumedSources.insert capability.sourceId
    openEscrows := book.openEscrows.insert (EscrowTicketV1.new txid capability terms).escrowId
      (EscrowTicketV1.new txid capability terms) }

theorem open_ok [Crypto]
    (h : perform (EscrowBookV1.open txid capability terms) book = (.ok ticket, book')) :
    ticket = EscrowTicketV1.new txid capability terms ∧ Opened book txid capability terms book' := by
  rw [EscrowBookV1.open, perform_get_bind, perform_check_eq_ok] at h
  obtain ⟨given, hticket, h⟩ := h
  cases h
  simp only [EscrowBookV1.openTicket, bind_eq_ok, ensure_eq_ok, exists_and_left, exists_const,
    pure_eq_ok, not_or, Nat.not_le] at hticket
  obtain ⟨hcapability, hsource, -, hsize, hfunded, hfresh, rfl⟩ := hticket
  exact ⟨rfl, hcapability, hsource, hsize.1, hfunded, hfresh.1, hfresh.2, rfl⟩

theorem open_error [Crypto] {e : FeeError}
    (h : perform (EscrowBookV1.open txid capability terms) book = (.error e, book')) :
    book' = book := by
  rw [EscrowBookV1.open, perform_get_bind, perform_check_eq_error] at h
  rcases h with ⟨-, rfl⟩ | ⟨given, -, h⟩
  · rfl
  · cases h

theorem settlement_ok (hopen : book.openEscrows[escrowId]? = some ticket)
    (hsettled : escrowId ∉ book.settled) (hroom : book.settled.size < MAX_ESCROW_HISTORY_ENTRIES)
    (hpos : weight ≠ 0) (hmax : weight ≤ ticket.terms.maxWeight) :
    book.settlement escrowId outcome weight =
      .ok ⟨⟨exactParts escrowId ticket outcome weight, validateArithmetic_exactParts hpos hmax⟩⟩ := by
  have hrange : ¬ (weight = 0 ∨ ticket.terms.maxWeight < weight) := by omega
  simp only [EscrowBookV1.settlement, ensure, if_pos hsettled, hopen, orElse_some, if_pos hrange,
    if_pos hroom, settlementParts_eq hpos hmax, receipt_exactParts hpos hmax, Except.mapError,
    ok_bind]
  rfl

theorem settle_ok (h : perform (EscrowBookV1.settle escrowId outcome weight) book =
      (.ok result, book')) :
    escrowId ∉ book.settled ∧ escrowId ∈ book.openEscrows ∧
      book' = { book with openEscrows := book.openEscrows.erase escrowId
                          settled := book.settled.insert escrowId } := by
  rw [EscrowBookV1.settle, perform_get_bind, perform_check_eq_ok] at h
  obtain ⟨given, hresult, h⟩ := h
  cases h
  simp only [EscrowBookV1.settlement, bind_eq_ok, ensure_eq_ok, exists_and_left, exists_const,
    pure_eq_ok, orElse_eq_ok, mapError_eq_ok] at hresult
  obtain ⟨hsettled, ticket, hopen, -⟩ := hresult
  exact ⟨hsettled, (mem_iff_lookup ..).mpr ⟨ticket, hopen⟩, rfl⟩

theorem settle_error {e : FeeError}
    (h : perform (EscrowBookV1.settle escrowId outcome weight) book = (.error e, book')) :
    book' = book := by
  rw [EscrowBookV1.settle, perform_get_bind, perform_check_eq_error] at h
  rcases h with ⟨-, rfl⟩ | ⟨given, -, h⟩
  · rfl
  · cases h

end

inductive BookCall where
  | open (txid : Hash256) (capability : FundingCapabilityV1) (terms : FeeTermsV1)
  | settle (escrowId : Hash256) (outcome : ExecutionOutcome) (actualWeight : ℕ)

/-- A book with what its calls have done: the escrows that were opened, each with the
capability that funds it, and the escrows that were settled. -/
structure BookHistory where
  book : EscrowBookV1
  fundings : List (FundingCapabilityV1 × EscrowTicketV1)
  settlements : List Hash256

/-- What a capability is drawn from. -/
def FundingCapabilityV1.source (capability : FundingCapabilityV1) :
    FeeSourceKind × ExecutionAddress × Hash256 × ℕ :=
  (capability.sourceKind, capability.payer, capability.sourceCommitment, capability.sourceSequence)

section

variable [Crypto]

def BookCall.run : BookCall → Stateful EscrowBookV1 FeeError Unit
  | .open txid capability terms => do
    let _ ← EscrowBookV1.open txid capability terms
    pure ()
  | .settle escrowId outcome weight => do
    let _ ← EscrowBookV1.settle escrowId outcome weight
    pure ()

def BookHistory.step (h : BookHistory) : BookCall → BookHistory
  | .open txid capability terms =>
    match perform (EscrowBookV1.open txid capability terms) h.book with
    | (.ok ticket, book) => { h with book, fundings := (capability, ticket) :: h.fundings }
    | (.error _, book) => { h with book }
  | .settle escrowId outcome weight =>
    match perform (EscrowBookV1.settle escrowId outcome weight) h.book with
    | (.ok _, book) => { h with book, settlements := escrowId :: h.settlements }
    | (.error _, book) => { h with book }

def BookHistory.run (h : BookHistory) (calls : List BookCall) : BookHistory :=
  calls.foldl BookHistory.step h

/-- The book agrees with the history. -/
structure BookHistory.Inv (h : BookHistory) : Prop where
  disjoint : ∀ id ∈ h.book.openEscrows, id ∉ h.book.settled
  capabilities : h.book.openEscrows.size + h.book.settled.size = h.book.consumedCapabilities.size
  sources : h.book.openEscrows.size + h.book.settled.size = h.book.consumedSources.size
  bounded : h.book.openEscrows.size + h.book.settled.size ≤ MAX_ESCROW_HISTORY_ENTRIES
  funded : ∀ (id : Hash256) ticket, h.book.openEscrows[id]? = some ticket →
    ∃ capability, (capability, ticket) ∈ h.fundings
  covered : ∀ f ∈ h.fundings, f.2 = EscrowTicketV1.new f.2.txid f.1 f.2.terms ∧
    f.2.terms.maxEscrow ≤ f.1.availableAmount
  capability_mem : ∀ f ∈ h.fundings, f.1.capabilityId ∈ h.book.consumedCapabilities
  source_mem : ∀ f ∈ h.fundings, f.1.sourceId ∈ h.book.consumedSources
  capability_nodup : (h.fundings.map fun f => f.1.capabilityId).Nodup
  source_nodup : (h.fundings.map fun f => f.1.sourceId).Nodup
  settled_mem : ∀ id ∈ h.settlements, id ∈ h.book.settled
  settled_nodup : h.settlements.Nodup

theorem inv_new {maxOpen : ℕ} {book : EscrowBookV1} (h : EscrowBookV1.new maxOpen = .ok book) :
    BookHistory.Inv ⟨book, [], []⟩ := by
  simp only [EscrowBookV1.new, bind_eq_ok, ensure_eq_ok, exists_and_left, exists_const,
    pure_eq_ok] at h
  obtain ⟨-, rfl⟩ := h
  constructor <;> simp

variable {h : BookHistory}

theorem BookHistory.Inv.opened {txid : Hash256} {capability : FundingCapabilityV1}
    {terms : FeeTermsV1} {book : EscrowBookV1} (hinv : h.Inv)
    (ho : Opened h.book txid capability terms book) :
    BookHistory.Inv { h with
      book, fundings := (capability, EscrowTicketV1.new txid capability terms) :: h.fundings } := by
  obtain ⟨hcapability, hsource, hsize, hfunded, hopen, hsettled, rfl⟩ := ho
  have hcap := hinv.capabilities
  have hsrc := hinv.sources
  constructor
  case disjoint =>
    intro id hid
    rcases ExtTreeMap.mem_insert.mp hid with heq | hid
    · rwa [← LawfulEqOrd.eq_of_compare heq]
    · exact hinv.disjoint id hid
  case capabilities => grind
  case sources => grind
  case bounded => grind
  case funded =>
    intro id ticket hid
    rw [lookup_insert] at hid
    split_ifs at hid with heq
    · exact ⟨capability, by simp [← Option.some.inj hid]⟩
    · obtain ⟨c, hc⟩ := hinv.funded id ticket hid
      exact ⟨c, List.mem_cons_of_mem _ hc⟩
  case covered => exact List.forall_mem_cons.mpr ⟨⟨rfl, hfunded⟩, hinv.covered⟩
  case capability_mem =>
    refine List.forall_mem_cons.mpr ⟨ExtTreeSet.mem_insert_self, fun f hf => ?_⟩
    exact ExtTreeSet.mem_insert.mpr (.inr (hinv.capability_mem f hf))
  case source_mem =>
    refine List.forall_mem_cons.mpr ⟨ExtTreeSet.mem_insert_self, fun f hf => ?_⟩
    exact ExtTreeSet.mem_insert.mpr (.inr (hinv.source_mem f hf))
  case capability_nodup =>
    refine List.nodup_cons.mpr ⟨fun hmem => ?_, hinv.capability_nodup⟩
    obtain ⟨f, hf, heq : f.1.capabilityId = capability.capabilityId⟩ := List.mem_map.mp hmem
    exact hcapability (heq ▸ hinv.capability_mem f hf)
  case source_nodup =>
    refine List.nodup_cons.mpr ⟨fun hmem => ?_, hinv.source_nodup⟩
    obtain ⟨f, hf, heq : f.1.sourceId = capability.sourceId⟩ := List.mem_map.mp hmem
    exact hsource (heq ▸ hinv.source_mem f hf)
  case settled_mem => exact hinv.settled_mem
  case settled_nodup => exact hinv.settled_nodup

theorem BookHistory.Inv.settled {escrowId : Hash256} (hinv : h.Inv)
    (hsettled : escrowId ∉ h.book.settled) (hopen : escrowId ∈ h.book.openEscrows) :
    BookHistory.Inv { h with
      book := { h.book with openEscrows := h.book.openEscrows.erase escrowId
                            settled := h.book.settled.insert escrowId }
      settlements := escrowId :: h.settlements } := by
  have hsize : (h.book.openEscrows.erase escrowId).size + (h.book.settled.insert escrowId).size =
      h.book.openEscrows.size + h.book.settled.size := by
    rw [setSize_insert_of_notMem hsettled, ← size_erase_of_mem hopen]
    omega
  constructor
  case disjoint =>
    intro id hid hmem
    obtain ⟨hne, hid⟩ := ExtTreeMap.mem_erase.mp hid
    rcases ExtTreeSet.mem_insert.mp hmem with heq | hmem
    · exact hne heq
    · exact hinv.disjoint id hid hmem
  case capabilities => exact hsize.trans hinv.capabilities
  case sources => exact hsize.trans hinv.sources
  case bounded => exact hsize.trans_le hinv.bounded
  case funded =>
    intro id ticket hid
    rw [lookup_erase] at hid
    split_ifs at hid
    exact hinv.funded id ticket hid
  case covered => exact hinv.covered
  case capability_mem => exact hinv.capability_mem
  case source_mem => exact hinv.source_mem
  case capability_nodup => exact hinv.capability_nodup
  case source_nodup => exact hinv.source_nodup
  case settled_mem =>
    refine List.forall_mem_cons.mpr ⟨ExtTreeSet.mem_insert_self, fun id hid => ?_⟩
    exact ExtTreeSet.mem_insert.mpr (.inr (hinv.settled_mem id hid))
  case settled_nodup =>
    exact List.nodup_cons.mpr ⟨fun hid => hsettled (hinv.settled_mem _ hid), hinv.settled_nodup⟩

theorem BookHistory.Inv.step (hinv : h.Inv) (call : BookCall) : (h.step call).Inv := by
  cases call with
  | «open» txid capability terms =>
    rw [BookHistory.step]
    split
    · next ticket book hopened =>
      obtain ⟨rfl, hopen⟩ := open_ok hopened
      exact hinv.opened hopen
    · next e book hfailed => exact open_error hfailed ▸ hinv
  | settle escrowId outcome weight =>
    rw [BookHistory.step]
    split
    · next result book hresult =>
      obtain ⟨hnot, hopen, rfl⟩ := settle_ok hresult
      exact hinv.settled hnot hopen
    · next e book hfailed => exact settle_error hfailed ▸ hinv

theorem BookHistory.Inv.run (hinv : h.Inv) (calls : List BookCall) : (h.run calls).Inv := by
  induction calls generalizing h with
  | nil => exact hinv
  | cons call calls ih => exact ih (hinv.step call)

/-- An open escrow settles for every weight within its terms, and exactly. -/
theorem BookHistory.Inv.settles (hinv : h.Inv) {escrowId : Hash256} {ticket : EscrowTicketV1}
    (hopen : h.book.openEscrows[escrowId]? = some ticket) (outcome : ExecutionOutcome) {weight : ℕ}
    (hpos : 1 ≤ weight) (hmax : weight ≤ ticket.terms.maxWeight) :
    ∃ result, (perform (EscrowBookV1.settle escrowId outcome weight) h.book).1 = .ok result ∧
      Exact ticket.terms weight result.receipt.parts := by
  have hmem := (mem_iff_lookup ..).mpr ⟨ticket, hopen⟩
  have hroom : h.book.settled.size < MAX_ESCROW_HISTORY_ENTRIES := by
    have hbounded := hinv.bounded
    rw [← size_erase_of_mem hmem] at hbounded
    omega
  rw [EscrowBookV1.settle, perform_get_bind, settlement_ok hopen (hinv.disjoint escrowId hmem) hroom
    (Nat.one_le_iff_ne_zero.mp hpos) hmax, perform_check_ok]
  exact ⟨_, rfl, exactParts_exact hmax⟩

/-- No source funds two escrows: the id of a source is a function of the source. -/
theorem BookHistory.Inv.sources_nodup (hinv : h.Inv) :
    (h.fundings.map fun f => f.1.source).Nodup := by
  let digest : FeeSourceKind × ExecutionAddress × Hash256 × ℕ → Hash256 := fun s =>
    domainHash SOURCE_DOMAIN (leBytes 2 CAPABILITY_VERSION_V1 ++ [s.1.toU8] ++ s.2.1.toBytes ++
      Hash256.asBytes s.2.2.1 ++ leBytes 8 s.2.2.2)
  refine List.Nodup.of_map digest ?_
  rw [List.map_map]
  exact hinv.source_nodup

theorem BookCall.run_error {book : EscrowBookV1} {call : BookCall} {e : FeeError}
    (he : (perform call.run book).1 = .error e) : (perform call.run book).2 = book := by
  have hdrop : ∀ {α : Type} {x : Stateful EscrowBookV1 FeeError α},
      (∀ e book', perform x book = (.error e, book') → book' = book) →
      (perform (x >>= fun _ => pure ()) book).1 = .error e →
      (perform (x >>= fun _ => pure ()) book).2 = book := by
    intro α x hx he
    cases hx' : perform x book with
    | mk r book' =>
      cases r with
      | error e' =>
        rw [perform_bind_error hx']
        exact hx e' book' hx'
      | ok a =>
        rw [perform_bind_ok hx'] at he
        cases he
  cases call with
  | «open» txid capability terms => exact hdrop (fun _ _ => open_error) he
  | settle escrowId outcome weight => exact hdrop (fun _ _ => settle_error) he

/-- What holds of a book after any calls. -/
structure BookHistory.Accounted (h : BookHistory) : Prop where
  disjoint : ∀ id ∈ h.book.openEscrows, id ∉ h.book.settled
  capabilities : h.book.openEscrows.size + h.book.settled.size = h.book.consumedCapabilities.size
  sources : h.book.openEscrows.size + h.book.settled.size = h.book.consumedSources.size
  bounded : h.book.openEscrows.size + h.book.settled.size ≤ 65536
  capability_once : (h.fundings.map fun f => f.1).Nodup
  source_once : (h.fundings.map fun f => f.1.source).Nodup
  settled_once : h.settlements.Nodup
  settles : ∀ (id : Hash256) ticket, h.book.openEscrows[id]? = some ticket → ∃ capability,
    (capability, ticket) ∈ h.fundings ∧
    ticket = EscrowTicketV1.new ticket.txid capability ticket.terms ∧
    ticket.terms.maxEscrow ≤ capability.availableAmount ∧
    ∀ outcome weight, 1 ≤ weight → weight ≤ ticket.terms.maxWeight →
      ∃ result, (perform (EscrowBookV1.settle id outcome weight) h.book).1 = .ok result ∧
        Exact ticket.terms weight result.receipt.parts
  failed : ∀ call e, (perform (BookCall.run call) h.book).1 = .error e →
    (perform (BookCall.run call) h.book).2 = h.book

/-- The books of escrows add up, whatever is opened and settled. -/
theorem escrow_book_accounted (maxOpen : ℕ) (book : EscrowBookV1)
    (hnew : EscrowBookV1.new maxOpen = .ok book) (calls : List BookCall) :
    (BookHistory.run ⟨book, [], []⟩ calls).Accounted := by
  have hinv := (inv_new hnew).run calls
  refine ⟨hinv.disjoint, hinv.capabilities, hinv.sources, hinv.bounded, ?_, hinv.sources_nodup,
    hinv.settled_nodup, fun id ticket hopen => ?_, fun _ _ => BookCall.run_error⟩
  · refine List.Nodup.of_map FundingCapabilityV1.capabilityId ?_
    rw [List.map_map]
    exact hinv.capability_nodup
  · obtain ⟨capability, hmem⟩ := hinv.funded id ticket hopen
    obtain ⟨hticket, hcovered⟩ := hinv.covered _ hmem
    exact ⟨capability, hmem, hticket, hcovered,
      fun outcome weight hpos hmax => hinv.settles hopen outcome hpos hmax⟩

end

namespace Sample

open Oregon.Sample

def payer : ExecutionAddress := ⟨.oregon, 7, by decide⟩

/-- Enough for one unit of weight at a price of two. -/
def capability : FundingCapabilityV1 := ⟨.executionBalance, payer, 1, 2, 0, 3, by decide⟩

def terms : FeeTermsV1 := ⟨1, 2, 1, 1, 2, by decide, by decide, by decide, rfl, by decide⟩

/-- Enough for two. -/
def larger : FundingCapabilityV1 := ⟨.executionBalance, payer, 1, 4, 1, 4, by decide⟩

def twice : FeeTermsV1 := ⟨1, 2, 1, 2, 4, by decide, by decide, by decide, rfl, by decide⟩

/-- The book for one escrow at a time. -/
def single : EscrowBookV1 := ⟨1, ∅, ∅, ∅, ∅⟩

/-- An escrow is settled before the next is opened; its capability cannot be used again. -/
def bookCalls [Crypto] : List BookCall :=
  [.open 5 capability terms, .open 6 larger twice,
    .settle (EscrowTicketV1.new 5 capability terms).escrowId .committed 1,
    .open 6 larger twice, .open 7 capability terms]

end Sample

open Oregon.Sample Oregon.Execution.Sample in
theorem escrow_book_accounted_sample :
    (BookHistory.run ⟨single, [], []⟩ bookCalls).book.openEscrows.size = 1 ∧
      (BookHistory.run ⟨single, [], []⟩ bookCalls).book.settled.size = 1 ∧
      (BookHistory.run ⟨single, [], []⟩ bookCalls).fundings.map (fun f => f.1) =
        [larger, capability] ∧
      (BookHistory.run ⟨single, [], []⟩ bookCalls).Accounted :=
  ⟨by decide +kernel, by decide +kernel, by decide +kernel, escrow_book_accounted 1 single rfl _⟩

end Oregon.Execution
