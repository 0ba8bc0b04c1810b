import Oregon.Spec.Locator

/-! An answer with headers is accepted when each header attaches to the one before it. -/

namespace Oregon.Sync

open Lib Protocol

variable [Crypto]

/-- Each header names the one before it as its predecessor, the first names `parent`. -/
def Attached : Hash256 → List BlockHeader → Prop
  | _, [] => True
  | parent, header :: rest => header.previousBlock = parent ∧ Attached header.blockId rest

theorem attached_cons_iff {parent : Hash256} {first : BlockHeader} {rest : List BlockHeader} :
    Attached parent (first :: rest) ↔ first.previousBlock = parent ∧
      List.IsChain (fun a b : BlockHeader => b.previousBlock = a.blockId) (first :: rest) := by
  induction rest generalizing parent first with
  | nil => simp [Attached]
  | cons second rest ih => rw [Attached, ih, List.isChain_cons_cons]

theorem validateHeadersResponse_ok_iff {parent : Hash256} {headers : List BlockHeader} :
    validateHeadersResponse parent headers = .ok () ↔
      headers.length ≤ MAX_HEADERS_PER_MESSAGE.toNat ∧ Attached parent headers := by
  unfold validateHeadersResponse
  split_ifs with hlong
  · simp only [false_iff, not_and]
    omega
  · cases headers with
    | nil => simp [Attached]
    | cons first rest => grind [attached_cons_iff]

/-- The headers up to the first that has the id of `stop`, and that one. -/
def cutAfter (stop : Option Hash256) : List BlockHeader → List BlockHeader
  | [] => []
  | header :: rest => if stop = some header.blockId then [header] else header :: cutAfter stop rest

theorem cutAfter_length_le (stop : Option Hash256) (headers : List BlockHeader) :
    (cutAfter stop headers).length ≤ headers.length := by
  induction headers with
  | nil => exact le_rfl
  | cons header rest ih => grind [cutAfter]

theorem Attached.cutAfter {parent : Hash256} {headers : List BlockHeader}
    (h : Attached parent headers) (stop : Option Hash256) :
    Attached parent (cutAfter stop headers) := by
  induction headers generalizing parent with
  | nil => exact h
  | cons header rest ih =>
    rw [Sync.cutAfter]
    split_ifs
    · exact ⟨h.1, trivial⟩
    · exact ⟨h.1, ih h.2⟩

end Oregon.Sync
