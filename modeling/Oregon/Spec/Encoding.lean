import Oregon.Lib.Reader

/-! Hashes and the byte encoding of the consensus objects: the bounded decoder,
the canonical variable-length integers, and domain-separated hashing. BLAKE3 and
RandomX are third-party code and enter as functions of their arguments. -/

namespace Oregon

open Lib

abbrev Bytes := List UInt8

/-- Thirty-two bytes read as one big-endian number, so that the order of hashes
is the order of their bytes. -/
abbrev Hash256 := BitVec 256

instance : Std.TransOrd Hash256 := inferInstanceAs (Std.TransOrd (BitVec 256))

instance : Std.LawfulEqOrd Hash256 := inferInstanceAs (Std.LawfulEqOrd (BitVec 256))

instance : LawfulBEq Hash256 := inferInstanceAs (LawfulBEq (BitVec 256))

inductive PrimitiveError where
  | amountOverflow
  | amountUnderflow
  | amountAboveMaximum
  | unexpectedEof
  | nonCanonicalVarInt
  | lengthLimitExceeded
  | invalidVersion (version : UInt16)
  | trailingBytes
  | invalidHashLength (length : ℕ)
  | emptyBlockTransactions
  deriving DecidableEq, Repr

/-- The text each error is displayed with. -/
def PrimitiveError.message : PrimitiveError → String
  | amountOverflow => "amount arithmetic overflow"
  | amountUnderflow => "amount arithmetic underflow"
  | amountAboveMaximum => "amount exceeds Oregon maximum supply"
  | unexpectedEof => "unexpected end of input"
  | nonCanonicalVarInt => "non-canonical varint"
  | lengthLimitExceeded => "decoded length exceeds configured limit"
  | invalidVersion v => s!"invalid protocol version {v}"
  | trailingBytes => "trailing bytes after complete consensus object"
  | invalidHashLength n => s!"invalid fixed-size hash length: expected 32, got {n}"
  | emptyBlockTransactions => "block transaction list must not be empty"

/-- The hash functions of the `blake3` crate and of RandomX. A RandomX output is
read as a little-endian number, as the target comparison does. -/
class Crypto where
  blake3 : Bytes → Hash256
  randomx : Hash256 → Bytes → BitVec 256

def Hash256.asBytes (h : Hash256) : Bytes := (leBytes 32 h.toNat).reverse

def Hash256.fromSlice (bytes : Bytes) : Except PrimitiveError Hash256 :=
  if bytes.length = 32 then .ok (BitVec.ofNat 256 (readLE bytes.reverse))
  else .error (.invalidHashLength bytes.length)

/-- How a hash prints in an error message. -/
def Hash256.debug (h : Hash256) : String :=
  "Hash256([" ++ ", ".intercalate ((Hash256.asBytes h).map fun b => toString b.toNat) ++ "])"

def domainHash [Crypto] (domain payload : Bytes) : Hash256 := Crypto.blake3 (domain ++ payload)

/-- The bytes of an ASCII domain tag. -/
def ascii (s : String) : Bytes := s.toList.map fun c => UInt8.ofNat c.toNat

structure DecodeLimits where
  maxTransactionInputs : UInt64
  maxTransactionOutputs : UInt64
  maxWitnessItemsPerInput : UInt64
  maxWitnessItemBytes : UInt64
  maxLockingProgramBytes : UInt64
  maxBlockTransactions : UInt64
  maxObjectBytes : UInt64
  deriving DecidableEq, Repr

def DecodeLimits.default : DecodeLimits where
  maxTransactionInputs := 65535
  maxTransactionOutputs := 65535
  maxWitnessItemsPerInput := 1024
  maxWitnessItemBytes := 1048576
  maxLockingProgramBytes := 65536
  maxBlockTransactions := 1000000
  maxObjectBytes := 67108864

abbrev Decoder := Reader PrimitiveError

def readU8 : Decoder UInt8 := fun c =>
  match c.rest with
  | [] => .error .unexpectedEof
  | b :: bs => .ok (b, ⟨bs, c.offset + 1⟩)

def readBytes (len : ℕ) : Decoder Bytes := fun c =>
  -- the end offset is computed with a checked addition on `usize`
  if 2 ^ 64 ≤ c.offset + len then .error .lengthLimitExceeded
  else if c.rest.length < len then .error .unexpectedEof
  else .ok (c.rest.take len, ⟨c.rest.drop len, c.offset + len⟩)

/-- One byte, read as a slice of length one. -/
def readByte : Decoder UInt8 := do
  let bytes ← readBytes 1
  pure (bytes.headD 0)

def readU16 : Decoder UInt16 := do
  let bytes ← readBytes 2
  pure (UInt16.ofNat (readLE bytes))

def readU32 : Decoder UInt32 := do
  let bytes ← readBytes 4
  pure (UInt32.ofNat (readLE bytes))

def readU64 : Decoder UInt64 := do
  let bytes ← readBytes 8
  pure (UInt64.ofNat (readLE bytes))

def readVarint : Decoder UInt64 := do
  let marker ← readU8
  if marker.toNat ≤ 0xfc then pure (UInt64.ofNat marker.toNat)
  else if marker = 0xfd then do
    let value ← readU16
    if value.toNat < 0xfd then throw .nonCanonicalVarInt
    else pure (UInt64.ofNat value.toNat)
  else if marker = 0xfe then do
    let value ← readU32
    if value.toNat ≤ 0xffff then throw .nonCanonicalVarInt
    else pure (UInt64.ofNat value.toNat)
  else do
    let value ← readU64
    if value.toNat ≤ 0xffffffff then throw .nonCanonicalVarInt
    else pure value

def readLen (max : UInt64) : Decoder ℕ := do
  let value ← readVarint
  if max.toNat < value.toNat then throw .lengthLimitExceeded
  else pure value.toNat

def readHash : Decoder Hash256 := do
  let bytes ← readBytes 32
  match Hash256.fromSlice bytes with
  | .ok h => pure h
  | .error e => throw e

/-- `Decoder::finish` after the reader: nothing may be left over. -/
def decodeAll {α : Type} (p : Decoder α) (bytes : Bytes) : Except PrimitiveError α := do
  let r ← p ⟨bytes, 0⟩
  ensure (r.2.rest = []) .trailingBytes
  pure r.1

def writeVarint (value : ℕ) : Bytes :=
  if value ≤ 0xfc then [UInt8.ofNat value]
  else if value ≤ 0xffff then 0xfd :: leBytes 2 value
  else if value ≤ 0xffffffff then 0xfe :: leBytes 4 value
  else 0xff :: leBytes 8 value

end Oregon
