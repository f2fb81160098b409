import Tautq.Core.Table
import Tautq.Lib.Bytes

/-!
# The Record Format

The bytes of a log record: a type byte, the appending node's sequence number, and
the payload. A submit and a replicate record carry a whole job, whose key, url and
body are strings with a 16-bit length; the other records are of fixed size.

The reader works by offsets. It checks a length before it reads what the length
covers, and what comes after the last field is ignored. The state byte of a job is
not checked; so the records here are those of the program, with fixed-width
numbers and a byte for the state.

## Main definitions

* `putU8` to `putU64`, `getU8` to `getU64`, `putEndpoint`, `getEndpoint`,
  `putStr`, `getStr`: Fields.
* `RawJob`, `RawRecord`: Records as they are stored.
* `putJob`, `getJob`: A job inside a record.
* `encodeRecord`, `decodeRecord`: A record.
* `RawParams`, `encodeParams`, `decodeParams`: A submit on its way to the owner.
-/

namespace Tautq

/-! ### Fields -/

def putU8 (v : UInt8) : Bytes := [v]

def putU16 (v : UInt16) : Bytes := leBytes 2 v.toNat

def putU32 (v : UInt32) : Bytes := leBytes 4 v.toNat

def putU64 (v : UInt64) : Bytes := leBytes 8 v.toNat

def getU8 (b : Bytes) (off : Nat) : UInt8 := UInt8.ofNat (leAt 1 b off)

def getU16 (b : Bytes) (off : Nat) : UInt16 := UInt16.ofNat (leAt 2 b off)

def getU32 (b : Bytes) (off : Nat) : UInt32 := UInt32.ofNat (leAt 4 b off)

def getU64 (b : Bytes) (off : Nat) : UInt64 := UInt64.ofNat (leAt 8 b off)

/-- The size of a stored endpoint. -/
def kEndpointSize : Nat := 6

def putEndpoint (e : Endpoint) : Bytes := putU32 e.addr ++ putU16 e.port

def getEndpoint (b : Bytes) (off : Nat) : Endpoint :=
  { addr := getU32 b off, port := getU16 b (off + 4) }

/-- A string behind its 16-bit length. A longer one has its length cut off. -/
def putStr (s : Bytes) : Bytes := putU16 (UInt16.ofNat s.length) ++ s

/-- A string and the offset after it, unless it is too long or cut off. -/
def getStr (b : Bytes) (off max : Nat) : Option (Bytes × Nat) :=
  if b.length < off + 2 then none
  else
    let n := (getU16 b off).toNat
    let off := off + 2
    if max < n ∨ b.length < off + n then none
    else some ((b.drop off).take n, off + n)

/-! ### Jobs -/

/-- A job id as it is stored. -/
structure RawId where
  origin : UInt64
  nonce : UInt64
deriving DecidableEq, Repr, Inhabited

/-- The size of a stored job id. -/
def kJobIdSize : Nat := 16

def putJobId (id : RawId) : Bytes := putU64 id.origin ++ putU64 id.nonce

def getJobId (b : Bytes) (off : Nat) : RawId :=
  { origin := getU64 b off, nonce := getU64 b (off + 8) }

/-- A job as it is stored. The state is whatever byte was there. -/
structure RawJob where
  id : RawId
  idemKey : Bytes
  url : Bytes
  body : Bytes
  visibilityMs : UInt32
  maxAttempts : UInt32
  replicas : ReplicaSet
  state : UInt8
  owner : Endpoint
  epoch : UInt32
  leaseSeq : UInt32
  attempts : UInt32
deriving DecidableEq, Repr, Inhabited

/-- The strings are within the limits. -/
def RawJob.fits (j : RawJob) : Prop :=
  j.idemKey.length ≤ kMaxIdemKey ∧ j.url.length ≤ kMaxUrl ∧ j.body.length ≤ kMaxJobBody

instance (j : RawJob) : Decidable j.fits :=
  inferInstanceAs (Decidable (_ ∧ _ ∧ _))

def putJob (j : RawJob) : Bytes :=
  putJobId j.id ++ putStr j.idemKey ++ putStr j.url ++ putStr j.body ++
    putU32 j.visibilityMs ++ putU32 j.maxAttempts ++
    putEndpoint j.replicas.first ++ putEndpoint j.replicas.second ++ putEndpoint j.replicas.third ++
    putU8 j.state ++ putEndpoint j.owner ++ putU32 j.epoch ++ putU32 j.leaseSeq ++ putU32 j.attempts

/-- The fields of fixed size, which come after the strings. -/
def getFixed (b : Bytes) (off : Nat) (id : RawId) (idemKey url body : Bytes) : RawJob where
  id := id
  idemKey := idemKey
  url := url
  body := body
  visibilityMs := getU32 b off
  maxAttempts := getU32 b (off + 4)
  replicas :=
    { first := getEndpoint b (off + 8)
      second := getEndpoint b (off + 8 + kEndpointSize)
      third := getEndpoint b (off + 8 + 2 * kEndpointSize) }
  state := getU8 b (off + 8 + 3 * kEndpointSize)
  owner := getEndpoint b (off + 9 + 3 * kEndpointSize)
  epoch := getU32 b (off + 9 + 4 * kEndpointSize)
  leaseSeq := getU32 b (off + 13 + 4 * kEndpointSize)
  attempts := getU32 b (off + 17 + 4 * kEndpointSize)

/-- A job and the number of bytes it takes up, or nothing if it is malformed. -/
def getJob (b : Bytes) (off : Nat) : Option (RawJob × Nat) :=
  if b.length < off + kJobIdSize then none
  else
    match getStr b (off + kJobIdSize) kMaxIdemKey with
    | none => none
    | some (idemKey, off₁) =>
      match getStr b off₁ kMaxUrl with
      | none => none
      | some (url, off₂) =>
        match getStr b off₂ kMaxJobBody with
        | none => none
        | some (body, off₃) =>
          if b.length < off₃ + 4 + 4 + 4 * kEndpointSize + 1 + 4 + 4 + 4 then none
          else some (getFixed b off₃ (getJobId b off) idemKey url body,
            off₃ + 21 + 4 * kEndpointSize - off)

/-! ### Records -/

/-- A record as it is stored. -/
inductive RawRecord where
  | submit (job : RawJob)
  | replicate (job : RawJob)
  | lease (id : RawId) (epoch leaseSeq : UInt32) (worker : UInt64)
  | done (id : RawId) (epoch leaseSeq : UInt32)
  | expire (id : RawId) (epoch leaseSeq : UInt32)
  | deadLetter (id : RawId) (epoch : UInt32)
  | takeover (id : RawId) (newEpoch : UInt32) (newOwner : Endpoint)
deriving DecidableEq, Repr, Inhabited

/-- The strings of an embedded job are within the limits. -/
def RawRecord.fits : RawRecord → Prop
  | .submit j => j.fits
  | .replicate j => j.fits
  | _ => True

instance : (r : RawRecord) → Decidable r.fits
  | .submit j => inferInstanceAs (Decidable j.fits)
  | .replicate j => inferInstanceAs (Decidable j.fits)
  | .lease .. | .done .. | .expire .. | .deadLetter .. | .takeover .. => instDecidableTrue

/-- A job id with the fencing fields. -/
def putFence (id : RawId) (epoch leaseSeq : UInt32) : Bytes :=
  putJobId id ++ putU32 epoch ++ putU32 leaseSeq

/-- The type byte and the payload of a record. -/
def RawRecord.payload : RawRecord → UInt8 × Bytes
  | .submit j => (1, putJob j)
  | .replicate j => (2, putJob j)
  | .lease id epoch leaseSeq worker => (3, putFence id epoch leaseSeq ++ putU64 worker)
  | .done id epoch leaseSeq => (4, putFence id epoch leaseSeq)
  | .expire id epoch leaseSeq => (5, putFence id epoch leaseSeq)
  | .deadLetter id epoch => (6, putJobId id ++ putU32 epoch)
  | .takeover id newEpoch newOwner => (7, putJobId id ++ putU32 newEpoch ++ putEndpoint newOwner)

def encodeRecord (r : RawRecord) (lsn : UInt64) : Bytes :=
  putU8 r.payload.1 ++ putU64 lsn ++ r.payload.2

/-- The payload of a record of a given type. -/
def decodePayload (type : UInt8) (b : Bytes) (off : Nat) : Option RawRecord :=
  match type with
  | 1 => (getJob b off).map (fun x => .submit x.1)
  | 2 => (getJob b off).map (fun x => .replicate x.1)
  | 3 =>
    if b.length < off + kJobIdSize + 4 + 4 + 8 then none
    else some (.lease (getJobId b off) (getU32 b (off + kJobIdSize))
      (getU32 b (off + kJobIdSize + 4)) (getU64 b (off + kJobIdSize + 8)))
  | 4 =>
    if b.length < off + kJobIdSize + 8 then none
    else some (.done (getJobId b off) (getU32 b (off + kJobIdSize))
      (getU32 b (off + kJobIdSize + 4)))
  | 5 =>
    if b.length < off + kJobIdSize + 8 then none
    else some (.expire (getJobId b off) (getU32 b (off + kJobIdSize))
      (getU32 b (off + kJobIdSize + 4)))
  | 6 =>
    if b.length < off + kJobIdSize + 4 then none
    else some (.deadLetter (getJobId b off) (getU32 b (off + kJobIdSize)))
  | 7 =>
    if b.length < off + kJobIdSize + 4 + kEndpointSize then none
    else some (.takeover (getJobId b off) (getU32 b (off + kJobIdSize))
      (getEndpoint b (off + kJobIdSize + 4)))
  | _ => none

/-- A record and its sequence number, or nothing if it is malformed. -/
def decodeRecord (b : Bytes) : Option (RawRecord × UInt64) :=
  if b.length < 9 then none
  else (decodePayload (getU8 b 0) b 9).map (fun r => (r, getU64 b 1))

/-! ### Forwarded submits -/

/-- The largest body of a request between nodes. -/
def kMaxRpcBody : Nat := 1120

/-- What a client submits. -/
structure RawParams where
  idemKey : Bytes
  url : Bytes
  body : Bytes
  visibilityMs : UInt32
  maxAttempts : UInt32
deriving DecidableEq, Repr, Inhabited

def encodeParams (p : RawParams) : Bytes :=
  putStr p.idemKey ++ putStr p.url ++ putStr p.body ++ putU32 p.visibilityMs ++ putU32 p.maxAttempts

/-- The submit in a frame, or nothing if it is malformed or a string is too long. -/
def decodeParams (b : Bytes) : Option RawParams :=
  match getStr b 0 kMaxIdemKey with
  | none => none
  | some (idemKey, off₁) =>
    match getStr b off₁ kMaxUrl with
    | none => none
    | some (url, off₂) =>
      match getStr b off₂ kMaxJobBody with
      | none => none
      | some (body, off₃) =>
        if b.length < off₃ + 8 then none
        else some {
          idemKey, url, body
          visibilityMs := getU32 b off₃
          maxAttempts := getU32 b (off₃ + 4) }

end Tautq
