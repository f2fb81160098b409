import Mathlib.Data.Nat.Bitwise

/-!
# Jobs

The unit of work the queue stores, replicates and leases, and the one order
every full-copy merge obeys.

A job has a part fixed at submit time (its identity, key, destination,
payload, limits and replica set) and a part that moves: the state, the
current owner, the owner epoch and the lease sequence number. Epochs, lease
sequence numbers and limits are 32-bit in the program; they are natural
numbers here, and the two places that increment one wrap explicitly.

`jobAdvances` is the merge order: a remote copy replaces a local one only
when it is strictly ahead. A higher epoch wins outright; within an epoch
`done` beats `deadLetter`, which beats a higher lease sequence number, which
beats `leased` over `ready`. The owner is not compared.

## Main definitions

* `Endpoint`, `ekey`: A node address and its stable key.
* `JobId`, `JobState`, `ReplicaSet`, `Job`: The job record.
* `toHex`: A job id as text.
* `ReplicaSet.peerSlots`: The slots a node must keep in sync, itself and the
  empty ones left out.
* `jobAdvances`: Whether a remote copy strictly advances the local one.
-/

namespace Tautq

/-- Opaque byte strings: keys, urls and payloads. -/
abbrev Bytes := List UInt8

/-- A UDP endpoint. The value-initialised one marks an empty replica slot. -/
structure Endpoint where
  addr : UInt32 := 0
  port : UInt16 := 0
deriving DecidableEq, Repr, Inhabited

/-- The stable identity key of an endpoint. -/
def ekey (e : Endpoint) : Nat :=
  e.addr.toNat <<< 16 ||| e.port.toNat

/-- The lifecycle: ready, leased, done; expiry returns a leased job to ready,
    and running out of attempts parks it. -/
inductive JobState where
  | ready | leased | done | deadLetter
deriving DecidableEq, Repr, Inhabited

/-- The minting node's key, and a nonce mixing its boot id with a counter. -/
structure JobId where
  origin : Nat := 0
  nonce : Nat := 0
deriving DecidableEq, Repr, Inhabited

def hexDigit (n : Nat) : UInt8 :=
  if n < 10 then UInt8.ofNat (48 + n) else UInt8.ofNat (87 + n)

/-- The lowest hexadecimal digits of a number. -/
def hexPad : Nat → Nat → Bytes
  | 0, _ => []
  | w + 1, n => hexDigit (n / 16 ^ w % 16) :: hexPad w n

/-- An id as text. -/
def toHex (id : JobId) : Bytes :=
  hexPad 16 id.origin ++ hexPad 16 id.nonce

/-- The three pinned slots, the creating owner first, in succession order. -/
structure ReplicaSet where
  first : Endpoint := {}
  second : Endpoint := {}
  third : Endpoint := {}
deriving DecidableEq, Repr, Inhabited

namespace ReplicaSet

/-- The slots in order. -/
def toList (r : ReplicaSet) : List Endpoint :=
  [r.first, r.second, r.third]

/-- The slots with their numbers. -/
def slots (r : ReplicaSet) : List (Nat × Endpoint) :=
  [(0, r.first), (1, r.second), (2, r.third)]

/-- The member in a slot; only the three slot numbers occur. -/
def slot (r : ReplicaSet) (s : Nat) : Endpoint :=
  match s with
  | 0 => r.first
  | 1 => r.second
  | _ => r.third

/-- The non-empty slots. -/
def pinned (r : ReplicaSet) : List Endpoint :=
  r.toList.filter (fun e => e ≠ {})

/-- The slots `self` must keep in sync: not empty and not itself. After a
    takeover `self` may sit in any slot. -/
def peerSlots (r : ReplicaSet) (self : Endpoint) : List (Nat × Endpoint) :=
  r.slots.filter (fun s => s.2 ≠ {} ∧ s.2 ≠ self)

end ReplicaSet

/-- A job's fixed description and its replicated dynamic state. -/
structure Job where
  id : JobId
  idemKey : Bytes
  url : Bytes
  body : Bytes
  visibilityMs : Nat
  maxAttempts : Nat
  replicas : ReplicaSet
  state : JobState
  owner : Endpoint
  epoch : Nat
  leaseSeq : Nat
  attempts : Nat
deriving DecidableEq, Repr, Inhabited

namespace Job

/-- The peers `self` keeps in sync for this job. -/
def peers (j : Job) (self : Endpoint) : List (Nat × Endpoint) :=
  j.replicas.peerSlots self

/-- Done or parked: nothing is leased any more. -/
def terminal (j : Job) : Bool :=
  j.state = .done || j.state = .deadLetter

end Job

/-- Whether the remote copy strictly advances the local one. -/
def jobAdvances (loc rem : Job) : Bool :=
  if rem.epoch ≠ loc.epoch then
    decide (loc.epoch < rem.epoch)
  else if decide (rem.state = .done) ≠ decide (loc.state = .done) then
    decide (rem.state = .done)
  else if decide (rem.state = .deadLetter) ≠ decide (loc.state = .deadLetter) then
    decide (rem.state = .deadLetter)
  else if rem.leaseSeq ≠ loc.leaseSeq then
    decide (loc.leaseSeq < rem.leaseSeq)
  else
    decide (rem.state = .leased) && decide (loc.state = .ready)

/-- Length limits a submit is checked against. -/
def kMaxIdemKey : Nat := 64

/-- The longest destination url. -/
def kMaxUrl : Nat := 256

/-- The longest payload. -/
def kMaxJobBody : Nat := 640

end Tautq
