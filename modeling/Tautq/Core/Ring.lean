import Mathlib.Data.List.Sort
import Tautq.Core.Job

/-!
# The Ring

Consistent hashing over a list of endpoints. Each endpoint sits at the
position its mixed key gives it, ties broken by the key itself, and a
submission key walks clockwise from its hash to the first endpoint at or
after it, wrapping at the end.

The configured membership fixes the idempotency owner of a key; the replica
set of a job is taken over the members alive when it is submitted.

## Main definitions

* `mix`, `hashKey`: The two 64-bit hashes.
* `less`, `positions`: The ring order and the endpoints in it.
* `start`, `clockwise`: Where a key's walk begins and whom it meets.
* `replicaSet`, `ownerFor`: The first three endpoints clockwise of a key.
-/

namespace Tautq

namespace Ring

/-- The splitmix64 finaliser, on 64-bit words. -/
def mix (x : Nat) : Nat :=
  let x := (x + 0x9E3779B97F4A7C15) % 2 ^ 64
  let x := (x ^^^ x >>> 30) * 0xBF58476D1CE4E5B9 % 2 ^ 64
  let x := (x ^^^ x >>> 27) * 0x94D049BB133111EB % 2 ^ 64
  x ^^^ x >>> 31

/-- FNV-1a over the key's bytes. -/
def hashKey (key : Bytes) : Nat :=
  key.foldl (fun h c => (h ^^^ c.toNat) * 0x100000001B3 % 2 ^ 64) 0xCBF29CE484222325

/-- The strict ring order: by mixed position, then by key. -/
def less (a b : Endpoint) : Bool :=
  if mix (ekey a) ≠ mix (ekey b) then decide (mix (ekey a) < mix (ekey b))
  else decide (ekey a < ekey b)

/-- The endpoints in ring order. -/
def positions (nodes : List Endpoint) : List Endpoint :=
  nodes.insertionSort (fun a b => less b a = false)

/-- The first position not below the hash, or the start after wrapping. -/
def start (ps : List Endpoint) (kh : Nat) : Nat :=
  let s := (ps.takeWhile (fun e => decide (mix (ekey e) < kh))).length
  if s = ps.length then 0 else s

/-- The endpoint `i` places clockwise of the start, or an empty slot when the
    ring is shorter than that. -/
def clockwise (ps : List Endpoint) (s i : Nat) : Endpoint :=
  if i < ps.length then ps.getD ((s + i) % ps.length) {} else {}

/-- The first three endpoints clockwise of the key; empty slots where the
    list is shorter. -/
def replicaSet (key : Bytes) (nodes : List Endpoint) : ReplicaSet :=
  let ps := positions nodes
  let s := start ps (hashKey key)
  { first := clockwise ps s 0, second := clockwise ps s 1, third := clockwise ps s 2 }

/-- The owner of a key over a list of endpoints. -/
def ownerFor (key : Bytes) (nodes : List Endpoint) : Endpoint :=
  (replicaSet key nodes).first

end Ring

end Tautq
