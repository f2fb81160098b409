import Tautq.Core.Cluster
import Tautq.Core.Http

/-!
# The Node's Routes

What the node's process does with a request: it reads the parameters, hands an operation to
its queue node together with a callback, or responds itself. The callback responds when the
queue node has an answer, at once or later.

Three of the steps can throw: a number that is not one or too great, a map entry that is
not there, a substring from behind the end. No one catches what they throw, so the process
ends; `Abort` is that.

## Main definitions

* `fromHex`: The job id a text stands for.
* `stoul`, `qnum`, `valueAt`, `substr`: Steps that can throw.
* `Served`: What a handler did.
* `leaseReply`: What the callback of a lease responds.
* `Route`, `routes`, `serveRequest`: The handlers, and the one of a request.
-/

namespace Tautq.Http

/-! ### Texts -/

/-- The value of a digit that `to_hex` writes. -/
def lowerHex (c : UInt8) : Option Nat :=
  if 48 ≤ c ∧ c ≤ 57 then some (c.toNat - 48)
  else if 97 ≤ c ∧ c ≤ 102 then some (c.toNat - 97 + 10)
  else none

def fromHex (s : Bytes) : Option JobId := do
  guard (s.length = 32)
  let read := fun half : Bytes => half.foldlM (fun v c => (lowerHex c).map (v * 16 + ·)) 0
  return { origin := ← read (s.take 16), nonce := ← read (s.drop 16) }

/-- An endpoint as text. Its fields are in network order, read on a little-endian host. -/
def epStr (e : Endpoint) : Bytes :=
  let a := e.addr.toNat
  let p := e.port.toNat
  decimal (a % 256) ++ ascii "." ++ decimal (a / 2 ^ 8 % 256) ++ ascii "." ++
    decimal (a / 2 ^ 16 % 256) ++ ascii "." ++ decimal (a / 2 ^ 24) ++ ascii ":" ++
    decimal (p % 256 * 256 + p / 256)

/-! ### Steps that can throw -/

/-- An exception that leaves a handler. -/
inductive Abort where
  | invalidArgument
  | outOfRange
deriving DecidableEq

/-- The number at the start of a text. -/
def stoul (s : Bytes) : Except Abort Nat :=
  match scanNumber s with
  | none => .error .invalidArgument
  | some (neg, n) => if 2 ^ 64 ≤ n then .error .outOfRange else .ok (signed neg n)

/-- A numeric parameter, cast to 32 bits. -/
def qnum (r : Request) (k : Bytes) (dflt : Nat) : Except Abort Nat :=
  match r.query.lookup k with
  | none => .ok dflt
  | some v => (stoul v).map (· % 2 ^ 32)

/-- The entry of a map. -/
def valueAt (m : Fields) (k : Bytes) : Except Abort Bytes :=
  match m.lookup k with
  | none => .error .outOfRange
  | some v => .ok v

/-- The rest of a text from a position on. -/
def substr (s : Bytes) (pos : Nat) : Except Abort Bytes :=
  if s.length < pos then .error .outOfRange else .ok (s.drop pos)

/-- A text parameter, empty by default. -/
def textParam (r : Request) (k : Bytes) : Except Abort Bytes :=
  if (r.query.lookup k).isSome then valueAt r.query k else .ok []

/-! ### Responses -/

/-- A handler's work: the operation it handed to the queue node, whose callback holds the
    `Respond`, and the response it gave itself. -/
structure Served where
  input : Option Input := none
  response : Option Response := none

/-- A handler responds itself. -/
def respond (code : Nat) (contentType body : Bytes) : Served :=
  { response := some { code, contentType, body } }

def badId : Served :=
  respond 400 (ascii "text/plain") (ascii "bad id\n")

/-- The callback of a lease that was granted. -/
def leaseReply (g : LeaseGrant) : Response where
  code := 200
  contentType := ascii "application/octet-stream"
  body := g.body
  extra :=
    [(ascii "X-Tautq-Id", toHex g.id),
      (ascii "X-Tautq-Epoch", decimal g.epoch),
      (ascii "X-Tautq-Seq", decimal g.leaseSeq),
      (ascii "X-Tautq-Url", g.url),
      (ascii "X-Tautq-Key", g.idemKey),
      (ascii "X-Tautq-Attempt", decimal g.attempt),
      (ascii "X-Tautq-Visibility-Ms", decimal g.visibilityMs)]

/-! ### Handlers -/

def submitRoute (r : Request) : Except Abort Served := do
  let idemKey ← textParam r (ascii "key")
  let url ← textParam r (ascii "url")
  let visibilityMs ← qnum r (ascii "visibility_ms") 0
  let maxAttempts ← qnum r (ascii "max_attempts") 0
  return { input := some (.submit { idemKey, url, body := r.body, visibilityMs, maxAttempts }) }

def leaseRoute (r : Request) : Except Abort Served := do
  return { input := some (.lease (← qnum r (ascii "worker") 0)) }

/-- An ack of a job, if there is an id. -/
def ackJob (r : Request) : Option JobId → Except Abort Served
  | none => .ok badId
  | some id => do
      let result ← textParam r (ascii "result")
      let epoch ← qnum r (ascii "epoch") 0
      let seq ← qnum r (ascii "seq") 0
      return { input := some (.ack id epoch seq (result = ascii "ok")) }

def ackRoute (r : Request) : Except Abort Served :=
  if (r.query.lookup (ascii "id")).isNone then .ok badId
  else do ackJob r (fromHex (← valueAt r.query (ascii "id")))

/-- A status query of a job, if there is an id. -/
def statusJob : Option JobId → Except Abort Served
  | none => .ok badId
  | some id => .ok { input := some (.status id) }

def statusRoute (r : Request) : Except Abort Served := do
  statusJob (fromHex (← substr r.path (ascii "/v1/jobs/").length))

/-- The nodes that the membership reports alive. -/
def nodesRoute (alive : List Endpoint) (_ : Request) : Except Abort Served :=
  .ok (respond 200 (ascii "application/json")
    (ascii "[" ++ (ascii ",").intercalate
      (alive.map fun e => ascii "\x7b\"node\":\"" ++ epStr e ++ ascii "\"\x7d") ++ ascii "]\n"))

/-- A drain is begun and confirmed at once; its callback writes to the process's log. -/
def drainRoute (_ : Request) : Except Abort Served :=
  .ok { respond 202 (ascii "application/json") (ascii "\x7b\"status\":\"draining\"\x7d\n") with
    input := some .drain }

def healthzRoute (_ : Request) : Except Abort Served :=
  .ok (respond 200 (ascii "text/plain") (ascii "ok\n"))

/-- The counters as text; which ones there are is not modelled. -/
def metricsRoute (metrics : Bytes) (_ : Request) : Except Abort Served :=
  .ok (respond 200 (ascii "text/plain; version=0.0.4") metrics)

/-- The handlers. -/
inductive Route where
  | submit | lease | ack | status | nodes | drain | healthz | metrics
deriving DecidableEq

/-- The parameters a handler reads as numbers. -/
def Route.numbers : Route → List Bytes
  | .submit => [ascii "visibility_ms", ascii "max_attempts"]
  | .lease => [ascii "worker"]
  | .ack => [ascii "epoch", ascii "seq"]
  | .status | .nodes | .drain | .healthz | .metrics => []

def Route.handle (alive : List Endpoint) (metrics : Bytes) : Route → Request → Except Abort Served
  | .submit => submitRoute
  | .lease => leaseRoute
  | .ack => ackRoute
  | .status => statusRoute
  | .nodes => nodesRoute alive
  | .drain => drainRoute
  | .healthz => healthzRoute
  | .metrics => metricsRoute metrics

/-- The routes, in the order in which they are added. -/
def routes : List (Bytes × Route) :=
  let get := ascii "GET"
  let post := ascii "POST"
  [] |> route post (ascii "/v1/jobs") .submit
    |> route post (ascii "/v1/lease") .lease
    |> route post (ascii "/v1/ack") .ack
    |> route get (ascii "/v1/jobs/") .status
    |> route get (ascii "/v1/nodes") .nodes
    |> route post (ascii "/v1/drain") .drain
    |> route get (ascii "/healthz") .healthz
    |> route get (ascii "/metrics") .metrics

/-- Route a request and run its handler. -/
def serveRequest (alive : List Endpoint) (metrics : Bytes) (r : Request) : Except Abort Served :=
  match findRoute routes r with
  | none => .ok (respond 404 (ascii "text/plain") (ascii "not found\n"))
  | some h => h.handle alive metrics r

end Tautq.Http
