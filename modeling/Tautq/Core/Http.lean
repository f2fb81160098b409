import Mathlib.Data.List.AList
import Tautq.Core.Job
import Tautq.Lib.Text

/-!
# The HTTP Server and Client

The node's HTTP server reads requests from the bytes a connection has brought so far. It
parses from the start of its buffer, whenever bytes arrive and no handler is at work and
again after every response. A handler answers at once or keeps its `Respond` for later;
meanwhile the connection only buffers.

The client of the worker sends one request with `Connection: close`, reads to the end of
the stream and parses the response. Both parsers split their header lines alike.

A loop of the source over the lines of a block or the pairs of a query is a fold over the
block's lines or the query's pieces: the pieces are the substrings the loop's indices cut
out, and an empty piece has no effect.

## Main definitions

* `parse`: What a buffer holds: a request, nothing whole yet, or something malformed.
* `render`, `httpFetch`: A response as it is written, and as the client reads it.
* `Server`, `Conn`, `tryParse`, `sendResponse`, `connReady`: One connection of the server.
* `Event`, `Conn.after`: What happens to a connection, and a run of it.
-/

namespace Tautq.Http

/-- Query parameters or header fields by name. -/
abbrev Fields := AList (fun _ : Bytes => Bytes)

/-- A request; header names are in lower case. -/
structure Request where
  method : Bytes
  path : Bytes
  query : Fields
  headers : Fields
  body : Bytes

/-- What a handler responds. -/
structure Response where
  code : Nat
  contentType : Bytes
  body : Bytes
  extra : List (Bytes × Bytes) := []
deriving DecidableEq

def kMaxRequestBytes : Nat := 256 <<< 10

def lower (s : Bytes) : Bytes :=
  s.map fun c => if 65 ≤ c ∧ c ≤ 90 then c + 32 else c

/-- The value of a hexadecimal digit. -/
def hex (c : UInt8) : Option UInt8 :=
  if 48 ≤ c ∧ c ≤ 57 then some (c - 48)
  else if 97 ≤ c ∧ c ≤ 102 then some (c - 97 + 10)
  else if 65 ≤ c ∧ c ≤ 70 then some (c - 65 + 10)
  else none

/-- The byte an escape stands for: a percent sign and two digits. -/
def unescape (c h l : UInt8) : Option UInt8 :=
  if c = 37 then do return (← hex h) * 16 + (← hex l) else none

def urlDecode : Bytes → Bytes
  | [] => []
  | [c] => [if c = 43 then 32 else c]
  | [c, d] => [if c = 43 then 32 else c, if d = 43 then 32 else d]
  | c :: h :: l :: rest =>
    match unescape c h l with
    | some b => b :: urlDecode rest
    | none => (if c = 43 then 32 else c) :: urlDecode (h :: l :: rest)

/-- One piece of a query string: a pair, a bare name, or nothing. -/
def addPair (query : Fields) (kv : Bytes) : Fields :=
  match cut [61] kv with
  | some (k, v) => query.insert (urlDecode k) (urlDecode v)
  | none => if kv = [] then query else query.insert (urlDecode kv) []

def parseQuery (qs : Bytes) : Fields :=
  (qs.splitOn 38).foldl addPair ∅

/-- The method and the target of a request line: what is before its first space, and what is
    between that and its last. -/
def splitRequestLine (line : Bytes) : Option (Bytes × Bytes) :=
  match cut [32] line with
  | none => none
  | some (method, rest) =>
    match cut [32] rest.reverse with
    | none => none
    | some (_, target) => some (method, target.reverse)

/-- The path and the query of a target. -/
def splitTarget (target : Bytes) : Bytes × Fields :=
  match cut [63] target with
  | none => (urlDecode target, ∅)
  | some (path, qs) => (urlDecode path, parseQuery qs)

/-- One header line: a name up to the first colon, and a value behind any spaces. -/
def addHeader (headers : Fields) (line : Bytes) : Fields :=
  match cut [58] line with
  | none => headers
  | some (name, value) => headers.insert (lower name) (value.dropWhile (· = 32))

/-- The header lines of a block; of two lines with one name, the later one counts. -/
def parseHeaders (block : Bytes) : Fields :=
  (lines block).foldl addHeader ∅

/-- The length of the body a request announces. -/
def contentLength (headers : Fields) : Nat :=
  match headers.lookup (ascii "content-length") with
  | none => 0
  | some v => strtoul v

/-- The connection is kept for another request. -/
def keepAlive (req : Request) : Bool :=
  lower ((req.headers.lookup (ascii "connection")).getD (ascii "keep-alive")) ≠ ascii "close"

/-- What the buffer of a connection holds. -/
inductive Parsed where
  /-- No whole request yet. -/
  | incomplete
  /-- The connection is to be closed. -/
  | malformed
  /-- A request, and what is behind it. -/
  | request (req : Request) (rest : Bytes)

/-- The second half of `try_parse`'s reading: with the headers there, wait for the body. -/
def parseBody (method target : Bytes) (headers : Fields) (rest : Bytes) : Parsed :=
  if kMaxRequestBytes < contentLength headers then .malformed
  else if rest.length < contentLength headers then .incomplete
  else .request
    { method
      path := (splitTarget target).1
      query := (splitTarget target).2
      headers
      body := rest.take (contentLength headers) }
    (rest.drop (contentLength headers))

/-- Parse a head and its request line. The header block reaches from behind the line to the
    end of the head. -/
def parseHead (head line rest : Bytes) : Parsed :=
  match splitRequestLine line with
  | none => .malformed
  | some (method, target) =>
    parseBody method target (parseHeaders (head.drop (line.length + 2))) rest

/-- Parse a buffer from its start. The head reaches to the first empty line. -/
def parse (buf : Bytes) : Parsed :=
  match cut (crlf ++ crlf) buf, cut crlf buf with
  | some (head, rest), some (line, _) => parseHead head line rest
  | _, _ => .incomplete

def reason (code : Nat) : Bytes :=
  if code = 200 then ascii "OK"
  else if code = 201 then ascii "Created"
  else if code = 202 then ascii "Accepted"
  else if code = 204 then ascii "No Content"
  else if code = 400 then ascii "Bad Request"
  else if code = 404 then ascii "Not Found"
  else if code = 409 then ascii "Conflict"
  else if code = 429 then ascii "Too Many Requests"
  else if code = 500 then ascii "Internal Server Error"
  else if code = 503 then ascii "Service Unavailable"
  else ascii "OK"

/-- The lines every response starts with, cut to the 256 bytes of their C string. -/
def responseHead (keepAlive : Bool) (r : Response) : Bytes :=
  (ascii "HTTP/1.1 " ++ decimal r.code ++ ascii " " ++ reason r.code ++ crlf ++
    ascii "Content-Type: " ++ r.contentType ++ crlf ++
    ascii "Content-Length: " ++ decimal r.body.length ++ crlf ++
    ascii "Connection: " ++ (if keepAlive then ascii "keep-alive" else ascii "close") ++
      crlf).take 255

/-- A response as it is written. -/
def render (keepAlive : Bool) (r : Response) : Bytes :=
  responseHead keepAlive r ++ (r.extra.map fun h => h.1 ++ ascii ": " ++ h.2 ++ crlf).flatten ++
    crlf ++ r.body

/-- A response as the client reads it; the code is zero if there is none. -/
structure HttpResponse where
  code : Int := 0
  headers : Fields := ∅
  body : Bytes := []

/-- The number at the start of a text, for numbers that fit an `int`. -/
def atoi (s : Bytes) : Int :=
  match scanNumber s with
  | none => 0
  | some (neg, n) => if neg then -n else n

/-- Parse all that the server has sent. -/
def httpFetch (resp : Bytes) : HttpResponse :=
  match cut (crlf ++ crlf) resp, cut crlf resp with
  | some (head, body), some (line, _) =>
    if resp.length < 12 then {}
    else
      { code := atoi (resp.drop 9)
        headers := parseHeaders (head.drop (line.length + 2))
        body }
  | _, _ => {}

/-- The handler of a route. Given the requests of a connection, the one to handle last, it
    responds at once or keeps its `Respond` for later. -/
abbrev Handler := List Request → Option Response

/-- How the socket takes what is written: all of it, or some bytes before it is full or
    fails. -/
inductive Write where
  | full
  | block (k : Nat)
  | fail (k : Nat)

/-- The server: its routes, the longest first, and how the socket of a connection takes the
    response to the last of its requests. -/
structure Server where
  routes : List (Bytes × Handler) := []
  write : List Request → Write := fun _ => .full

/-- Add a route, and sort the routes by length. -/
def route {H : Type} (method pre : Bytes) (h : H) (routes : List (Bytes × H)) :
    List (Bytes × H) :=
  (routes ++ [(method ++ ascii " " ++ pre, h)]).insertionSort fun a b => a.1.length ≥ b.1.length

/-- The first route whose key is a prefix of the method and the path. -/
def findRoute {H : Type} (routes : List (Bytes × H)) (req : Request) : Option H :=
  (routes.find? fun r => r.1.isPrefixOf (req.method ++ ascii " " ++ req.path)).map (·.2)

/-- One connection. A handler at work holds a `Respond`, which knows whether the connection
    is kept; the requests handed to handlers and the bytes sent are its history. -/
structure Conn where
  inp : Bytes := []
  out : Bytes := []
  closeAfterWrite : Bool := false
  awaitingHandler : Option Bool := none
  isOpen : Bool := true
  dispatched : List Request := []
  sent : Bytes := []

namespace Conn

def closeConn (c : Conn) : Conn :=
  { c with isOpen := false }

/-- All that was to be written is written. -/
def drained (c : Conn) : Conn :=
  { c with sent := c.sent ++ c.out, out := [], isOpen := c.isOpen && !c.closeAfterWrite }

def flush (c : Conn) : Write → Conn
  | .full => c.drained
  | .block k =>
    if c.out.length ≤ k then c.drained
    else { c with sent := c.sent ++ c.out.take k, out := c.out.drop k }
  | .fail k => if c.out.length ≤ k then c.drained else c.closeConn

/-- The first half of `send_response`: queue the response, and release the connection. -/
def queue (c : Conn) (keepAlive : Bool) (r : Response) : Conn :=
  { c with
    out := c.out ++ render keepAlive r
    closeAfterWrite := !keepAlive
    awaitingHandler := none }

/-- Read until the socket has no more, or until the buffer is too long. -/
def read (c : Conn) : List Bytes → Conn
  | [] => c
  | buf :: bufs =>
    let c := { c with inp := c.inp ++ buf }
    if kMaxRequestBytes < c.inp.length then c.closeConn else c.read bufs

@[simp] theorem inp_drained (c : Conn) : c.drained.inp = c.inp := rfl

@[simp] theorem inp_flush (c : Conn) (w : Write) : (c.flush w).inp = c.inp := by
  cases w with
  | full => exact c.inp_drained
  | block k =>
    rw [flush]
    split
    · exact c.inp_drained
    · rfl
  | fail k =>
    rw [flush]
    split
    · exact c.inp_drained
    · rfl

@[simp] theorem inp_queue (c : Conn) (keepAlive : Bool) (r : Response) :
    (c.queue keepAlive r).inp = c.inp := rfl

end Conn

theorem parseBody_shorter {method target rest rest' : Bytes} {headers : Fields} {req : Request}
    (h : parseBody method target headers rest = .request req rest') :
    rest'.length ≤ rest.length := by
  unfold parseBody at h
  split at h
  · cases h
  · split at h
    · cases h
    · rw [← (Parsed.request.inj h).2, List.length_drop]
      omega

theorem parseHead_shorter {head line rest rest' : Bytes} {req : Request}
    (h : parseHead head line rest = .request req rest') : rest'.length ≤ rest.length := by
  unfold parseHead at h
  split at h
  · cases h
  · exact parseBody_shorter h

/-- A request takes bytes from the buffer. -/
theorem parse_shorter {buf rest : Bytes} {req : Request} (h : parse buf = .request req rest) :
    rest.length < buf.length := by
  unfold parse at h
  split at h
  · rename_i head tail line after hhead hline
    have hlen := congrArg List.length (eq_of_cut hhead)
    simp only [List.length_append, crlf, List.length_cons, List.length_nil] at hlen
    have hle := parseHead_shorter h
    omega
  · cases h

mutual

/-- Parse a request from the buffer and hand it to the handler of its route. -/
def tryParse (srv : Server) (c : Conn) : Conn :=
  match h : parse c.inp with
  | .incomplete => c
  | .malformed => c.closeConn
  | .request req rest =>
    have := parse_shorter h
    let c' := { c with
      inp := rest
      awaitingHandler := some (keepAlive req)
      dispatched := c.dispatched ++ [req] }
    match findRoute srv.routes req with
    | none => sendResponse srv c' (keepAlive req)
        { code := 404, contentType := ascii "text/plain", body := ascii "not found\n" }
    | some handler =>
      match handler c'.dispatched with
      | none => c'
      | some r => sendResponse srv c' (keepAlive req) r
termination_by 2 * c.inp.length

/-- Respond, and go on with a request that is already buffered. -/
def sendResponse (srv : Server) (c : Conn) (keepAlive : Bool) (r : Response) : Conn :=
  let c' := (c.queue keepAlive r).flush (srv.write c.dispatched)
  if c'.isOpen ∧ c'.awaitingHandler = none ∧ c'.inp ≠ [] then tryParse srv c' else c'
termination_by 2 * c.inp.length + 1
decreasing_by
  simp only [Conn.inp_flush, Conn.inp_queue]
  omega

end

/-- What a connection is ready for: it has hung up, it has brought buffers and perhaps its
    end, it takes bytes again. -/
structure Ready where
  hangup : Bool := false
  input : Option (List Bytes × Bool) := none
  output : Option Write := none

/-- Write on, if the connection is there and takes bytes. -/
def Conn.writeOn (c : Conn) : Option Write → Conn
  | none => c
  | some w => if c.isOpen then c.flush w else c

def connReady (srv : Server) (c : Conn) (ev : Ready) : Conn :=
  if c.isOpen = false then c
  else if ev.hangup then c.closeConn
  else
    match ev.input with
    | none => c.writeOn ev.output
    | some (bufs, eof) =>
      let c := c.read bufs
      if c.isOpen = false then c
      else if eof then c.closeConn
      else
        match c.awaitingHandler with
        | none => (tryParse srv c).writeOn ev.output
        | some _ => c.writeOn ev.output

/-- What happens to a connection: its socket is ready, or a handler responds at last. -/
inductive Event where
  | ready (ev : Ready)
  | respond (r : Response)

/-- One event. A response of a handler to a connection that is gone is dropped. -/
def Conn.step (srv : Server) (c : Conn) : Event → Conn
  | .ready ev => connReady srv c ev
  | .respond r =>
    match c.isOpen, c.awaitingHandler with
    | true, some keepAlive => sendResponse srv c keepAlive r
    | _, _ => c

/-- A connection after some events. -/
def Conn.after (srv : Server) (events : List Event) : Conn :=
  events.foldl (Conn.step srv) {}

end Tautq.Http
