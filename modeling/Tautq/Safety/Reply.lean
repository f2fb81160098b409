import Tautq.Core.Routes
import Tautq.Lib.Assoc
import Tautq.Safety.Forward

/-!
# What a Worker Reads of Its Lease

The node answers a lease call with the job's body and puts everything else into header
lines. Their values are written as they are, and the client splits the head at line ends
and drops the spaces before a value. A text that has no line end and no space at its start
is read back as it was (`Legible`); any other is not.

Keys and urls come from clients, with no restriction but their length. A key with a line
end in it writes header lines of its own, and as later lines count, it can replace the
fields the worker reads (`reply_forged`). A lease reaches its worker intact exactly if the key
and the url of the job's submit are legible (`reply_intact`).

## Main definitions

* `Legible`: A text that a header line carries unchanged.
* `Response.Clean`: A response whose fields are legible.
* `Intact`: The client reads what was granted.

## Theorems

* `render_eq`: A response is a block of lines and a body.
* `httpFetch_render`: A clean response is read back.
* `legible_of_fetched`: What is read of a header line is legible.
* `granted_held`: A grant is about a copy its owner has held.
* `reply_forged`: A key that replaces the lease number.
* `reply_intact`: Legible keys and urls are read back, and no others.
-/

namespace Tautq.Http

/-! ### Responses that are read back -/

/-- A text that a header line carries unchanged. -/
def Legible (s : Bytes) : Prop :=
  ¬ crlf <:+: s ∧ s.head? ≠ some 32

instance (s : Bytes) : Decidable (Legible s) :=
  inferInstanceAs (Decidable (¬ crlf <:+: s ∧ s.head? ≠ some 32))

/-- Digits are legible. -/
theorem legible_of_digits {s : Bytes} (h : ∀ c ∈ s, 48 ≤ c) : Legible s := by
  refine ⟨free_of_not_mem fun hcr => absurd (h 13 hcr) (by decide), fun hhead => ?_⟩
  exact absurd (h 32 (List.mem_of_mem_head? hhead)) (by decide)

theorem legible_decimal (n : Nat) : Legible (decimal n) := by
  refine legible_of_digits fun c hc => ?_
  have hdigit := isDigit_of_mem_decimal hc
  simp only [isDigit, Bool.and_eq_true, decide_eq_true_eq] at hdigit
  exact hdigit.1

theorem le_hexDigit (n : Nat) : 48 ≤ hexDigit (n % 16) := by
  have hall : ∀ d < 16, 48 ≤ hexDigit d := by decide
  exact hall (n % 16) (Nat.mod_lt n (by decide))

theorem legible_toHex (id : JobId) : Legible (toHex id) := by
  have hpad : ∀ w n, ∀ c ∈ hexPad w n, 48 ≤ c := by
    intro w n c hc
    induction w with
    | zero => cases hc
    | succ w ih =>
      rcases List.mem_cons.mp hc with rfl | hc
      · exact le_hexDigit _
      · exact ih hc
  refine legible_of_digits fun c hc => ?_
  rcases List.mem_append.mp hc with hc | hc
  · exact hpad _ _ c hc
  · exact hpad _ _ c hc

/-- A header line as it is written. -/
def headerLine (h : Bytes × Bytes) : Bytes :=
  h.1 ++ ascii ": " ++ h.2

/-- A name that a header line carries: without a colon and without a line end. -/
def IsName (k : Bytes) : Prop :=
  58 ∉ k ∧ ¬ crlf <:+: k

instance (k : Bytes) : Decidable (IsName k) :=
  inferInstanceAs (Decidable (58 ∉ k ∧ ¬ crlf <:+: k))

theorem headerLine_free {h : Bytes × Bytes} (hname : IsName h.1) (hvalue : Legible h.2) :
    ¬ crlf <:+: headerLine h ∧ headerLine h ≠ [] := by
  have hline : headerLine h = h.1 ++ 58 :: ([] ++ 32 :: h.2) := by
    rw [headerLine, List.append_assoc]
    rfl
  rw [hline]
  refine ⟨free_append (by decide) (by decide) hname.2 ?_, by simp⟩
  exact free_append (by decide) (by decide) (by decide) hvalue.1

/-- A line is read as the field it was written for. -/
theorem addHeader_headerLine {h : Bytes × Bytes} (hname : IsName h.1) (hvalue : Legible h.2)
    (m : Fields) : addHeader m (headerLine h) = m.insert (lower h.1) h.2 := by
  have hline : headerLine h = h.1 ++ 58 :: 32 :: h.2 := by
    rw [headerLine, List.append_assoc]
    rfl
  have hspaces : (32 :: h.2).dropWhile (· = 32) = h.2 := by
    rw [List.dropWhile_cons_of_pos (by simp)]
    rcases hv : h.2 with _ | ⟨c, v⟩
    · rfl
    · refine List.dropWhile_cons_of_neg fun hc => hvalue.2 ?_
      rw [hv, of_decide_eq_true hc]
      rfl
  rw [addHeader, hline, cut_singleton hname.1]
  simp only [hspaces]

def statusLine (code : Nat) : Bytes :=
  ascii "HTTP/1.1 " ++ decimal code ++ ascii " " ++ reason code

/-- The fields of a response, in the order of their lines. -/
def Response.fields (keepAlive : Bool) (r : Response) : List (Bytes × Bytes) :=
  [(ascii "Content-Type", r.contentType), (ascii "Content-Length", decimal r.body.length),
    (ascii "Connection", if keepAlive then ascii "keep-alive" else ascii "close")] ++ r.extra

/-- A response whose fields are legible, and whose content type is of ordinary length. -/
structure Response.Clean (r : Response) : Prop where
  code : r.code < 10 ^ 20
  short : r.contentType.length ≤ 100
  type : Legible r.contentType
  extra : ∀ h ∈ r.extra, IsName h.1 ∧ Legible h.2

theorem length_reason_le (code : Nat) : (reason code).length ≤ 21 ∧ 13 ∉ reason code := by
  have hite : ∀ {p : Prop} [Decidable p] {a b : Bytes}, a.length ≤ 21 ∧ 13 ∉ a →
      b.length ≤ 21 ∧ 13 ∉ b → (if p then a else b).length ≤ 21 ∧ 13 ∉ (if p then a else b) := by
    intro p _ a b ha hb
    by_cases hp : p
    · rw [if_pos hp]
      exact ha
    · rw [if_neg hp]
      exact hb
  unfold reason
  repeat' refine hite ?_ ?_
  all_goals decide

theorem statusLine_free (code : Nat) : ¬ crlf <:+: statusLine code ∧ statusLine code ≠ [] := by
  refine ⟨?_, by simp [statusLine, ascii]⟩
  have hline : statusLine code = ascii "HTTP/1.1" ++ 32 :: (decimal code ++ 32 :: reason code) := by
    rw [statusLine, List.append_assoc, List.append_assoc]
    rfl
  rw [hline]
  refine free_append (by decide) (by decide) (by decide) ?_
  exact free_append (by decide) (by decide) (legible_decimal code).1
    (free_of_not_mem (length_reason_le code).2)

/-- The head fits its C string. -/
theorem responseHead_eq {r : Response} (h : r.Clean) (keepAlive : Bool) :
    responseHead keepAlive r = statusLine r.code ++ crlf ++
      (((r.fields keepAlive).take 3).map fun f => headerLine f ++ crlf).flatten := by
  have hcode := length_decimal_le r.code
  have hreason := (length_reason_le r.code).1
  have hlen := length_decimal_le r.body.length
  have htype := h.short
  have hconn : (if keepAlive then ascii "keep-alive" else ascii "close").length ≤ 10 := by
    cases keepAlive <;> decide
  rw [responseHead, List.take_of_length_le]
  · have hsplit : ascii "Content-Type: " = ascii "Content-Type" ++ ascii ": " ∧
        ascii "Content-Length: " = ascii "Content-Length" ++ ascii ": " ∧
        ascii "Connection: " = ascii "Connection" ++ ascii ": " := by decide
    rw [hsplit.1, hsplit.2.1, hsplit.2.2]
    simp only [statusLine, Response.fields, headerLine, List.cons_append, List.take_succ_cons,
      List.take_zero, List.map_cons, List.map_nil, List.flatten_cons, List.flatten_nil,
      List.append_assoc, List.append_nil]
  · have hfixed : (ascii "HTTP/1.1 ").length = 9 ∧ (ascii " ").length = 1 ∧ crlf.length = 2 ∧
        (ascii "Content-Type: ").length = 14 ∧ (ascii "Content-Length: ").length = 16 ∧
        (ascii "Connection: ").length = 12 := by decide
    simp only [List.length_append, hfixed]
    omega

/-- A response is a block of lines and a body. -/
theorem render_eq {r : Response} (h : r.Clean) (keepAlive : Bool) :
    render keepAlive r =
    crlf.intercalate (statusLine r.code :: (r.fields keepAlive).map headerLine) ++
      (crlf ++ (crlf ++ r.body)) := by
  rw [render, responseHead_eq h, ← List.append_assoc, intercalate_append]
  simp [Response.fields, headerLine, Function.comp_def]

/-- Every field of a clean response is legible. -/
theorem Response.Clean.fields {r : Response} (h : r.Clean) (keepAlive : Bool) :
    ∀ f ∈ r.fields keepAlive, IsName f.1 ∧ Legible f.2 := by
  intro f hf
  have hnames : IsName (ascii "Content-Type") ∧ IsName (ascii "Content-Length") ∧
      IsName (ascii "Connection") := by decide
  rcases List.mem_append.mp hf with hf | hf
  · simp only [List.mem_cons, List.not_mem_nil, or_false] at hf
    rcases hf with rfl | rfl | rfl
    · exact ⟨hnames.1, h.type⟩
    · exact ⟨hnames.2.1, legible_decimal _⟩
    · refine ⟨hnames.2.2, ?_⟩
      cases keepAlive <;> decide
  · exact h.extra f hf

theorem parseHeaders_intercalate {fs : List (Bytes × Bytes)} (hne : fs ≠ [])
    (h : ∀ f ∈ fs, IsName f.1 ∧ Legible f.2) :
    parseHeaders (crlf.intercalate (fs.map headerLine)) =
      (fs.map fun f => (lower f.1, f.2)).foldl (fun m f => m.insert f.1 f.2) ∅ := by
  have hlines : ∀ l ∈ fs.map headerLine, ¬ crlf <:+: l := by
    intro l hl
    rcases List.mem_map.mp hl with ⟨f, hf, rfl⟩
    exact (headerLine_free (h f hf).1 (h f hf).2).1
  rw [parseHeaders, lines_intercalate (by simpa using hne) hlines, List.foldl_map, List.foldl_map]
  refine List.foldl_ext _ _ _ fun m f hf => ?_
  exact addHeader_headerLine (h f hf).1 (h f hf).2 m

/-- A clean response is read back: its code, its fields and its body. -/
theorem httpFetch_render {r : Response} (h : r.Clean) (keepAlive : Bool) :
    httpFetch (render keepAlive r) =
      { code := r.code
        headers := ((r.fields keepAlive).map fun f => (lower f.1, f.2)).foldl
          (fun m f => m.insert f.1 f.2) ∅
        body := r.body } := by
  have hfields := h.fields keepAlive
  have hblock : ∀ l ∈ statusLine r.code :: (r.fields keepAlive).map headerLine,
      ¬ crlf <:+: l ∧ l ≠ [] := by
    intro l hl
    rcases List.mem_cons.mp hl with rfl | hl
    · exact statusLine_free r.code
    · rcases List.mem_map.mp hl with ⟨f, hf, rfl⟩
      exact headerLine_free (hfields f hf).1 (hfields f hf).2
  have hne : (r.fields keepAlive).map headerLine ≠ [] := by simp [Response.fields]
  have hhead := cut_block (List.cons_ne_nil _ _) hblock r.body
  have hline : ∃ t, cut crlf (render keepAlive r) = some (statusLine r.code, t) := by
    rw [render_eq h, List.intercalate_cons_of_ne_nil hne, List.append_assoc, List.append_assoc]
    exact ⟨_, cut_line (statusLine_free r.code).1 _⟩
  rcases hline with ⟨t, hline⟩
  rw [← render_eq h] at hhead
  -- The code stands behind the nine bytes of the version.
  have hcode : ∃ rest, (render keepAlive r).drop 9 = decimal r.code ++ 32 :: rest := by
    rw [render_eq h, List.intercalate_cons_of_ne_nil hne, statusLine]
    simp only [List.append_assoc]
    exact ⟨_, rfl⟩
  rcases hcode with ⟨rest, hcode⟩
  have hlong : ¬ (render keepAlive r).length < 12 := by
    have hdigits := List.length_pos_iff.mpr (decimal_ne_nil r.code)
    have hversion : (ascii "HTTP/1.1 ").length = 9 ∧ crlf.length = 2 := by decide
    rw [render_eq h, List.intercalate_cons_of_ne_nil hne, statusLine]
    simp only [List.length_append, hversion]
    omega
  have hdrop : (crlf.intercalate (statusLine r.code :: (r.fields keepAlive).map headerLine)).drop
      ((statusLine r.code).length + 2) =
      crlf.intercalate ((r.fields keepAlive).map headerLine) := by
    rw [List.intercalate_cons_of_ne_nil hne]
    exact List.drop_left' (by rw [List.length_append]; rfl)
  rw [httpFetch, hhead, hline]
  simp only
  rw [if_neg hlong, hdrop, parseHeaders_intercalate (by simp [Response.fields]) hfields,
    hcode, atoi, scanNumber_append (decimal_ne_nil _) (fun d hd => isDigit_of_mem_decimal hd) rfl,
    digitsFrom_decimal h.code]
  rfl

/-! ### Values that are read -/

/-- The value of a header line without a line end is legible. -/
theorem legible_addHeader {m : Fields} {line : Bytes} (hline : ¬ crlf <:+: line)
    (hm : ∀ k v, m.lookup k = some v → Legible v) :
    ∀ k v, (addHeader m line).lookup k = some v → Legible v := by
  intro k v hv
  unfold addHeader at hv
  rcases hcut : cut [58] line with _ | ⟨name, value⟩
  · rw [hcut] at hv
    exact hm k v hv
  · rw [hcut] at hv
    rcases lookup_insert_cases hv with ⟨-, rfl⟩ | ⟨-, hold⟩
    · have hvalue : value <:+: line := by
        rw [eq_of_cut hcut]
        exact (List.suffix_append _ value).isInfix
      refine ⟨fun hin => hline ((hin.trans (List.dropWhile_suffix _).isInfix).trans hvalue), ?_⟩
      intro hhead
      have hkept := List.head?_dropWhile_not (fun c : UInt8 => decide (c = 32)) value
      rw [hhead] at hkept
      exact absurd hkept (by decide)
    · exact hm k v hold

theorem legible_of_parseHeaders {block k v : Bytes} (h : (parseHeaders block).lookup k = some v) :
    Legible v := by
  have hfold : ∀ (ls : List Bytes) (m : Fields), (∀ l ∈ ls, ¬ crlf <:+: l) →
      (∀ k v, m.lookup k = some v → Legible v) →
      ∀ k v, (ls.foldl addHeader m).lookup k = some v → Legible v := by
    intro ls
    induction ls with
    | nil => exact fun m _ hm => hm
    | cons l ls ih =>
      intro m hls hm
      rw [List.forall_mem_cons] at hls
      exact ih (addHeader m l) hls.2 (legible_addHeader hls.1 hm)
  rcases lines_free block with ⟨l, ls, heq, _, hfree⟩
  rw [parseHeaders, heq] at h
  exact hfold (l :: ls) ∅ hfree (fun k v hv => by cases hv) k v h

/-- What a client reads of a header line is legible, whatever the response is. -/
theorem legible_of_fetched {resp k v : Bytes} (h : (httpFetch resp).headers.lookup k = some v) :
    Legible v := by
  unfold httpFetch at h
  split at h
  · split at h
    · cases h
    · exact legible_of_parseHeaders h
  · cases h

/-! ### Leases -/

/-- The client reads what was granted: the fields in the header lines, and the body. -/
structure Intact (g : LeaseGrant) (r : HttpResponse) : Prop where
  code : r.code = 200
  id : r.headers.lookup (ascii "x-tautq-id") = some (toHex g.id)
  epoch : r.headers.lookup (ascii "x-tautq-epoch") = some (decimal g.epoch)
  leaseSeq : r.headers.lookup (ascii "x-tautq-seq") = some (decimal g.leaseSeq)
  url : r.headers.lookup (ascii "x-tautq-url") = some g.url
  idemKey : r.headers.lookup (ascii "x-tautq-key") = some g.idemKey
  attempt : r.headers.lookup (ascii "x-tautq-attempt") = some (decimal g.attempt)
  visibilityMs : r.headers.lookup (ascii "x-tautq-visibility-ms") = some (decimal g.visibilityMs)
  body : r.body = g.body

/-- The names of a lease reply are names, and differ when they are read. -/
theorem leaseReply_names (g : LeaseGrant) :
    (∀ h ∈ (leaseReply g).extra, IsName h.1) ∧
      ∀ keepAlive,
      ((((leaseReply g).fields keepAlive).map fun f => (lower f.1, f.2)).map Prod.fst).Nodup := by
  constructor
  · have hnames : ∀ k ∈ (leaseReply g).extra.map Prod.fst, IsName k := by
      change ∀ k ∈ [ascii "X-Tautq-Id", ascii "X-Tautq-Epoch", ascii "X-Tautq-Seq",
        ascii "X-Tautq-Url", ascii "X-Tautq-Key", ascii "X-Tautq-Attempt",
        ascii "X-Tautq-Visibility-Ms"], IsName k
      decide
    exact fun h hh => hnames h.1 (List.mem_map_of_mem hh)
  · intro keepAlive
    change [lower (ascii "Content-Type"), lower (ascii "Content-Length"),
      lower (ascii "Connection"),
      lower (ascii "X-Tautq-Id"), lower (ascii "X-Tautq-Epoch"), lower (ascii "X-Tautq-Seq"),
      lower (ascii "X-Tautq-Url"), lower (ascii "X-Tautq-Key"), lower (ascii "X-Tautq-Attempt"),
      lower (ascii "X-Tautq-Visibility-Ms")].Nodup
    decide

theorem leaseReply_clean {g : LeaseGrant} (hkey : Legible g.idemKey) (hurl : Legible g.url) :
    (leaseReply g).Clean := by
  have hfixed : (ascii "application/octet-stream").length ≤ 100 ∧
      Legible (ascii "application/octet-stream") := by decide
  have hcode : (200 : Nat) < 10 ^ 20 := by norm_num
  refine ⟨hcode, hfixed.1, hfixed.2, fun h hh => ⟨(leaseReply_names g).1 h hh, ?_⟩⟩
  simp only [leaseReply, List.mem_cons, List.not_mem_nil, or_false] at hh
  rcases hh with rfl | rfl | rfl | rfl | rfl | rfl | rfl
  · exact legible_toHex _
  · exact legible_decimal _
  · exact legible_decimal _
  · exact hurl
  · exact hkey
  · exact legible_decimal _
  · exact legible_decimal _

/-- A lease with a legible key and a legible url is read back. -/
theorem intact_of_legible {g : LeaseGrant} (hkey : Legible g.idemKey) (hurl : Legible g.url)
    (keepAlive : Bool) : Intact g (httpFetch (render keepAlive (leaseReply g))) := by
  have hfetch := httpFetch_render (leaseReply_clean hkey hurl) keepAlive
  have hnodup := (leaseReply_names g).2 keepAlive
  have hfield : ∀ (i : Nat) k k' v, (leaseReply g).extra[i]? = some (k, v) → lower k = k' →
      (httpFetch (render keepAlive (leaseReply g))).headers.lookup k' = some v := by
    rintro i k _ v hkv rfl
    rw [hfetch]
    refine lookup_foldl_insert hnodup (List.mem_map.mpr ⟨(k, v), ?_, rfl⟩)
    exact List.mem_append_right _ (List.mem_of_getElem? hkv)
  exact
    { code := by rw [hfetch]; rfl
      id := hfield 0 _ _ _ rfl (by decide)
      epoch := hfield 1 _ _ _ rfl (by decide)
      leaseSeq := hfield 2 _ _ _ rfl (by decide)
      url := hfield 3 _ _ _ rfl (by decide)
      idemKey := hfield 4 _ _ _ rfl (by decide)
      attempt := hfield 5 _ _ _ rfl (by decide)
      visibilityMs := hfield 6 _ _ _ rfl (by decide)
      body := by rw [hfetch]; rfl }

end Tautq.Http

namespace Tautq

open Cluster Http

/-! ### Leases of a run -/

/-- A grant is about a copy that its owner has held. -/
theorem granted_held {K : Cond} {d : Deployment} :
    Always K d
    (fun w => ∀ e, ∀ (r : Record) (g : LeaseGrant) (at_ : Time), .granted r g at_ ∈ (w e).events →
      ∃ id j, g = Node.grantOf id j ∧ Held (w e).store.log id j) := by
  refine always_of_node (Q := fun _ n => ∀ (r : Record) (g : LeaseGrant) (at_ : Time),
    .granted r g at_ ∈ n.events →
      ∃ id j, g = Node.grantOf id j ∧ Held n.store.log id j)
    (fun _ h => h) (fun e => by simp [Deployment.init]) (fun {c e t m m'} hin hc hm _ hmove => ?_)
  intro r g at_ hev
  rcases hmove.event_cases hev with hold | hnew
  · rcases hm r g at_ hold with ⟨id, j, hg, hheld⟩
    exact ⟨id, j, hg, hheld.mono hmove.grows.log⟩
  · cases hnew with
    | idle _ h => cases h
    | grantAlone id l r' epoch s worker found owned begins peers stored =>
      cases begins with
      | lease _ trigger ready =>
        exact ⟨id, _, rfl, Node.held_of_find (Node.find_append found stored rfl)⟩
    | grant id id' slot member r' q s body epoch leaseSeq worker j answers state pending
        isLease found =>
      exact ⟨id', j, rfl, (Node.held_of_find found).mono hmove.grows.log⟩

namespace Trio

/-- A submit whose key goes on with a header line. -/
def forgedParams : SubmitParams where
  idemKey := ascii "a\r\nX-Tautq-Seq: 99"
  url := ascii "http://10.0.0.9/hook"
  body := [7]

/-- The job is leased for the first time. -/
def forged : List Act :=
  views ++
    [.does a (.submit forgedParams), .takes a 0, .takes a 1, .does a (.lease 7),
    .takes a 3, .takes c 1]

/-- What is handed out with that lease. -/
def forgedGrant : LeaseGrant :=
  { firstGrant with url := forgedParams.url, idemKey := forgedParams.idemKey }

end Trio

/-- The worker of lease 1 reads the number that the key brought, and half of the key. -/
theorem reply_forged :
    (∃ c, Trio.cluster.init.exec Trio.forged = some c ∧
      .granted (.lease Trio.job 1 1 7) Trio.forgedGrant 0 ∈ (c.node Trio.a).events) ∧
    Trio.forgedParams.admitted = true ∧
    (httpFetch (render false (leaseReply Trio.forgedGrant))).headers.lookup (ascii "x-tautq-seq") =
      some (ascii "99") ∧
    (httpFetch (render false (leaseReply Trio.forgedGrant))).headers.lookup (ascii "x-tautq-key") =
      some (ascii "a") :=
  ⟨run_shows (by decide +kernel), by decide +kernel, by decide +kernel, by decide +kernel⟩

/-- In every run, whatever lease is granted: its job was asked for by a submit of the run that
    was admitted, and the client reads the granted fields and the job's body exactly if the key
    and the url of that submit are legible. -/
theorem reply_intact {d : Deployment} {acts : List Act} {c : Cluster}
    (hrun : d.init.exec acts = some c) (e : Endpoint) (r : Record) (g : LeaseGrant) (at_ : Time)
    (hev : .granted r g at_ ∈ (c.node e).events) :
    ∃ x sched p, .input x sched (.submit p) ∈ acts ∧ p.admitted = true ∧
      g.idemKey = p.idemKey ∧ g.url = p.url ∧
      ∀ keepAlive, Intact g (httpFetch (render keepAlive (leaseReply g))) ↔
        Legible p.idemKey ∧ Legible p.url := by
  have hreach := Reach.of_inputs hrun (meets_true _ acts)
  rcases granted_held.reach hreach e r g at_ hev with ⟨id, j, rfl, hheld⟩
  rcases ((sane.reach hreach).held hheld).1.birth with ⟨b, ⟨x, hx⟩, hsame, _⟩
  rcases ((asked fun _ _ _ h p ht hadmitted => And.intro hadmitted (h.2 _ ht)).reach
    hreach x).minted b hx with ⟨p, ⟨hadmitted, y, sched, hmem⟩, hpurl, _, hpkey⟩
  have hkey : (Node.grantOf id j).idemKey = p.idemKey := hsame.idemKey.trans hpkey
  have hurl : (Node.grantOf id j).url = p.url := hsame.url.trans hpurl
  refine ⟨y, sched, p, hmem, hadmitted, hkey, hurl, fun keepAlive => ?_⟩
  rw [← hkey, ← hurl]
  constructor
  · exact fun h => ⟨legible_of_fetched h.idemKey, legible_of_fetched h.url⟩
  · exact fun h => intact_of_legible h.1 h.2 keepAlive

/-- A job with a legible key is leased twice. -/
theorem reply_intact_leasedTwice : ∃ c, Trio.cluster.init.exec Trio.leasedTwice = some c ∧
    .granted (.lease Trio.job 1 2 8) Trio.secondGrant 1000 ∈ (c.node Trio.a).events ∧
    Intact Trio.secondGrant (httpFetch (render false (leaseReply Trio.secondGrant))) := by
  have hshow : ∃ c, Trio.cluster.init.exec Trio.leasedTwice = some c ∧
      .granted (.lease Trio.job 1 2 8) Trio.secondGrant 1000 ∈ (c.node Trio.a).events :=
    run_shows (by decide +kernel)
  have hlegible : Legible Trio.secondGrant.idemKey ∧ Legible Trio.secondGrant.url := by decide
  rcases hshow with ⟨c, hc, hev⟩
  rcases reply_intact hc Trio.a _ _ _ hev with ⟨x, sched, p, -, -, hkey, hurl, hiff⟩
  rw [hkey, hurl] at hlegible
  exact ⟨c, hc, hev, (hiff false).mpr hlegible⟩

end Tautq
