import Tautq.Theory.Wal

/-!
# The Log Is a Durable List

What the log is for, and that it is that. A `Ledger` is a list of bodies of which a
number is durable. An append adds a body and, when it syncs, makes the whole list
durable. A crash takes the list back to a prefix that has every durable body. An
append that fails can still have added its body, and after a failure nothing is
added until the log is opened again. Opening replays the list.

A machine runs the log itself: it is opened, appended to and synced, with any segment
size and any fate of every system call, and it is killed or loses power at any time.
A loss of power keeps every file that has synced bytes, with those bytes, and any
prefix of the others.

Every run of the machine is a run of a ledger with the same events: what is
acknowledged is added, and what is replayed is the list.

## Main definitions

* `Ledger`, `Ledger.Step`, `Ledger.Runs`: A list of bodies with a durable prefix.
* `Machine`, `Machine.step`, `Machine.exec`: The log on a disk.
* `Machine.Keeps`: What a machine's disk and log have to do with a ledger.

## Theorems

* `Machine.Keeps.step`: A step of the machine is one of the ledger.
* `log_is_a_durable_list`: A run of the machine is a run of a ledger, and the next open
  replays what it holds.
-/

namespace Tautq

/-! ### The specification -/

/-- What a user of the log sees. -/
inductive Report where
  | opened (bodies : List Bytes) (nextLsn : Nat)
  | notOpened
  | appended (body : Bytes) (doSync : Bool)
  /-- The append returned false or did not return. -/
  | notAppended (body : Bytes)
  | synced
  | notSynced
  | killed
  | crashed
deriving DecidableEq, Repr, Inhabited

/-- A list of bodies, how many of them are durable, and whether it takes more. -/
structure Ledger where
  log : List Bytes := []
  durable : Nat := 0
  up : Bool := false

/-- What each event does to the list. -/
inductive Ledger.Step : Ledger → Report → Ledger → Prop where
  | opened (l : Ledger) : Step l (.opened l.log l.log.length) { l with up := true }
  | notOpened (l : Ledger) : Step l .notOpened { l with up := false }
  | appended (l : Ledger) (body : Bytes) (doSync : Bool) (hup : l.up = true) :
      Step l (.appended body doSync)
        { l with log := l.log ++ [body], durable := if doSync then l.log.length + 1 else l.durable }
  | refused (l : Ledger) (body : Bytes) (h : l.up = false ∨ ¬ Framable body) :
      Step l (.notAppended body) l
  /-- An append that failed: its body may be there all the same. -/
  | failed (l : Ledger) (body : Bytes) (log : List Bytes) (hlog : log = l.log ∨
      log = l.log ++ [body]) : Step l (.notAppended body) { l with log, up := false }
  | synced (l : Ledger) (hup : l.up = true) : Step l .synced { l with durable := l.log.length }
  | notSynced (l : Ledger) : Step l .notSynced { l with up := false }
  | killed (l : Ledger) : Step l .killed { l with up := false }
  | crashed (l : Ledger) (k : Nat) (hk : l.durable ≤ k) (hlen : k ≤ l.log.length) :
      Step l .crashed { log := l.log.take k, durable := k, up := false }

/-- A ledger's runs. -/
def Ledger.Runs (l : Ledger) : List Report → Ledger → Prop
  | [], l' => l' = l
  | e :: es, l' => ∃ l₁, l.Step e l₁ ∧ l₁.Runs es l'

/-! ### The machine -/

/-- A disk, and the log of the process that runs, if one does. -/
structure Machine where
  disk : Volume := {}
  wal : Option Wal := none

/-- What is done to the log. -/
inductive Op where
  | openLog (segmentBytes : Nat) (fates : List Fate)
  | append (body : Bytes) (doSync : Bool) (fates : List Fate)
  | sync (fates : List Fate)
  | kill
  | crash (l : Loss)

/-- A loss that keeps the files with synced bytes. -/
def Loss.keeping (l : Loss) (disk : Volume) : Loss where
  version := fun path =>
    match path with
    | [n] => if ((disk.files.get n).map File.safe).getD [] = [] then l.version path else 0
    | [g, n] =>
      if (((disk.dirs.get g).bind (Folder.get · n)).map File.safe).getD [] = [] then l.version path
      else 0
    | _ => l.version path
  bytes := l.bytes

namespace Machine

variable (crc : Bytes → UInt32)

def openLog (m : Machine) (segmentBytes : Nat) (fates : List Fate) : Report × Machine :=
  match Wal.openLog crc { segmentBytes } m.disk fates with
  | (some ⟨true, w, bodies⟩, disk, _) => (.opened bodies w.nextLsn, ⟨disk, some w⟩)
  | (_, disk, _) => (.notOpened, ⟨disk, none⟩)

def append (m : Machine) (w : Wal) (body : Bytes) (doSync : Bool) (fates : List Fate) :
    Report × Machine :=
  match w.append crc body doSync m.disk fates with
  | (some (true, w'), disk, _) => (.appended body doSync, ⟨disk, some w'⟩)
  | (some (false, w'), disk, _) => (.notAppended body, ⟨disk, some w'⟩)
  | (none, disk, _) => (.notAppended body, ⟨disk, none⟩)

def sync (m : Machine) (w : Wal) (fates : List Fate) : Report × Machine :=
  match w.sync m.disk fates with
  | (some (true, w'), disk, _) => (.synced, ⟨disk, some w'⟩)
  | (some (false, w'), disk, _) => (.notSynced, ⟨disk, some w'⟩)
  | (none, disk, _) => (.notSynced, ⟨disk, none⟩)

/-- One step. A log is opened by a new process, and used by one that opened it. -/
def step (m : Machine) : Op → Option (Report × Machine)
  | .openLog segmentBytes fates =>
    match m.wal with
    | none => some (m.openLog crc segmentBytes fates)
    | some _ => none
  | .append body doSync fates => m.wal.map (fun w => m.append crc w body doSync fates)
  | .sync fates => m.wal.map (fun w => m.sync w fates)
  | .kill => some (.killed, { m with wal := none })
  | .crash l => some (.crashed, { disk := m.disk.crash (l.keeping m.disk), wal := none })

/-- A run, with its events. -/
def exec (m : Machine) : List Op → Option (List Report × Machine)
  | [] => some ([], m)
  | op :: ops => (step crc m op).bind (fun r => (exec r.2 ops).map (fun x => (r.1 :: x.1, x.2)))

/-! ### The refinement -/

/-- What a machine has to do with a ledger: the disk replays to the list, and a log that is not
    stopped takes appends. -/
def Keeps (m : Machine) (l : Ledger) : Prop :=
  match m.wal with
  | none => l.up = false ∧ AtRest crc false true m.disk none l.log l.durable
  | some w => (l.up = true ∧ w.activeDir = none ∧ Live crc false true m.disk w l.log l.durable) ∨
      (l.up = false ∧ w.failed = true ∧ AtRest crc false true m.disk none l.log l.durable)

variable {crc} {m : Machine} {l : Ledger}

namespace Keeps

theorem init : Keeps crc {} {} :=
  ⟨rfl, ⟨rfl, fun _ => rfl⟩, fun _ _ _ hv => List.mem_singleton.mp hv, _, rfl,
    .bare (fun _ _ _ hv => List.mem_singleton.mp hv)⟩

/-- Whatever the process is doing, the disk replays to the list. -/
theorem atRest (h : Keeps crc m l) : AtRest crc false true m.disk none l.log l.durable := by
  unfold Keeps at h
  split at h
  · exact h.2
  · rcases h with ⟨_, hplace, hlive⟩ | ⟨_, _, hrest⟩
    · exact hplace ▸ hlive.atRest
    · exact hrest

theorem openLog (h : AtRest crc false true m.disk none l.log l.durable) (segmentBytes : Nat)
    (fates : List Fate) : ∃ l', l.Step (m.openLog crc segmentBytes fates).1 l' ∧
      Keeps crc (m.openLog crc segmentBytes fates).2 l' := by
  have hends :=
    openLog_ends (F := fun _ => True) (w := { segmentBytes }) h (by simp) (fun _ => rfl) rfl
  unfold Machine.openLog
  generalize hrun : Wal.openLog crc { segmentBytes } m.disk fates = out
  rcases out with ⟨o, disk, fs⟩
  rcases hends fates (fun _ _ => trivial) o disk fs hrun with ⟨_, hpost⟩
  cases o with
  | none => exact ⟨_, .notOpened l, rfl, hpost.2⟩
  | some r =>
    rcases r with ⟨ok, w, bodies⟩
    rcases hpost with ⟨hok, hbodies, hplace, _, hlive⟩ | ⟨hok, _, hrest⟩
    · cases hok
      cases hbodies
      dsimp only
      rw [hlive.nextLsn]
      exact ⟨_, .opened l, .inl ⟨rfl, hplace, hlive⟩⟩
    · cases hok
      exact ⟨_, .notOpened l, rfl, hrest⟩

theorem append {w : Wal} (h : Keeps crc m l) (hw : m.wal = some w) (body : Bytes) (doSync : Bool)
    (fates : List Fate) : ∃ l', l.Step (m.append crc w body doSync fates).1 l' ∧
      Keeps crc (m.append crc w body doSync fates).2 l' := by
  -- A refused append leaves everything as it is.
  have hrefuse : l.up = false ∨ ¬ Framable body → w.append crc body doSync = pure (false, w) →
      ∃ l', l.Step (m.append crc w body doSync fates).1 l' ∧
        Keeps crc (m.append crc w body doSync fates).2 l' := by
    intro hcause hpure
    refine ⟨l, ?_⟩
    unfold Machine.append
    rw [hpure]
    refine ⟨.refused l body hcause, ?_⟩
    unfold Keeps at h ⊢
    rw [hw] at h
    exact h
  by_cases hbody : Framable body
  swap
  · exact hrefuse (.inr hbody) (append_refused hbody doSync)
  unfold Keeps at h
  rw [hw] at h
  rcases h with ⟨hup, hplace, hlive⟩ | ⟨hdown, hfailed, _⟩
  swap
  · exact hrefuse (.inl hdown) (append_failed hfailed body doSync)
  have hends := append_ends (F := fun _ => True) hlive hbody (by simp) doSync
  unfold Machine.append
  generalize hrun : w.append crc body doSync m.disk fates = out
  rcases out with ⟨o, disk, fs⟩
  rcases hends fates (fun _ _ => trivial) o disk fs hrun with ⟨_, hpost⟩
  rw [hplace] at hpost
  cases o with
  | none =>
    rcases hpost with ⟨_, hrest | hrest⟩
    · exact ⟨_, .failed l body l.log (.inl rfl), rfl, hrest⟩
    · exact ⟨_, .failed l body (l.log ++ [body]) (.inr rfl), rfl, hrest⟩
  | some r =>
    rcases r with ⟨ok, w'⟩
    rcases hpost with ⟨hok, _, hplace', hlive'⟩ | ⟨hok, hfailed, hrest⟩
    · cases hok
      exact ⟨_, .appended l body doSync hup, .inl ⟨hup, hplace', hlive'⟩⟩
    · cases hok
      rcases hrest with hrest | ⟨_, hrest⟩
      · exact ⟨_, .failed l body l.log (.inl rfl), .inr ⟨rfl, hfailed, hrest⟩⟩
      · exact ⟨_, .failed l body (l.log ++ [body]) (.inr rfl), .inr ⟨rfl, hfailed, hrest⟩⟩

theorem sync {w : Wal} (h : Keeps crc m l) (hw : m.wal = some w) (fates : List Fate) :
    ∃ l', l.Step (m.sync w fates).1 l' ∧ Keeps crc (m.sync w fates).2 l' := by
  unfold Keeps at h
  rw [hw] at h
  rcases h with ⟨hup, hplace, closed, last, file, k, hrun, hlog, hd⟩ | ⟨hup, hfailed, hrest⟩
  · have hends := sync_ends (F := fun _ => True) hrun
    have hatRest := hrun.atRest hd
    rw [hplace, ← hlog] at hatRest
    unfold Machine.sync
    generalize hout : w.sync m.disk fates = out
    rcases out with ⟨o, disk, fs⟩
    rcases hends fates (fun _ _ => trivial) o disk fs hout with ⟨_, hpost⟩
    cases o with
    | none =>
      rcases hpost with ⟨rfl, _⟩
      exact ⟨_, .notSynced l, rfl, hatRest⟩
    | some r =>
      rcases hpost with ⟨rfl, hrun'⟩ | ⟨rfl, rfl, _⟩
      · refine ⟨_, .synced l hup, .inl ⟨hup, hplace, closed, last, _, _, hrun', hlog, ?_⟩⟩
        rw [hlog, List.length_append]
      · exact ⟨_, .notSynced l, .inr ⟨rfl, rfl, hatRest⟩⟩
  · -- A stopped log is not synced.
    unfold Machine.sync
    rw [sync_failed hfailed]
    exact ⟨_, .notSynced l, .inr ⟨rfl, hfailed, hrest⟩⟩

theorem crash (h : Keeps crc m l) (loss : Loss) : ∃ l', l.Step .crashed l' ∧
    Keeps crc { disk := m.disk.crash (loss.keeping m.disk), wal := none } l' := by
  have hkeep : ∀ d, m.disk.dir none = some d → KeepsSynced (loss.keeping m.disk) [] d := by
    intro d hd n f hf hsafe
    cases hd
    have hzero : (loss.keeping m.disk).version ([] ++ [n]) = 0 := by
      simp only [Loss.keeping, List.nil_append, hf, Option.map_some, Option.getD_some]
      exact if_neg hsafe
    rw [hzero]
    exact hf
  rcases h.atRest.crash (loss.keeping m.disk) (fun _ => hkeep) with ⟨k, hk, hlen, hrest⟩
  exact ⟨_, .crashed l k hk hlen, rfl, hrest⟩

/-- A step of the machine is one of the ledger. -/
theorem step {op : Op} {e : Report} {m' : Machine} (h : Keeps crc m l)
    (hstep : Machine.step crc m op = some (e, m')) : ∃ l', l.Step e l' ∧ Keeps crc m' l' := by
  cases op with
  | openLog segmentBytes fates =>
    cases hw : m.wal with
    | some w => simp [Machine.step, hw] at hstep
    | none =>
      simp only [Machine.step, hw, Option.some.injEq] at hstep
      have hopen := openLog h.atRest segmentBytes fates
      rwa [hstep] at hopen
  | append body doSync fates =>
    rcases Option.map_eq_some_iff.mp hstep with ⟨w, hw, heq⟩
    have happend := h.append hw body doSync fates
    rwa [heq] at happend
  | sync fates =>
    rcases Option.map_eq_some_iff.mp hstep with ⟨w, hw, heq⟩
    have hsync := h.sync hw fates
    rwa [heq] at hsync
  | kill =>
    cases hstep
    exact ⟨_, .killed l, rfl, h.atRest⟩
  | crash loss =>
    cases hstep
    exact h.crash loss

/-- And a run of the machine is one of the ledger. -/
theorem exec {ops : List Op} {es : List Report} {m' : Machine} (h : Keeps crc m l)
    (hrun : Machine.exec crc m ops = some (es, m')) : ∃ l', l.Runs es l' ∧ Keeps crc m' l' := by
  induction ops generalizing m l es with
  | nil =>
    cases hrun
    exact ⟨l, rfl, h⟩
  | cons op ops ih =>
    rcases Option.bind_eq_some_iff.mp hrun with ⟨⟨e, m₁⟩, hstep, hrest⟩
    rcases Option.map_eq_some_iff.mp hrest with ⟨⟨es', m₂⟩, hexec, heq⟩
    cases heq
    rcases h.step hstep with ⟨l₁, hl₁, hkeeps⟩
    rcases ih hkeeps hexec with ⟨l', hruns, hkeeps'⟩
    exact ⟨l', ⟨l₁, hl₁, hruns⟩, hkeeps'⟩

/-- An open in which no call fails succeeds and replays the list. -/
theorem reopen (h : Keeps crc m l) (hw : m.wal = none) (segmentBytes : Nat) :
    ∃ m', Machine.step crc m (.openLog segmentBytes []) =
    some (.opened l.log l.log.length, m') := by
  rcases openLog_run h.atRest segmentBytes with ⟨w, disk, fs, hrun, hlive⟩
  refine ⟨⟨disk, some w⟩, ?_⟩
  simp only [Machine.step, hw, Machine.openLog, hrun]
  rw [hlive.nextLsn]

end Keeps

end Machine

/-- Every run of the log is a run of a durable list: what is acknowledged is added, and what is
    replayed is the list. The next open succeeds and replays what the list holds. -/
theorem log_is_a_durable_list (crc : Bytes → UInt32) (ops : List Op)
    {events : List Report} {m : Machine} (hrun : Machine.exec crc {} ops = some (events, m)) :
    ∃ l, Ledger.Runs {} events l ∧ (m.wal = none → ∀ segmentBytes, ∃ m',
      Machine.step crc m (.openLog segmentBytes []) = some (.opened l.log l.log.length, m')) := by
  rcases Machine.Keeps.init.exec hrun with ⟨l, hl, hkeeps⟩
  exact ⟨l, hl, fun hw segmentBytes => hkeeps.reopen hw segmentBytes⟩

/-- A crash cuts the third frame, after a rotation; the fourth body takes its place. -/
theorem log_is_a_durable_list_cut :
    let crc : Bytes → UInt32 := fun b => UInt32.ofNat b.length
    let ops : List Op :=
      [.openLog 20 [], .append [1] true [], .append [2, 2] true [], .append [3] false [],
      .crash ⟨fun _ => 0, fun _ => 5⟩, .openLog 20 [], .append [4] true [], .kill]
    ∃ m l, Machine.exec crc {} ops = some ([.opened [] 0, .appended [1] true, .appended [2, 2] true,
      .appended [3] false, .crashed, .opened [[1], [2, 2]] 2, .appended [4] true, .killed], m) ∧
      ∃ m', Machine.step crc m (.openLog 20 []) = some (.opened l (l.length), m') := by
  intro crc ops
  have hevents : (Machine.exec crc {} ops).map Prod.fst = some [.opened [] 0, .appended [1] true,
      .appended [2, 2] true, .appended [3] false, .crashed, .opened [[1], [2, 2]] 2,
      .appended [4] true, .killed] := by decide +kernel
  rcases Option.map_eq_some_iff.mp hevents with ⟨⟨events, m⟩, hexec, rfl⟩
  have hdown : (Machine.exec crc {} ops).all (fun x => x.2.wal = none) = true := by decide +kernel
  rw [hexec] at hdown
  rcases log_is_a_durable_list crc ops hexec with ⟨l, _, hnext⟩
  exact ⟨m, l.log, hexec, hnext (of_decide_eq_true hdown) 20⟩

end Tautq
