import Tautq.Lib.Run
import Tautq.Safety.Durable
import Tautq.Theory.Compact

/-!
# Compaction Is Atomic

What a log with compactions is for. A `Journal` is a list of bodies like a `Ledger`,
and a compaction leaves it alone or replaces it by the snapshot. There is one state in
between: the pointer is renamed and the data directory is not synced. An open replays
the snapshot then, and a crash can go back to the list there was before; so nothing may
be acknowledged.

The log itself takes appends in that state once it is opened again, since opening does
not sync the data directory. In `acknowledged_append_lost` the sync after the rename
fails, the log is opened again and acknowledges an append, and a crash takes it away.
Where no log is opened in that state, every run of the log is a run of a journal.

The fates of a compaction's calls are arbitrary, and it can be killed at any of them;
the calls of the other operations do their work. Power can be lost at any time, and a
directory entry that was not synced can go back to what it was.

## Main definitions

* `Journal`, `Journal.Step`, `Journal.Runs`: A list of bodies that can be replaced.
* `Machine.Act`, `Traced`, `Traced.step`: The log on a disk, with what its user saw.
* `PointerSynced`: No log is opened while the pointer is not durable.

## Theorems

* `Traced.Holds.step`: A step of the log is one of the journal.
* `compaction_is_atomic`: A run is a run of a journal, the next open replays what it holds,
  and nothing is acknowledged while the pointer is not durable.
-/

namespace Tautq

/-! ### The specification -/

/-- What a user of the log sees. -/
inductive Note where
  | event (e : Report)
  | compacted (snapshot : List Bytes) (ok : Bool)
  /-- The compaction did not return. -/
  | cut (snapshot : List Bytes)
deriving DecidableEq, Repr, Inhabited

/-- A list of bodies, how many of them are durable, what a crash may go back to instead, and
    whether the list takes more. -/
structure Journal where
  log : List Bytes := []
  durable : Nat := 0
  fallback : Option (List Bytes) := none
  up : Bool := false

/-- Whether a note is the end of a compaction that did not succeed. -/
def Note.unfinished (S : List Bytes) (n : Note) : Prop :=
  n = .compacted S false ∨ n = .cut S

/-- What each event does to the list. -/
inductive Journal.Step : Journal → Note → Journal → Prop where
  | opened (j : Journal) : Step j (.event (.opened j.log j.log.length)) { j with up := true }
  /-- Nothing is acknowledged while the pointer can go back. -/
  | appended (j : Journal) (body : Bytes) (doSync : Bool) (hup : j.up = true)
      (hfirm : j.fallback = none) : Step j (.event (.appended body doSync))
        { j with log := j.log ++ [body], durable := if doSync then j.log.length + 1 else j.durable }
  | notAppended (j : Journal) (body : Bytes) (up : Bool) (hup : up = true → j.up = true) :
      Step j (.event (.notAppended body)) { j with up }
  | synced (j : Journal) (hup : j.up = true) :
      Step j (.event .synced) { j with durable := j.log.length }
  | notSynced (j : Journal) (hup : j.up = false) : Step j (.event .notSynced) j
  /-- The compaction came to nothing; it may have synced the log, or stopped it. -/
  | kept (j : Journal) (S : List Bytes) (n : Note) (hn : n.unfinished S) (durable : Nat) (up : Bool)
      (hdurable : durable = j.durable ∨ durable = j.log.length ∧ j.fallback = none)
      (hup : up = true → j.up = true) : Step j n { j with durable, up }
  /-- The pointer is renamed and not synced. -/
  | renamed (j : Journal) (S : List Bytes) (n : Note) (hn : n.unfinished S)
      (hfirm : j.fallback = none) :
      Step j n { log := S, durable := S.length, fallback := some j.log, up := false }
  | replaced (j : Journal) (S : List Bytes) (n : Note) (hn : n = .compacted S true ∨ n.unfinished S)
      (up : Bool) : Step j n { log := S, durable := S.length, fallback := none, up }
  | killed (j : Journal) : Step j (.event .killed) { j with up := false }
  | crashed (j : Journal) (k : Nat) (hk : j.durable ≤ k) (hlen : k ≤ j.log.length) :
      Step j (.event .crashed) { log := j.log.take k, durable := k, fallback := none, up := false }
  | wentBack (j : Journal) (L : List Bytes) (hL : j.fallback = some L) :
      Step j (.event .crashed) { log := L, durable := L.length, fallback := none, up := false }

/-- A journal's runs. -/
inductive Journal.Runs (j : Journal) : List Note → Journal → Prop where
  | nil : Runs j [] j
  | snoc {ns : List Note} {j₁ j₂ : Journal} {n : Note} (h : Runs j ns j₁) (hn : j₁.Step n j₂) :
      Runs j (ns ++ [n]) j₂

/-! ### The log -/

/-- What is done to the log. -/
inductive Machine.Act where
  | openLog (segmentBytes : Nat)
  | append (body : Bytes) (doSync : Bool)
  | sync
  | compact (snapshot : List Bytes) (fates : List Fate)
  | kill
  | crash (l : Loss)

namespace Machine

variable (crc : Bytes → UInt32)

def compact (m : Machine) (w : Wal) (S : List Bytes) (fates : List Fate) : Note × Machine :=
  match w.compact crc S m.disk fates with
  | (some (ok, w'), disk, _) => (.compacted S ok, ⟨disk, some w'⟩)
  | (none, disk, _) => (.cut S, ⟨disk, none⟩)

/-- One step of the log, with what its user sees. -/
def act (m : Machine) : Act → Option (Note × Machine)
  | .openLog segmentBytes =>
    match m.wal with
    | none => some ((m.openLog crc segmentBytes []).map .event id)
    | some _ => none
  | .append body doSync => m.wal.map (fun w => (m.append crc w body doSync []).map .event id)
  | .sync => m.wal.map (fun w => (m.sync w []).map .event id)
  | .compact S fates => m.wal.map (fun w => m.compact crc w S fates)
  | .kill => some (.event .killed, { m with wal := none })
  | .crash l => some (.event .crashed, { disk := m.disk.crash l, wal := none })

end Machine

/-- The log, and what its user saw. -/
structure Traced where
  machine : Machine := {}
  notes : List Note := []

namespace Traced

variable (crc : Bytes → UInt32)

def step (s : Traced) (a : Machine.Act) : Option Traced :=
  (s.machine.act crc a).map (fun r => ⟨r.2, s.notes ++ [r.1]⟩)

end Traced

/-- No log is opened while the pointer was renamed and its directory was not synced since. -/
def PointerSynced (s : Traced) : Machine.Act → Prop
  | .openLog _ => (s.machine.disk.files.entry kCurrent).past = []
  | _ => True

instance (s : Traced) : (a : Machine.Act) → Decidable (PointerSynced s a)
  | .openLog _ => inferInstanceAs (Decidable ((s.machine.disk.files.entry kCurrent).past = []))
  | .append _ _ => instDecidableTrue
  | .sync => instDecidableTrue
  | .compact _ _ => instDecidableTrue
  | .kill => instDecidableTrue
  | .crash _ => instDecidableTrue

/-! ### The refinement -/

namespace Machine

variable (crc : Bytes → UInt32)

/-- What a disk has to do with a journal. -/
def Lies (disk : Volume) (j : Journal) : Prop :=
  match j.fallback with
  | none => ∃ place, AtRest crc true true disk place j.log j.durable
  | some L => j.durable = j.log.length ∧ ∃ place dir, Between crc true true disk place L dir j.log

/-- What a machine has to do with a journal. -/
def Holds (m : Machine) (j : Journal) : Prop :=
  match m.wal with
  | none => j.up = false ∧ Lies crc m.disk j
  | some w => (j.up = true ∧ j.fallback = none ∧ Live crc true true m.disk w j.log j.durable) ∨
      (j.up = false ∧ w.failed = true ∧ Lies crc m.disk j)

variable {crc} {m : Machine} {j : Journal}

theorem lies_of_live {disk : Volume} {w : Wal} (hfirm : j.fallback = none)
    (h : Live crc true true disk w j.log j.durable) : Lies crc disk j := by
  unfold Lies
  rw [hfirm]
  exact ⟨_, h.atRest⟩

namespace Holds

theorem init : Holds crc {} {} :=
  ⟨rfl, none, ⟨rfl, fun _ => rfl⟩, fun _ _ _ hv => List.mem_singleton.mp hv, _, rfl,
    .bare (fun _ _ _ hv => List.mem_singleton.mp hv)⟩

theorem lies (h : Holds crc m j) : Lies crc m.disk j := by
  unfold Holds at h
  split at h
  · exact h.2
  · rcases h with ⟨_, hfirm, hlive⟩ | ⟨_, _, hlies⟩
    · exact lies_of_live hfirm hlive
    · exact hlies

/-- An open replays the list. -/
theorem openLog (h : Lies crc m.disk j) (segmentBytes : Nat) :
    ∃ w disk, m.openLog crc segmentBytes [] = (.opened j.log j.log.length, ⟨disk, some w⟩) ∧
      (j.fallback = none → Live crc true true disk w j.log j.durable) := by
  -- Where the pointer can still go back it counts as it is.
  have hrest : ∃ place, AtRest crc true (j.fallback.isNone) m.disk place j.log j.durable := by
    unfold Lies at h
    cases hf : j.fallback with
    | none =>
      rw [hf] at h
      exact h
    | some L =>
      rw [hf] at h
      rcases h with ⟨hd, place, dir, hbetween⟩
      exact ⟨some dir, hd ▸ hbetween.now.atRest⟩
  rcases hrest with ⟨place, hrest⟩
  rcases openLog_run hrest segmentBytes with ⟨w, disk, fs, hrun, hlive⟩
  refine ⟨w, disk, ?_, fun hf => ?_⟩
  · simp only [Machine.openLog, hrun]
    rw [hlive.nextLsn]
  · rw [hf] at hlive
    exact hlive

theorem append {w : Wal} (h : Holds crc m j) (hw : m.wal = some w) (body : Bytes) (doSync : Bool) :
    ∃ j', j.Step (.event (m.append crc w body doSync []).1) j' ∧
      Holds crc (m.append crc w body doSync []).2 j' := by
  have hrefuse : w.append crc body doSync = pure (false, w) →
      ∃ j', j.Step (.event (m.append crc w body doSync []).1) j' ∧
        Holds crc (m.append crc w body doSync []).2 j' := by
    intro hpure
    refine ⟨j, ?_⟩
    unfold Machine.append
    rw [hpure]
    refine ⟨.notAppended j body j.up id, ?_⟩
    unfold Holds at h ⊢
    rw [hw] at h
    exact h
  by_cases hbody : Framable body
  swap
  · exact hrefuse (append_refused hbody doSync)
  unfold Holds at h
  rw [hw] at h
  rcases h with ⟨hup, hfirm, hlive⟩ | ⟨_, hfailed, _⟩
  swap
  · exact hrefuse (append_failed hfailed body doSync)
  have hends := append_ends (F := fun _ => False) hlive hbody (fun _ _ hf => hf.elim) doSync
  unfold Machine.append
  generalize hrun : w.append crc body doSync m.disk [] = out
  rcases out with ⟨o, disk, fs⟩
  rcases hends [] (by simp) o disk fs hrun with ⟨_, hpost⟩
  cases o with
  | none => exact hpost.1.elim
  | some r =>
    rcases r with ⟨ok, w'⟩
    rcases hpost with ⟨hok, _, _, hlive'⟩ | ⟨hok, hfailed, hrest | ⟨hf, _⟩⟩
    · cases hok
      exact ⟨_, .appended j body doSync hup hfirm, .inl ⟨hup, hfirm, hlive'⟩⟩
    · -- The device is full.
      cases hok
      refine ⟨_, .notAppended j body false (by simp), .inr ⟨rfl, hfailed, ?_⟩⟩
      unfold Lies
      simp only [hfirm]
      exact ⟨_, hrest⟩
    · exact hf.elim

theorem sync {w : Wal} (h : Holds crc m j) (hw : m.wal = some w) :
    ∃ j', j.Step (.event (m.sync w []).1) j' ∧ Holds crc (m.sync w []).2 j' := by
  have hh := h
  unfold Holds at h
  rw [hw] at h
  rcases h with ⟨hup, hfirm, closed, last, file, k, hrun, hlog, hd⟩ | ⟨hup, hfailed, _⟩
  · have hends := sync_ends (F := fun _ => False) hrun
    unfold Machine.sync
    generalize hout : w.sync m.disk [] = out
    rcases out with ⟨o, disk, fs⟩
    rcases hends [] (by simp) o disk fs hout with ⟨_, hpost⟩
    cases o with
    | none => exact hpost.2.elim
    | some r =>
      rcases hpost with ⟨rfl, hrun'⟩ | ⟨_, _, hf⟩
      · refine ⟨_, .synced j hup, .inl ⟨hup, hfirm, closed, last, _, _, hrun', hlog, ?_⟩⟩
        rw [hlog, List.length_append]
      · exact hf.elim
  · unfold Machine.sync
    rw [sync_failed hfailed]
    refine ⟨j, .notSynced j hup, ?_⟩
    unfold Holds at hh ⊢
    rw [hw] at hh
    exact hh

theorem compact {w : Wal} (h : Holds crc m j) (hw : m.wal = some w) (S : List Bytes)
    (fates : List Fate) :
    ∃ j', j.Step (m.compact crc w S fates).1 j' ∧ Holds crc (m.compact crc w S fates).2 j' := by
  have hh := h
  unfold Holds at h
  rw [hw] at h
  rcases h with ⟨hup, hfirm, hlive⟩ | ⟨hup, hfailed, _⟩
  swap
  · -- A stopped log is not compacted.
    have hpure : w.compact crc S = pure (false, w) := if_pos (Or.inr (Or.inl hfailed))
    unfold Machine.compact
    rw [hpure]
    refine ⟨j, .kept j S _ (.inl rfl) j.durable j.up (.inl rfl) id, ?_⟩
    unfold Holds at hh ⊢
    rw [hw] at hh
    exact hh
  have hends := compact_ends (F := fun _ => True) hlive S
  unfold Machine.compact
  generalize hrun : w.compact crc S m.disk fates = out
  rcases out with ⟨o, disk, fs⟩
  rcases hends fates (fun _ _ => trivial) o disk fs hrun with ⟨_, hpost⟩
  -- The log as it was, with some of it durable.
  have hkept : ∀ {place : Option Name} {durable : Nat},
      AtRest crc true true disk place j.log durable →
      Lies crc disk { j with durable, up := false } := by
    intro place durable hrest
    unfold Lies
    simp only [hfirm]
    exact ⟨_, hrest⟩
  cases o with
  | none =>
    rcases hpost with hrest | ⟨dir, hbetween | hrest⟩
    · exact ⟨_, .kept j S _ (.inr rfl) j.durable false (.inl rfl) (by simp), rfl, hkept hrest⟩
    · exact ⟨_, .renamed j S _ (.inr rfl) hfirm, rfl, rfl, _, dir, hbetween⟩
    · exact ⟨_, .replaced j S _ (.inr (.inr rfl)) false, rfl, _, hrest⟩
  | some r =>
    rcases hpost with ⟨rfl, rfl⟩ | ⟨rfl, hrest⟩ | ⟨rfl, hlive'⟩ | ⟨dir, hafter⟩
    · exact ⟨_, .kept j S _ (.inl rfl) j.durable j.up (.inl rfl) id, .inl ⟨hup, hfirm, hlive⟩⟩
    · exact ⟨_, .kept j S _ (.inl rfl) j.durable false (.inl rfl) (by simp),
        .inr ⟨rfl, rfl, hkept hrest⟩⟩
    · exact ⟨_, .kept j S _ (.inl rfl) j.log.length j.up (.inr ⟨rfl, hfirm⟩) id,
        .inl ⟨hup, hfirm, hlive'⟩⟩
    · rcases r with ⟨ok, w'⟩
      rcases hafter with ⟨hok, hfailed, hbetween⟩ | ⟨_, _, hlive'⟩ | ⟨hok, hfailed, hrest⟩
      · cases hok
        exact ⟨_, .renamed j S _ (.inl rfl) hfirm, .inr ⟨rfl, hfailed, rfl, _, dir, hbetween⟩⟩
      · refine ⟨_, .replaced j S _ ?_ true, .inl ⟨rfl, rfl, hlive'⟩⟩
        cases ok with
        | true => exact .inl rfl
        | false => exact .inr (.inl rfl)
      · cases hok
        exact ⟨_, .replaced j S _ (.inr (.inl rfl)) false, .inr ⟨rfl, hfailed, _, hrest⟩⟩

theorem crash (h : Holds crc m j) (l : Loss) : ∃ j', j.Step (.event .crashed) j' ∧
    Holds crc { disk := m.disk.crash l, wal := none } j' := by
  have hlies := h.lies
  unfold Lies at hlies
  cases hf : j.fallback with
  | none =>
    rw [hf] at hlies
    rcases hlies with ⟨place, hrest⟩
    rcases hrest.crash l (by simp) with ⟨k, hk, hlen, hrest'⟩
    exact ⟨_, .crashed j k hk hlen, rfl, place, hrest'⟩
  | some L =>
    rw [hf] at hlies
    rcases hlies with ⟨hd, place, dir, hbetween⟩
    rcases hbetween.crashed rfl rfl l with hnew | hold
    · refine ⟨_, .crashed j j.log.length (le_of_eq hd) (le_refl _), rfl, some dir, ?_⟩
      rw [List.take_length]
      exact hnew
    · exact ⟨_, .wentBack j L hf, rfl, place, hold⟩

/-- A step of the log that meets the condition is one of the journal. -/
theorem act {a : Act} {n : Note} {m' : Machine} {ns : List Note} (h : Holds crc m j)
    (hK : PointerSynced ⟨m, ns⟩ a) (hstep : Machine.act crc m a = some (n, m')) :
    ∃ j', j.Step n j' ∧ Holds crc m' j' := by
  cases a with
  | openLog segmentBytes =>
    cases hw : m.wal with
    | some w => simp [Machine.act, hw] at hstep
    | none =>
      simp only [Machine.act, hw, Option.some.injEq] at hstep
      rcases openLog h.lies segmentBytes with ⟨w, disk, heq, hlive⟩
      rw [heq] at hstep
      cases hstep
      -- The pointer is synced, so it cannot go back.
      have hfirm : j.fallback = none := by
        cases hf : j.fallback with
        | none => rfl
        | some L =>
          have hlies := h.lies
          unfold Lies at hlies
          rw [hf] at hlies
          rcases hlies with ⟨_, _, _, hbetween⟩
          exact absurd hK hbetween.pending
      exact ⟨_, .opened j, .inl ⟨rfl, hfirm, hlive hfirm⟩⟩
  | append body doSync =>
    rcases Option.map_eq_some_iff.mp hstep with ⟨w, hw, heq⟩
    cases heq
    exact h.append hw body doSync
  | sync =>
    rcases Option.map_eq_some_iff.mp hstep with ⟨w, hw, heq⟩
    cases heq
    exact h.sync hw
  | compact S fates =>
    rcases Option.map_eq_some_iff.mp hstep with ⟨w, hw, heq⟩
    have hcompact := h.compact hw S fates
    rwa [heq] at hcompact
  | kill =>
    cases hstep
    exact ⟨_, .killed j, rfl, h.lies⟩
  | crash l =>
    cases hstep
    exact h.crash l

/-- What is acknowledged is acknowledged with the pointer durable. -/
theorem firm_of_appended (h : Holds crc m j) {body : Bytes} {doSync : Bool} {m' : Machine}
    (hstep : Machine.act crc m (.append body doSync) = some (.event (.appended body doSync), m')) :
    (m.disk.files.entry kCurrent).past = [] := by
  rcases Option.map_eq_some_iff.mp hstep with ⟨w, hw, heq⟩
  unfold Holds at h
  rw [hw] at h
  rcases h with ⟨_, _, hlive⟩ | ⟨_, hfailed, _⟩
  · exact hlive.atRest.points.past.1
  · have hpure : w.append crc body doSync = pure (false, w) := append_failed hfailed body doSync
    unfold Machine.append at heq
    rw [hpure] at heq
    cases heq

end Holds

end Machine

theorem Traced.holds (crc : Bytes → UInt32) {acts : List Machine.Act} {s : Traced}
    (hrun : Run.exec (Traced.step crc) {} acts = some s)
    (hmeets : Run.Meets (Traced.step crc) PointerSynced {} acts) :
    ∃ j, Journal.Runs {} s.notes j ∧ s.machine.Holds crc j := by
  have hstep : ∀ s a s', (∃ j, Journal.Runs {} s.notes j ∧ s.machine.Holds crc j) →
      PointerSynced s a → Traced.step crc s a = some s' →
      ∃ j, Journal.Runs {} s'.notes j ∧ s'.machine.Holds crc j := by
    rintro s a s' ⟨j, hruns, hholds⟩ hK hstep
    rcases Option.map_eq_some_iff.mp hstep with ⟨⟨n, m⟩, hact, rfl⟩
    rcases hholds.act hK hact with ⟨j', hn, hholds'⟩
    exact ⟨j', hruns.snoc hn, hholds'⟩
  exact Run.exec_invariant {} ⟨{}, .nil, Machine.Holds.init⟩ hstep acts s hrun hmeets

/-- In every run in which no log is opened while the pointer is renamed and not synced: a
    compaction leaves the log or replaces it by the snapshot, wherever it is cut; the next open
    replays what the journal holds; and nothing is acknowledged while the pointer is not
    durable. -/
theorem compaction_is_atomic (crc : Bytes → UInt32) (acts : List Machine.Act) {s : Traced}
    (hrun : Run.exec (Traced.step crc) {} acts = some s)
    (hmeets : Run.Meets (Traced.step crc) PointerSynced {} acts) :
    ∃ j, Journal.Runs {} s.notes j ∧
      (s.machine.wal = none → ∀ segmentBytes, ∃ m', s.machine.act crc (.openLog segmentBytes) =
        some (.event (.opened j.log j.log.length), m')) ∧
      ∀ body doSync m', s.machine.act crc (.append body doSync) =
        some (.event (.appended body doSync), m') →
        (s.machine.disk.files.entry kCurrent).past = [] := by
  rcases Traced.holds crc hrun hmeets with ⟨j, hruns, hholds⟩
  refine ⟨j, hruns, fun hw segmentBytes => ?_, fun body doSync m' => hholds.firm_of_appended⟩
  rcases Machine.Holds.openLog hholds.lies segmentBytes with ⟨w, disk, heq, _⟩
  exact ⟨⟨disk, some w⟩, by simp only [Machine.act, hw, heq]; rfl⟩

/-- A compaction is killed before it syncs the renamed pointer, and the crash keeps the new
    pointer; the log goes on from the snapshot. -/
theorem compaction_is_atomic_killed :
    let crc : Bytes → UInt32 := fun b => UInt32.ofNat b.length
    let acts : List Machine.Act := [.openLog 64, .append [1] true,
      .compact [[8], [9]] (List.replicate 13 .ok ++ [.kill]), .crash ⟨fun _ => 0, fun _ => 0⟩,
      .openLog 64, .append [2] true, .kill]
    ∃ s j, Run.exec (Traced.step crc) {} acts = some s ∧
      s.notes = [.event (.opened [] 0), .event (.appended [1] true), .cut [[8], [9]],
      .event .crashed,
        .event (.opened [[8], [9]] 2), .event (.appended [2] true), .event .killed] ∧
      Journal.Runs {} s.notes j := by
  intro crc acts
  have hnotes : (Run.exec (Traced.step crc) {} acts).map Traced.notes =
      some [.event (.opened [] 0), .event (.appended [1] true), .cut [[8], [9]], .event .crashed,
        .event (.opened [[8], [9]] 2), .event (.appended [2] true),
        .event .killed] := by decide +kernel
  have hmeets : Run.Meets (Traced.step crc) PointerSynced {} acts := by decide +kernel
  rcases Option.map_eq_some_iff.mp hnotes with ⟨s, hexec, hs⟩
  rcases compaction_is_atomic crc acts hexec hmeets with ⟨j, hruns, _⟩
  exact ⟨s, j, hexec, hs, hruns⟩

/-- The sync after the rename fails and the compaction is reported as failed. The log is opened
    again on the snapshot and acknowledges an append while the pointer can still go back; the
    crash takes it back, and the append is gone. -/
theorem acknowledged_append_lost :
    let crc : Bytes → UInt32 := fun b => UInt32.ofNat b.length
    let acts : List Machine.Act := [.openLog 64, .append [1] true,
      .compact [[9]] (List.replicate 12 .ok ++ [.fail]), .kill, .openLog 64]
    let acts' : List Machine.Act :=
      [.append [2] true, .crash ⟨fun p => if p = [kCurrent] then 1 else 0, fun _ => 0⟩,
      .openLog 64]
    ∃ s s', Run.exec (Traced.step crc) {} acts = some s ∧
      Run.exec (Traced.step crc) s acts' = some s' ∧
      (s.machine.disk.files.entry kCurrent).past ≠ [] ∧
      s'.notes = [.event (.opened [] 0), .event (.appended [1] true), .compacted [[9]] false,
        .event .killed, .event (.opened [[9]] 1), .event (.appended [2] true), .event .crashed,
        .event (.opened [[1]] 1)] := by
  intro crc acts acts'
  have h : (Run.exec (Traced.step crc) {} acts).any (fun s =>
      (Run.exec (Traced.step crc) s acts').any (fun s' =>
        decide ((s.machine.disk.files.entry kCurrent).past ≠ [] ∧ s'.notes = [.event (.opened [] 0),
          .event (.appended [1] true), .compacted [[9]] false, .event .killed,
          .event (.opened [[9]] 1),
          .event (.appended [2] true), .event .crashed, .event (.opened [[1]] 1)]))) = true := by
    decide +kernel
  rcases (Option.any_eq_true _ _).mp h with ⟨s, hs, h'⟩
  rcases (Option.any_eq_true _ _).mp h' with ⟨s', hs', hp⟩
  exact ⟨s, s', hs, hs', of_decide_eq_true hp⟩

end Tautq
