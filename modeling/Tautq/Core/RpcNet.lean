import Tautq.Core.RpcNode
import Tautq.Lib.Run

/-!
# Nodes That Call Each Other

Any number of nodes with the call layer, and what is in flight between them. A datagram in
flight may be delivered, again and again and at any time, or be lost; nothing is in flight
any more once all copies of it are gone. A process may end at any moment and be started
again, with a boot id that is not zero and that it never had before.

A frame that was sent on one session can reach any later session between the same two
endpoints: the endpoint is all that a datagram is routed by.

## Main definitions

* `Net`, `Setup.init`: The nodes, what is in flight, and the start.
* `Act`, `Net.target`: What happens, and the node it happens to.
* `Net.put`: A node has come to a state, and what it has sent is in flight.
* `Net.step`: One step.
-/

namespace Tautq.Rpc

/-- The nodes, and what is in flight: the sender, the addressee and the content. `clock` counts
    the steps. -/
structure Net where
  node : Endpoint → RpcNode
  hellos : List (Endpoint × Endpoint × Hello) := []
  frames : List (Endpoint × Endpoint × Frame) := []
  clock : Nat := 0

/-- The first boot ids, and the methods that have handlers. -/
structure Setup where
  boot : Endpoint → Nat
  handlers : List UInt8 := []
  drawn : ∀ e, boot e ≠ 0

/-- Every node fresh, and nothing in flight. -/
def Setup.init (d : Setup) : Net where
  node := fun e => { self := e, boot := d.boot e, handlers := d.handlers }

/-- What happens: an application acts, a verdict or a timer falls, time passes; a datagram is
    delivered or lost; a process is started again. -/
inductive Act where
  | act (e : Endpoint) (env : Env) (as : List Action)
  | peerDead (e : Endpoint) (env : Env) (a : Endpoint)
  | tick (e : Endpoint) (env : Env)
  | advance (e : Endpoint) (d : Time)
  | hello (k : Nat) (env : Env)
  | frame (k : Nat) (env : Env) (as : List Action)
  | loseHello (k : Nat)
  | loseFrame (k : Nat)
  | restart (e : Endpoint) (boot : Nat)

namespace Net

/-- The node an act is about, and what it handles. -/
def target (s : Net) : Act → Option (Endpoint × Env × Input)
  | .act e env as => some (e, env, .act as)
  | .peerDead e env a => some (e, env, .peerDead a)
  | .tick e env => some (e, env, .tick)
  | .advance e d => some (e, {}, .advance d)
  | .hello k env => s.hellos[k]?.map fun m => (m.2.1, env, .hello m.1 m.2.2)
  | .frame k env as => s.frames[k]?.map fun m => (m.2.1, env, .frame m.1 m.2.2 as)
  | .loseHello _ | .loseFrame _ | .restart _ _ => none

/-- A node has come to a state, and what it has sent is in flight. -/
def put (s : Net) (e : Endpoint) (n : RpcNode) : Net where
  node := Function.update s.node e { n with hellos := [], frames := [] }
  hellos := s.hellos ++ n.hellos.map fun m => (e, m.1, m.2)
  frames := s.frames ++ n.frames.map fun m => (e, m.1, m.2)
  clock := s.clock + 1

/-- A process is started again. -/
def reboot (s : Net) (e : Endpoint) (boot : Nat) : Net :=
  { s with
    node := Function.update s.node e ((s.node e).restart (s.clock + 1) boot)
    clock := s.clock + 1 }

/-- A boot id that was never drawn. -/
def Fresh (s : Net) (e : Endpoint) (boot : Nat) : Prop :=
  boot ≠ 0 ∧ boot ∉ (s.node e).boot :: (s.node e).boots

instance (s : Net) (e : Endpoint) (boot : Nat) : Decidable (s.Fresh e boot) :=
  inferInstanceAs (Decidable (_ ∧ _))

/-- The node an act is about handles it; a datagram that is not there is not delivered. -/
def perform (s : Net) (a : Act) : Option Net :=
  (s.target a).map fun x =>
    s.put x.1 ((s.node x.1).step { x.2.1 with stamp := s.clock + 1 } x.2.2)

/-- One step. -/
def step (s : Net) (a : Act) : Option Net :=
  match a with
  | .loseHello k => some { s with hellos := s.hellos.eraseIdx k }
  | .loseFrame k => some { s with frames := s.frames.eraseIdx k }
  | .restart e boot => if s.Fresh e boot then some (s.reboot e boot) else none
  | .act .. | .peerDead .. | .tick .. | .advance .. | .hello .. | .frame .. => s.perform a

/-- A run. -/
abbrev exec (s : Net) (as : List Act) : Option Net :=
  Run.exec step s as

/-- Whether every step of a run meets a condition on the state before it. -/
abbrev Meets (K : Net → Act → Prop) (s : Net) (as : List Act) : Prop :=
  Run.Meets step K s as

end Net

end Tautq.Rpc
