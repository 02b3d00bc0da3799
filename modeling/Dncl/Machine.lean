/-
Dncl/Machine.lean

Running programs.

A session keeps what outlives a program: the store, the environment of the
outermost scope, and the state of the host.  A program starts with no active
function, whatever ran before.  Its value is that of its last statement; a
value that is given back outside every function ends it.
-/
import Dncl.Machine.Step

namespace Dncl

variable {σ : Type}

/-- What a program finds when it starts, and leaves when it ends. -/
structure Session (σ : Type) where
  store : Store
  env : Env
  world : σ

/-- A session in which nothing has run. -/
def Session.new (world : σ) : Session σ :=
  match Store.empty.newEnv with
  | (env, store) => ⟨store, env, world⟩

/-- The session with a new environment in place of the old one. -/
def Session.renew (s : Session σ) : Session σ :=
  match s.store.newEnv with
  | (env, store) => ⟨store, env, s.world⟩

namespace Machine

/-- The machine at the start of a program. -/
def load (s : Session σ) (p : Program) : Machine σ :=
  match p.statements with
  | [] => ⟨.value (.null p.span), [], s.store, 0, s.world⟩
  | first :: rest => ⟨.stmt first s.env, [.program rest s.env], s.store, 0, s.world⟩

/-- Steps until the machine halts, at most `n` times. -/
def run (host : Host σ) (settings : Settings) : Nat → Machine σ → Machine σ
  | 0, m => m
  | n + 1, m =>
    if m.isHalted then m else run host settings n (m.step host settings)

/-- What the machine has come to, if it has halted. -/
def outcome? (m : Machine σ) : Option (Except Fatal Value) :=
  match m.frames, m.control with
  | [], .value v => some (.ok v.unwrap)
  | [], .abort failure => some (.error failure)
  | _, _ => none

end Machine

/-- Runs a program in a session, for at most `steps` steps.  Gives what it
came to, unless it is still running, and the session after it. -/
def Session.run (host : Host σ) (settings : Settings) (steps : Nat) (s : Session σ)
    (p : Program) : Option (Except Fatal Value) × Session σ :=
  let m := (Machine.load s p).run host settings steps
  (m.outcome?, ⟨m.store, s.env, m.world⟩)

end Dncl
