import ChronosGo.RecordedRuns
import ChronosGo.Server

/-! # The world the routines share

A `World` is the value of all keys, the time, and two things no routine can see:
which process each delivered stream entry belongs to, and what has happened to
the tasks so far.  A `Regime` says what a run may contain: which jobs are started
from outside, whether commands fail and processes crash, what handlers return,
and which commands and moments are ruled out.  What is proved about runs is proved
about the machine of a regime.
-/
namespace ChronosGo
open Interleaving

/-- What has happened to a task. -/
inductive Record where
  /-- Its handler has run on this message and ended so. -/
  | handled (msg : TaskMessage) (out : Outcome)
  /-- A body was stored under an identifier that had none. -/
  | created (msg : TaskMessage)
deriving DecidableEq

structure World where
  slot : String → Slot
  now : Int
  /-- The process that was last given a stream entry, by queue and entry. -/
  owner : String → Nat → Option Nat
  /-- Newest first. -/
  log : List Record

/-- The world and all processes. -/
abbrev Deployment : Type := Config Cmd Cmd.Reply Job World

/-- A process with what it has seen. -/
abbrev Party : Type := Proc Cmd Cmd.Reply Job

/-- The world and all processes with what they have seen. -/
abbrev Chronicle : Type := Trace Cmd Cmd.Reply Job World

/-- An answered command of a recorded run. -/
abbrev Happening : Type := Moment Cmd Cmd.Reply World

namespace Op

/-- The entries a request hands to the process that sent it. -/
def delivers : (op : Op) → op.Reply → List (Nat × String)
  | xReadGroup .., entries => entries
  | xAutoClaim .., entries => entries
  | _, _ => []

/-- The body a request has brought into being, if any. -/
def creates (op : Op) (s s' : Slot) : Option TaskMessage :=
  op.target.bind fun id => if (s.body id).isSome then none else s'.body id

end Op

namespace World

/-- The empty store. -/
def init : World := ⟨fun _ => Slot.empty, 0, fun _ _ => none, []⟩

/-- The reply to a request. -/
def reply (w : World) (k : Keys) (op : Op) : op.Reply := (op.run k w.now (w.slot op.queue)).2

/-- The keys of the queue of a request after it. -/
def slotAfter (w : World) (k : Keys) (op : Op) : Slot := (op.run k w.now (w.slot op.queue)).1

/-- A request of process `i` is executed: entries it is given are now its own,
entries it acknowledges are nobody's. -/
def perform (w : World) (k : Keys) (i : Nat) (op : Op) : World where
  slot := Function.update w.slot op.queue (w.slotAfter k op)
  now := w.now
  owner := fun q sid =>
    if q = op.queue then
      if sid ∈ (op.delivers (w.reply k op)).map Prod.fst then some i
      else if sid ∈ op.acks then none
      else w.owner q sid
    else w.owner q sid
  log := ((op.creates (w.slot op.queue) (w.slotAfter k op)).map Record.created).toList ++ w.log

/-- A handler has run. -/
def handled (w : World) (msg : TaskMessage) (out : Outcome) : World :=
  { w with log := .handled msg out :: w.log }

/-- Time passes, and keys expire. -/
def tick (w : World) (t : Int) : World :=
  { w with slot := fun q => (w.slot q).purge t, now := t }

/-- Process `i` hands the entry of a task to process `n`. -/
def give (w : World) (i n : Nat) : Job → World
  | .work q sid _ =>
    { w with owner := fun q' sid' =>
        if q' = q ∧ sid' = sid ∧ w.owner q sid = some i then some n else w.owner q' sid' }
  | _ => w

end World

/-- What a run may contain. -/
structure Regime where
  /-- The jobs that may be started from outside. -/
  spawn : Job → Prop
  /-- The requests a process may send in a world. -/
  allow : Nat → Op → World → Prop
  /-- How a handler may end. -/
  handler : World → TaskMessage → Outcome → Prop
  /-- The moments time may pass to. -/
  tick : World → Int → Prop
  /-- Whether a request may fail, before or after its effect. -/
  faults : Prop
  /-- Whether a process may stop for good. -/
  crash : Prop

namespace Regime
variable (g : Regime) (k : Keys)

/-- The execution of one command by process `i`. -/
def exec (i : Nat) : (c : Cmd) → World → c.Reply → World → Prop
  | .now, w, r, w' => r = w.now ∧ w' = w
  | .retryDelay _ _, w, _, w' => w' = w
  | .ctxDone, w, _, w' => w' = w
  | .handle msg, w, out, w' => g.handler w msg out ∧ w' = w.handled msg out
  | .redis op, w, r, w' =>
    (g.allow i op w ∧ w' = w.perform k i op ∧ (r = some (w.reply k op) ∨ g.faults ∧ r = none)) ∨
      (g.faults ∧ r = none ∧ w' = w)

variable {g k} {i : Nat} {w w' : World}

/-- What a command can do to the world: nothing, record a handler's end, or
perform a request. -/
theorem exec_cases {c : Cmd} {r : c.Reply} (he : g.exec k i c w r w') :
    w' = w ∨ (∃ msg out, c = .handle msg ∧ g.handler w msg out ∧ w' = w.handled msg out) ∨
      ∃ op, c = .redis op ∧ g.allow i op w ∧ w' = w.perform k i op := by
  cases c with
  | now => exact Or.inl he.2
  | retryDelay | ctxDone => exact Or.inl he
  | handle msg => exact Or.inr (Or.inl ⟨msg, r, rfl, he.1, he.2⟩)
  | redis op =>
    rcases he with ⟨ha, hw, -⟩ | ⟨-, -, hw⟩
    · exact Or.inr (Or.inr ⟨op, rfl, ha, hw⟩)
    · exact Or.inl hw

/-- A request that was answered was performed. -/
theorem exec_answered {op : Op} {r : op.Reply} (he : g.exec k i (.redis op) w (some r) w') :
    g.allow i op w ∧ w' = w.perform k i op ∧ r = w.reply k op := by
  rcases he with ⟨ha, hw, hr | ⟨-, hr⟩⟩ | ⟨-, hr, -⟩
  · exact ⟨ha, hw, Option.some.inj hr⟩
  · cases hr
  · cases hr

variable (g k)

/-- All runs of a regime. -/
def machine : Machine Cmd Cmd.Reply Job World where
  start := Job.start
  spawn := g.spawn
  exec := g.exec k
  give := fun i n j w => w.give i n j
  env := fun w w' => ∃ t, w.now ≤ t ∧ g.tick w t ∧ w' = w.tick t
  crash := g.crash

end Regime
end ChronosGo
