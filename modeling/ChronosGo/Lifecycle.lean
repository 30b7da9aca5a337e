import ChronosGo.FetchLoop
import ChronosGo.Totals
import ChronosGo.ViewTriples

/-! # The life of a server

`Start` launches the fetch loop and four maintenance loops, each counted in a wait group;
the fetch loop counts each worker before it starts it; `Shutdown` cancels their context
and waits for the group.  The machine below has all these goroutines, with the fetch loop
and the workers as they are in `FetchLoop`.  Requests of the maintenance loops are
answered in any way; what they do to the store is the subject of other modules.
-/
namespace ChronosGo.Lifecycle
open Interleaving
open FetchLoop (Dequeued)

def forwardBatchSize : Nat := 100

def recoverBatchSize : Nat := 100

def janitorBatchSize : Nat := 100

/-! ## Instructions -/

/-- The loops with a ticker. -/
inductive Loop where
  | forwarder
  | recoverer
  | heartbeater
  | janitor
deriving DecidableEq

/-- What the goroutines do, besides computing. -/
inductive Instr where
  /-- An instruction of the fetch loop or of a worker. -/
  | fetch (c : FetchLoop.Instr)
  | ensureGroup (q : String)
  /-- `s.cancel = cancel`. -/
  | setCancel
  | wgAdd
  | wgDone
  /-- `Start` returns, with an error or without. -/
  | started (ok : Bool)
  /-- The `select` of a loop: its ticker, or the end of the context. -/
  | tick (l : Loop)
  /-- Whether `ctx.Err()` is not `nil`. -/
  | ctxErr
  | now
  | forwardRetry (q : String) (now : Int) (max : Nat)
  | forwardScheduled (q : String) (now : Int) (max : Nat)
  | recover (q consumer : String) (minIdle : Int) (max : Nat)
  | onDeadLetter (msg : TaskMessage)
  | observeRecovered (q : String) (recovered deadLettered : Nat)
  | trimArchived (q : String) (cutoff maxSize : Int) (batch : Nat)
  | trimCompleted (q : String) (now maxSize : Int) (batch : Nat)
  | inflight
  | extendLease (q consumer : String) (ids : List Nat)
  | renewUnique (keys : List (String × String)) (ttl : Int)
  /-- `s.cancel()`, if it is set, in a call of `Shutdown`. -/
  | cancel (call : Nat)
  | wgWait (call : Nat)
  | closeDone (call : Nat)
  /-- The `select` of a call of `Shutdown`, which is what it returns. -/
  | awaitDone (call : Nat)

/-- Answers; `none` is an error, and a `select` answers whether it has not seen the end of
its context. -/
@[reducible] def Instr.Reply : Instr → Type
  | fetch c => c.Reply
  | ensureGroup _ | tick _ | ctxErr | awaitDone _ | extendLease .. | renewUnique .. => Bool
  | now => Int
  | forwardRetry .. | forwardScheduled .. | trimArchived .. | trimCompleted .. => Option Nat
  | recover .. => Option (Nat × List TaskMessage)
  | inflight => List InflightEntry
  | _ => Unit

/-- What a goroutine is started for; the loops stop after some number of ticks. -/
inductive Job where
  | start (rounds : Nat) (ticks : Loop → Nat)
  | shutdown (call : Nat)
  | waiter (call : Nat)
  | fetch (j : FetchLoop.Goroutine)
  | loop (l : Loop) (ticks : Nat)

abbrev Thread (α : Type) : Type := Prog Instr Instr.Reply Job α

abbrev exec (c : Instr) : Thread c.Reply := Prog.cmd c

/-! ## The loops with a ticker -/

/-- Do a part of a pass for one queue after the other, until one says to return. -/
def eachQueue (body : String → Thread Bool) : List String → Thread Bool
  | [] => return true
  | q :: qs => do
    if ← body q then eachQueue body qs
    else return false

/-- Passes of a loop, until one says to return or the context is done. -/
def ticking (l : Loop) (pass : Thread Bool) : Nat → Thread Unit
  | 0 => return ()
  | ticks + 1 => do
    if ← exec (.tick l) then do
      if ← pass then ticking l pass ticks
      else return ()
    else return ()

/-- After a request: whether to go on, which after an error is as long as the context is
not done. -/
def proceed {α : Type} : Option α → Thread Bool
  | some _ => return true
  | none => do
    let done ← exec .ctxErr
    return !done

/-- The part of `forwarderLoop` for one queue. -/
def forwardQueue (q : String) : Thread Bool := do
  let now ← exec .now
  let moved ← exec (.forwardRetry q now forwardBatchSize)
  if ← proceed moved then do
    let now ← exec .now
    let moved ← exec (.forwardScheduled q now forwardBatchSize)
    proceed moved
  else return false

/-- The hook for each task that a sweep has dead-lettered. -/
def notifyAll : List TaskMessage → Thread Unit
  | [] => return ()
  | msg :: msgs => do
    exec (.onDeadLetter msg)
    notifyAll msgs

/-- A call of something that may not be configured. -/
def whenSet (set : Bool) (call : Thread Unit) : Thread Unit := if set then call else return ()

/-- The part of `recovererLoop` for one queue. -/
def recoverQueue (s : Server) (q : String) : Thread Bool := do
  match ← exec (.recover q s.consumer s.cfg.recoverMinIdle recoverBatchSize) with
  | none => proceed (none : Option Unit)
  | some (recovered, archived) => do
    whenSet s.cfg.onDeadLetter (notifyAll archived)
    whenSet s.cfg.recoveryMetrics (exec (.observeRecovered q recovered archived.length))
    return true

/-- The part of `janitorLoop` for one queue. -/
def trimQueue (s : Server) (cutoff : Int) (q : String) : Thread Bool := do
  match ← exec (.trimArchived q cutoff s.cfg.maxArchived janitorBatchSize) with
  | none => proceed (none : Option Unit)
  | some _ => do
    let now ← exec .now
    let trimmed ← exec (.trimCompleted q now s.cfg.maxCompleted janitorBatchSize)
    proceed trimmed

/-- The beat of the server. -/
def beat (s : Server) (renewTTL : Int) : Thread Unit :=
  ChronosGo.beat (exec .inflight)
    (fun q ids => do
      let _ ← exec (.extendLease q s.consumer ids)
      return ())
    fun keys => do
      let _ ← exec (.renewUnique keys renewTTL)
      return ()

/-- What a loop does at a tick. -/
def pass (s : Server) : Loop → Thread Bool
  | .forwarder => eachQueue forwardQueue s.queueNames
  | .recoverer => eachQueue (recoverQueue s) s.queueNames
  | .heartbeater => do
    beat s (2 * s.cfg.recoverMinIdle)
    return true
  | .janitor => do
    let now ← exec .now
    eachQueue (trimQueue s (now - s.cfg.archivedRetention)) s.queueNames

/-- `forwarderLoop`, `recovererLoop`, `heartbeaterLoop` and `janitorLoop`, with their
deferred call. -/
def loop (s : Server) (l : Loop) (ticks : Nat) : Thread Unit := do
  ticking l (pass s l) ticks
  exec .wgDone

/-! ## The fetch loop and the workers -/

/-- A goroutine of `FetchLoop`, in which each `go` statement comes after `wg.Add(1)`. -/
def lift {α : Type} : FetchLoop.Thread α → Thread α
  | .pure a => .pure a
  | .call c k => .call (.fetch c) fun r => lift (k r)
  | .fork j p => .call .wgAdd fun _ => .fork (.fetch j) (lift p)

/-- The fetch loop or a worker, with its deferred call. -/
def fetch (s : Server) (j : FetchLoop.Goroutine) : Thread Unit := do
  lift (j.start s)
  exec .wgDone

/-! ## `Start` and `Shutdown` -/

def ensureGroups : List String → Thread Bool
  | [] => return true
  | q :: qs => do
    if ← exec (.ensureGroup q) then ensureGroups qs
    else return false

/-- `s.wg.Add(1)` and a `go` statement. -/
def launch (j : Job) : Thread Unit := do
  exec .wgAdd
  Prog.go j

/-- `Start`. -/
def start (s : Server) (rounds : Nat) (ticks : Loop → Nat) : Thread Unit := do
  if s.queueNames = [] then exec (.started false)
  else if ← ensureGroups s.queueNames then do
    exec .setCancel
    launch (.fetch (.fetchLoop rounds))
    launch (.loop .forwarder (ticks .forwarder))
    launch (.loop .recoverer (ticks .recoverer))
    launch (.loop .heartbeater (ticks .heartbeater))
    launch (.loop .janitor (ticks .janitor))
    exec (.started true)
  else exec (.started false)

/-- `Shutdown`, for one call of it. -/
def shutdown (call : Nat) : Thread Unit := do
  exec (.cancel call)
  Prog.go (.waiter call)
  let _ ← exec (.awaitDone call)
  return ()

/-- The goroutine that `Shutdown` starts. -/
def waiter (call : Nat) : Thread Unit := do
  exec (.wgWait call)
  exec (.closeDone call)

/-- The code of a goroutine. -/
def Job.code (s : Server) : Job → Thread Unit
  | .start rounds ticks => Lifecycle.start s rounds ticks
  | .shutdown call => Lifecycle.shutdown call
  | .waiter call => Lifecycle.waiter call
  | .fetch j => Lifecycle.fetch s j
  | .loop l ticks => Lifecycle.loop s l ticks

/-! ## The machine -/

/-- What a loop with a ticker has done: the passes begun; of the last pass the queues of
each kind of request, and those whose archived tasks were trimmed without an error; of all
passes the sweeps of the recoverer that succeeded and the tasks they dead-lettered, and
what was reported of both. -/
structure Log where
  passes : Nat := 0
  forwardedRetry : List String := []
  forwardedScheduled : List String := []
  recovered : List String := []
  trimmedArchived : List String := []
  trimmed : List String := []
  trimmedCompleted : List String := []
  sweeps : List (String × Nat × Nat) := []
  reported : List (String × Nat × Nat) := []
  deadLettered : List TaskMessage := []
  notified : List TaskMessage := []

namespace Log

/-- A pass begins. -/
def begin (v : Log) (ticked : Bool) : Log :=
  if ticked then
    { v with
      passes := v.passes + 1, forwardedRetry := [], forwardedScheduled := [], recovered := []
      trimmedArchived := [], trimmed := [], trimmedCompleted := [] }
  else v

/-- The answer to a sweep of a queue. -/
def sweep (v : Log) (q : String) : Option (Nat × List TaskMessage) → Log
  | none => { v with recovered := v.recovered ++ [q] }
  | some (recovered, archived) =>
    { v with
      recovered := v.recovered ++ [q]
      sweeps := v.sweeps ++ [(q, recovered, archived.length)]
      deadLettered := v.deadLettered ++ archived }

def see (v : Log) : (c : Instr) → c.Reply → Log
  | .tick _, ticked => v.begin ticked
  | .forwardRetry q _ _, _ => { v with forwardedRetry := v.forwardedRetry ++ [q] }
  | .forwardScheduled q _ _, _ => { v with forwardedScheduled := v.forwardedScheduled ++ [q] }
  | .recover q _ _ _, r => v.sweep q r
  | .onDeadLetter msg, _ => { v with notified := v.notified ++ [msg] }
  | .observeRecovered q n m, _ => { v with reported := v.reported ++ [(q, n, m)] }
  | .trimArchived q _ _ _, r =>
    { v with
      trimmedArchived := v.trimmedArchived ++ [q]
      trimmed := if r.isSome then v.trimmed ++ [q] else v.trimmed }
  | .trimCompleted q _ _ _, _ => { v with trimmedCompleted := v.trimmedCompleted ++ [q] }
  | _, _ => v

end Log

/-- The state that the goroutines share.  The rest is a record: the tasks that were
returned to the stream, whether `Start` has returned, which calls of `Shutdown` were made
before that, whether a `wg.Wait()` has returned after it, and what each goroutine has done
as a loop with a ticker. -/
structure World where
  base : FetchLoop.World := {}
  wg : Nat := 0
  canCancel : Bool := false
  closed : Nat → Bool := fun _ => false
  result : Nat → Option Bool := fun _ => none
  requeued : List Dequeued := []
  returned : Bool := false
  early : Nat → Bool := fun _ => false
  quiet : Bool := false
  log : Nat → Log := fun _ => {}

/-- The task that an instruction returns to the stream. -/
def requeuedBy : FetchLoop.Instr → List Dequeued
  | .requeue dt => [dt]
  | _ => []

namespace World

/-- `s.cancel()`. -/
def cancelRun (w : World) : World := { w with base := { w.base with cancelled := true } }

/-- `Shutdown` calls `s.cancel`, if it is set. -/
def cancelBy (w : World) (call : Nat) : World :=
  { (if w.canCancel then w.cancelRun else w) with
    early := Function.update w.early call (w.early call || !w.returned) }

/-- What an instruction may answer, and do. -/
def Exec (s : Server) (w : World) : (c : Instr) → c.Reply → World → Prop
  | .fetch c, r, w' => ∃ b, w.base.Exec s c r b ∧
      w' = { w with base := b, requeued := w.requeued ++ requeuedBy c }
  | .setCancel, _, w' => w' = { w with canCancel := true }
  | .wgAdd, _, w' => w' = { w with wg := w.wg + 1 }
  | .wgDone, _, w' => 0 < w.wg ∧ w' = { w with wg := w.wg - 1 }
  | .started _, _, w' => w' = { w with returned := true }
  | .tick _, ticked, w' => (ticked = false → w.base.cancelled = true) ∧ w' = w
  | .ctxErr, done, w' => done = w.base.cancelled ∧ w' = w
  | .inflight, es, w' => es = w.base.inflight.entries.map (fun e => e.2) ∧ w' = w
  | .cancel call, _, w' => w' = w.cancelBy call
  | .wgWait _, _, w' => w.wg = 0 ∧ w' = { w with quiet := w.quiet || w.returned }
  | .closeDone call, _, w' => w' = { w with closed := Function.update w.closed call true }
  | .awaitDone call, done, w' => (done = true → w.closed call = true) ∧
      w' = { w with result := Function.update w.result call (some done) }
  | .ensureGroup _, _, w' | .now, _, w' | .forwardRetry .., _, w' | .forwardScheduled .., _, w'
  | .recover .., _, w' | .onDeadLetter _, _, w' | .observeRecovered .., _, w'
  | .trimArchived .., _, w' | .trimCompleted .., _, w' | .extendLease .., _, w'
  | .renewUnique .., _, w' => w' = w

/-- The record of what process `i` has done. -/
def note (w : World) (i : Nat) (c : Instr) (r : c.Reply) : World :=
  { w with log := Function.update w.log i ((w.log i).see c r) }

def give (w : World) : Job → World
  | .fetch j => { w with base := w.base.give j }
  | _ => w

end World

/-- A server: any interleaving of its goroutines, with calls of `Shutdown` at any time,
before and during `Start` too, and an end of the context that `Start` was given. -/
def machine (s : Server) : Machine Instr Instr.Reply Job World where
  start := Job.code s
  spawn := fun j => ∃ call, j = .shutdown call
  exec := fun i c w r w' => ∃ w₁, w.Exec s c r w₁ ∧ w' = w₁.note i c r
  give := fun _ _ j w => w.give j
  env := fun w w' => w' = w.cancelRun
  crash := False

/-- A server that is started. -/
def boot (s : Server) (rounds : Nat) (ticks : Loop → Nat) : Config Instr Instr.Reply Job World :=
  (machine s).boot {} [.start rounds ticks]

end ChronosGo.Lifecycle
