import ChronosGo.Heartbeat
import ChronosGo.RecoveryDrain
import ChronosGo.UniqueLock

/-! # Heartbeats and recovery

A server notes what it works on, its heartbeat renews the leases and the unique locks
of what is noted (`heartbeaterLoop`, `beat`; `ExtendLease` and `RenewUnique` of
`internal/rdb/heartbeat.go`), and the recoverer of every server claims what has not been
renewed for `RecoverMinIdle`.  The machine below runs all of it together: the routines of
`Server` over the store, with the notes of the workers, and the heartbeats.

A beat is not atomic.  Between the look at the notes and the last of its requests,
workers come and go, leases are claimed, locks are released and taken again.  What a run
is assumed to keep to besides, that beats are in time and that no identifier is at work
twice, is not part of the code: it is a parameter of the machine, and `Pace.terms` has it
condition by condition.
-/
namespace ChronosGo.Leases
open Interleaving Redis

/-- `renewUniqueCmd`: a lock that exists has at least the time to live after it. -/
def renewUnique (s : Slot) (key : String) (ttl now : Int) : Slot :=
  match s.unique key with
  | none => s
  | some l =>
    if l.expireAt - now < Slot.ttlMillis ttl then
      { s with unique := Function.update s.unique key (some ⟨l.owner, now + Slot.ttlMillis ttl⟩) }
    else s

/-- `RenewUnique` for one lock, which is among the keys of the queue it names. -/
def renewLock (w : ChronosGo.World) (q key : String) (ttl : Int) : ChronosGo.World :=
  { w with slot := Function.update w.slot q (renewUnique (w.slot q) key ttl w.now) }

/-- What the goroutines of servers do: the commands of the routines, with the server that
sends them, the notes, and the steps of a heartbeat. -/
inductive Instr where
  | routine (server : String) (c : Cmd)
  | trackInflight (server id : String) (e : InflightEntry)
  | untrackInflight (server id : String)
  | select (server : String)
  | inflight (server : String)
  | extendLease (server q : String) (ids : List Nat)
  | renewUnique (server q key : String) (ttl : Int)

/-- `select` answers whether it was the ticker; `none` is an error. -/
@[reducible] def Instr.Reply : Instr → Type
  | .routine _ c => c.Reply
  | .trackInflight _ _ _ => Unit
  | .untrackInflight _ _ => Unit
  | .select _ => Bool
  | .inflight _ => List InflightEntry
  | .extendLease _ _ _ => Option Unit
  | .renewUnique _ _ _ _ => Option Unit

inductive Goroutine where
  | routine (server : String) (j : Job)
  | heartbeaterLoop (server : String) (recoverMinIdle : Int) (beats : Nat)

abbrev Thread := Prog Instr Instr.Reply Goroutine

def exec (c : Instr) : Thread c.Reply := Prog.cmd c

/-- A routine of a server. -/
def run (server : String) (p : Routine Unit) : Thread Unit :=
  p.embed (Instr.routine server) (fun _ r => r) (Goroutine.routine server)

/-- The goroutine of a task, with its deferred call. -/
def worker (server q : String) (sid : Nat) (msg : TaskMessage) : Thread Unit := do
  exec (.trackInflight server msg.id ⟨sid, q, msg.uniqueKey⟩)
  run server (process q sid msg)
  exec (.untrackInflight server msg.id)

/-! ## A beat -/

/-- The pipeline of `RenewUnique`. -/
def renewAll (server : String) (ttl : Int) : List (String × String) → Thread Unit
  | [] => return ()
  | (q, key) :: keys => do
    let _ ← exec (.renewUnique server q key ttl)
    renewAll server ttl keys

/-- The beat of a server. -/
def beat (server : String) (renewTTL : Int) : Thread Unit :=
  ChronosGo.beat (exec (.inflight server))
    (fun q ids => do
      let _ ← exec (.extendLease server q ids)
      return ())
    (renewAll server renewTTL)

/-- `heartbeaterLoop`, for some number of beats. -/
def heartbeaterLoop (server : String) (recoverMinIdle : Int) : Nat → Thread Unit
  | 0 => return ()
  | beats + 1 => do
    if ← exec (.select server) then
      beat server (2 * recoverMinIdle)
      heartbeaterLoop server recoverMinIdle beats
    else return ()

/-- The code of a goroutine; a task that a routine starts is noted while it runs. -/
def Goroutine.start : Goroutine → Thread Unit
  | routine server (.work q sid msg) => worker server q sid msg
  | routine server (.send op) => run server (Job.send op).start
  | routine server (.sendAll ops) => run server (Job.sendAll ops).start
  | routine server (.deleteTask q id) => run server (Job.deleteTask q id).start
  | routine server (.fetch q consumer count keep) =>
    run server (Job.fetch q consumer count keep).start
  | routine server (.recover q consumer minIdle max) =>
    run server (Job.recover q consumer minIdle max).start
  | heartbeaterLoop server recoverMinIdle beats =>
    Leases.heartbeaterLoop server recoverMinIdle beats

/-! ## The machine -/

/-- A task that a server has noted. -/
structure Holding where
  server : String
  id : String
  entry : InflightEntry
  since : Int
deriving DecidableEq

/-- A look at the notes of a server. -/
structure Look where
  server : String := ""
  time : Int := 0
  notes : List InflightEntry := []

/-- The store and the notes of each server.  The rest is a record: what is held and since
when, which servers have not failed, the last look of each process at the notes, and for
each server when the last beat began that has renewed the leases of a queue, or a
lock. -/
structure World where
  base : ChronosGo.World
  inflight : String → AList (fun _ : String => InflightEntry)
  held : List Holding
  alive : String → Bool
  seen : Nat → Look
  extended : String → String → Int
  renewed : String → String → String → Int

namespace World

def init : World where
  base := ChronosGo.World.init
  inflight := fun _ => ∅
  held := []
  alive := fun _ => true
  seen := fun _ => {}
  extended := fun _ _ => 0
  renewed := fun _ _ _ => 0

def now (w : World) : Int := w.base.now

def notes (w : World) (server : String) : List InflightEntry :=
  (w.inflight server).entries.map fun e => e.2

/-- The entry has been delivered a short time ago, if it is pending. -/
def Prompt (w : World) (dispatch : Int) (e : InflightEntry) : Prop :=
  ∀ p ∈ (w.base.slot e.queue).stream.pel, p.id = e.streamID → w.now - dispatch ≤ p.deliveredAt

def track (w : World) (server id : String) (e : InflightEntry) : World :=
  { w with
    inflight := Function.update w.inflight server ((w.inflight server).insert id e)
    held := ⟨server, id, e, w.now⟩ :: w.held }

def untrack (w : World) (server id : String) : World :=
  { w with
    inflight := Function.update w.inflight server ((w.inflight server).erase id)
    held := w.held.filter fun x => ¬ (x.server = server ∧ x.id = id) }

/-- Process `i` looks at the notes: for a queue or a lock of which nothing is noted the
beat has nothing to renew. -/
def look (w : World) (i : Nat) (server : String) : World :=
  { w with
    seen := Function.update w.seen i ⟨server, w.now, w.notes server⟩
    extended := fun s q =>
      if s = server ∧ idsOf (w.notes server) q = [] then w.now else w.extended s q
    renewed := fun s q key =>
      if s = server ∧ (q, key) ∉ uniqueKeys (w.notes server) then w.now else w.renewed s q key }

/-- The leases of a queue are extended, as the last look of process `i` asks for. -/
def extend (w : World) (i : Nat) (server q : String) (ids : List Nat) : World :=
  { w with
    base := Recovery.heartbeat w.base q server ids
    extended := fun s q' =>
      if s = server ∧ q' = q ∧ (w.seen i).server = server ∧ ids = idsOf (w.seen i).notes q then
        max (w.extended s q') (w.seen i).time
      else w.extended s q' }

/-- A lock is renewed, as the last look of process `i` asks for. -/
def renew (w : World) (i : Nat) (server q key : String) (ttl : Int) : World :=
  { w with
    base := renewLock w.base q key ttl
    renewed := fun s q' key' =>
      if s = server ∧ q' = q ∧ key' = key ∧ (w.seen i).server = server then
        max (w.renewed s q' key') (w.seen i).time
      else w.renewed s q' key' }

end World

/-- The routines are not restricted: requests fail, answers get lost, handlers end in any
way. -/
def anything : Regime where
  spawn := fun _ => True
  allow := fun _ _ _ => True
  handler := fun _ _ _ => True
  tick := fun _ _ => True
  faults := True
  crash := True

/-- What an instruction of process `i` may answer, and do. -/
def World.Exec (k : Keys) (i : Nat) (w : World) : (c : Instr) → c.Reply → World → Prop
  | .routine _ c, r, w' => ∃ b, anything.exec k i c w.base r b ∧ w' = { w with base := b }
  | .trackInflight server id e, _, w' => w' = w.track server id e
  | .untrackInflight server id, _, w' => w' = w.untrack server id
  | .select _, _, w' => w' = w
  | .inflight server, es, w' => es = w.notes server ∧ w' = w.look i server
  | .extendLease server q ids, r, w' => w' = w.extend i server q ids ∨ r = none ∧ w' = w
  | .renewUnique server q key ttl, r, w' => w' = w.renew i server q key ttl ∨ r = none ∧ w' = w

/-- A routine hands over an entry. -/
def World.give (w : World) (i n : Nat) : Goroutine → World
  | .routine _ j => { w with base := w.base.give i n j }
  | .heartbeaterLoop _ _ _ => w

/-- The terms of a run: which instructions are executed when, and until when time may
pass. -/
structure Terms where
  allow : World → Instr → Prop
  pass : World → Int → Prop

/-- Time passes, or a server fails. -/
def World.Env (g : Terms) (w w' : World) : Prop :=
  (∃ t, w.now ≤ t ∧ g.pass w t ∧ w' = { w with base := w.base.tick t }) ∨
    ∃ server, w' = { w with alive := Function.update w.alive server false }

/-- Any number of servers at work, on some terms. -/
def machine (g : Terms) (k : Keys) : Machine Instr Instr.Reply Goroutine World where
  start := Goroutine.start
  spawn := fun _ => True
  exec := fun i c w r w' => g.allow w c ∧ w.Exec k i c r w'
  give := fun i n j w => w.give i n j
  env := World.Env g
  crash := True

/-! ## The terms of the results -/

/-- How fast things go: a task is noted at most `dispatch` after its entry was delivered,
and after `gap` it is covered by a beat, and from then on by beats that begin at most
`gap` before the next one is complete. -/
structure Pace where
  recoverMinIdle : Int
  dispatch : Int
  gap : Int

/-- The beats of every server that has not failed are in time for what it works on. -/
def World.Timely (gap : Int) (w : World) (t : Int) : Prop :=
  ∀ x ∈ w.held, w.alive x.server = true →
    t ≤ max x.since (w.extended x.server x.entry.queue) + gap ∧
      t ≤ max x.since (w.renewed x.server x.entry.queue x.entry.uniqueKey) + gap

/-- What is assumed of an instruction. -/
structure World.Orderly (pc : Pace) (w : World) (c : Instr) : Prop where
  /-- Recoverers do not claim earlier than `RecoverMinIdle`. -/
  patient : ∀ server q consumer minIdle count,
    c = .routine server (.redis (.xAutoClaim q consumer minIdle count)) →
      pc.recoverMinIdle ≤ minIdle
  /-- The identifier of a task that is being worked on is not enqueued or scheduled again
  with a lock.  Nothing in the code keeps a client from that. -/
  enqueue : ∀ server msg ttl, c = .routine server (.redis (.enqueueUnique msg ttl)) →
    ∀ x ∈ w.held, x.id ≠ msg.id
  schedule : ∀ server msg processAt ttl,
    c = .routine server (.redis (.scheduleUnique msg processAt ttl)) → ∀ x ∈ w.held, x.id ≠ msg.id
  /-- No server works on two tasks of one identifier at once: `trackInflight` would replace
  the note of the first. -/
  once : ∀ server id e, c = .trackInflight server id e → id ∉ w.inflight server
  /-- A task is noted soon after its delivery. -/
  prompt : ∀ server id e, c = .trackInflight server id e → w.Prompt pc.dispatch e
  /-- Heartbeats go by `RecoverMinIdle`. -/
  renewal : ∀ server q key ttl, c = .renewUnique server q key ttl → ttl = 2 * pc.recoverMinIdle

/-- Runs in which all of this is so, and beats are in time. -/
def Pace.terms (pc : Pace) : Terms where
  allow := World.Orderly pc
  pass := World.Timely pc.gap

end ChronosGo.Leases
