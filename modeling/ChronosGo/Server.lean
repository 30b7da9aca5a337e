import ChronosGo.Interleaving
import ChronosGo.Slot

/-! # Workers, recoverer and clients as interleaved programs

Each function of `server.go` and `internal/rdb` that sends more than one command
to Redis is a `Routine`: a sequential program over single commands, translated
statement by statement.  A command is one Lua script, one transaction or one
plain Redis command, which Redis executes atomically; everything else is
interleaved.  A failed command replies `none`.

A pipeline is not atomic, so its commands are sent one by one.  Logging, metrics,
the `OnDeadLetter` hook and the queue index are left out.
-/
namespace ChronosGo
open Interleaving Slot

/-! ## Commands -/

/-- One atomic request to Redis, under the name of its script or command. -/
inductive Op where
  | enqueue (msg : TaskMessage)
  | schedule (msg : TaskMessage) (processAt : Int)
  | enqueueUnique (msg : TaskMessage) (ttl : Int)
  | scheduleUnique (msg : TaskMessage) (processAt ttl : Int)
  | enqueuePeriodic (msg : TaskMessage) (triggerID : String) (ttl : Int)
  | chainEnqueue (msg : TaskMessage)
  | chainSchedule (msg : TaskMessage) (score : Int)
  | createGroup (q gid : String) (memberIDs : List String)
  | createGroupIfAbsent (q gid : String) (memberIDs : List String) (cbID : String)
  | groupComplete (q : String) (r : Report)
  | groupMembers (q gid : String)
  | taskState (q id : String)
  | getTask (q id : String)
  | xReadGroup (q consumer : String) (count : Nat)
  | xAutoClaim (q consumer : String) (minIdle : Int) (count : Nat)
  | ackOrphans (q : String) (sids : List Nat)
  | markActive (q id : String)
  | requeue (q : String) (sid : Nat) (id : String)
  | ackDelete (q : String) (sid : Nat) (id : String)
  | moveToZSet (q : String) (sid : Nat) (msg : TaskMessage) (z : ZKey) (score : Int)
  | releaseUnique (q key id : String)
  | forward (q : String) (z : ZKey) (now : Int) (max : Nat)
  | trim (q : String) (z : ZKey) (cutoff maxSize : Int) (batch : Nat)
  | runTask (q id : String)
  | deleteTask (q id : String)

namespace Op

/-- What a request answers. -/
@[reducible] def Reply : Op → Type
  | enqueueUnique .. | scheduleUnique .. | enqueuePeriodic .. => Bool
  | chainEnqueue .. | chainSchedule .. | groupComplete .. | runTask .. => Bool
  | createGroupIfAbsent .. => GroupStageState
  | groupMembers .. => List String
  | taskState .. => Option TaskState
  | getTask .. => Option TaskMessage
  | xReadGroup .. | xAutoClaim .. => List (Nat × String)
  | forward .. | trim .. => Nat
  | _ => Unit

/-- The queue whose keys a request touches. -/
def queue : Op → String
  | enqueue msg | schedule msg _ | enqueueUnique msg _ | scheduleUnique msg _ _ => msg.queue
  | enqueuePeriodic msg _ _ | chainEnqueue msg | chainSchedule msg _ => msg.queue
  | createGroup q _ _ | createGroupIfAbsent q _ _ _ | groupComplete q _ | groupMembers q _ => q
  | taskState q _ | getTask q _ | xReadGroup q _ _ | xAutoClaim q _ _ _ | ackOrphans q _ => q
  | markActive q _ | requeue q _ _ | ackDelete q _ _ | moveToZSet q _ _ _ _ => q
  | releaseUnique q _ _ | forward q _ _ _ | trim q _ _ _ _ | runTask q _ | deleteTask q _ => q

/-- The effect of a request on the keys of its queue at server time `now`, and
its reply. -/
def run (k : Keys) (now : Int) (s : Slot) : (op : Op) → Slot × op.Reply
  | enqueue msg => (s.enqueue msg, ())
  | schedule msg processAt => (s.schedule msg processAt, ())
  | enqueueUnique msg ttl => s.enqueueUnique k msg ttl now
  | scheduleUnique msg processAt ttl => s.scheduleUnique k msg processAt ttl now
  | enqueuePeriodic msg triggerID ttl => s.enqueuePeriodic msg triggerID ttl now
  | chainEnqueue msg => s.chainEnqueue msg
  | chainSchedule msg score => s.chainSchedule msg score
  | createGroup _ gid memberIDs => (s.createGroup gid memberIDs now, ())
  | createGroupIfAbsent _ gid memberIDs cbID => s.createGroupIfAbsent gid memberIDs cbID now
  | groupComplete _ r => s.groupComplete r now
  | groupMembers _ gid => (s, (s.group gid).members)
  | taskState _ id => (s, (s.task id).state)
  | getTask _ id => (s, s.body id)
  | xReadGroup _ consumer count =>
    ({ s with stream := s.stream.xreadgroup consumer count now }, s.stream.nextEntries count)
  | xAutoClaim _ consumer minIdle count =>
    ({ s with stream := s.stream.xautoclaim consumer minIdle count now },
      s.stream.claimed consumer minIdle count now)
  | ackOrphans _ sids => (s.ack sids, ())
  | markActive _ id => (s.setState id .active, ())
  | requeue _ sid id => (s.requeue sid id, ())
  | ackDelete _ sid id => (s.ackDelete sid id, ())
  | moveToZSet _ sid msg z score => (s.moveToZSet sid msg z score, ())
  | releaseUnique _ key id => (s.releaseUnique key id, ())
  | forward _ z now max => s.forward z now max
  | trim _ z cutoff maxSize batch => s.trim z cutoff maxSize batch
  | runTask _ id => s.runTask id
  | deleteTask _ id => (s.deleteTask id, ())

/-- The stream entries a request acknowledges. -/
def acks : Op → List Nat
  | ackOrphans _ sids => sids
  | requeue _ sid _ | ackDelete _ sid _ | moveToZSet _ sid _ _ _ => [sid]
  | _ => []

/-- The task whose body a request may store. -/
def target : Op → Option String
  | enqueue msg | schedule msg _ | enqueueUnique msg _ | scheduleUnique msg _ _ => some msg.id
  | enqueuePeriodic msg _ _ | chainEnqueue msg | chainSchedule msg _ => some msg.id
  | groupComplete _ r => some r.callback.id
  | moveToZSet _ _ msg _ _ => some msg.id
  | _ => none

end Op

/-- How a handler ended: successfully, with a result or without, or with an error
that is retryable or marked `SkipRetry`. -/
inductive Outcome where
  | ok (result : Option Bytes)
  | fail (err : String) (skipRetry : Bool)
deriving DecidableEq, Repr

/-- What a routine can do besides computing: read the clock, ask for a retry
delay, see whether its context has expired, run a handler, call Redis. -/
inductive Cmd where
  | now
  | retryDelay (retried : Nat) (err : String)
  | ctxDone
  | handle (msg : TaskMessage)
  | redis (op : Op)

/-- Replies; `none` from Redis is an error. -/
@[reducible] def Cmd.Reply : Cmd → Type
  | now => Int
  | retryDelay .. => Int
  | ctxDone => Bool
  | handle _ => Outcome
  | redis op => Option op.Reply

/-- What a goroutine is started for. -/
inductive Job where
  /-- One request of a client, the forwarder, the janitor or the inspector. -/
  | send (op : Op)
  /-- Requests in order, up to the first that fails. -/
  | sendAll (ops : List Op)
  | deleteTask (q id : String)
  /-- One round of the fetch loop, cut short by a shutdown after `keep` more
  dispatches than the first. -/
  | fetch (q consumer : String) (count keep : Nat)
  | work (q : String) (sid : Nat) (msg : TaskMessage)
  | recover (q consumer : String) (minIdle : Int) (max : Nat)

/-- A goroutine. -/
abbrev Routine (α : Type) : Type := Prog Cmd Cmd.Reply Job α

/-- A call of Redis. -/
def redis (op : Op) : Routine (Option op.Reply) := Prog.cmd (Cmd.redis op)

/-- `time.Now()`. -/
def timeNow : Routine Int := Prog.cmd Cmd.now

/-- `RetryDelayFunc`. -/
def retryDelay (retried : Nat) (err : String) : Routine Int :=
  Prog.cmd (Cmd.retryDelay retried err)

/-- Whether the context of the acknowledgement has expired. -/
def ctxDone : Routine Bool := Prog.cmd Cmd.ctxDone

/-- `dispatchSafely`: the handler of the task's kind, a panic being an error. -/
def dispatchSafely (msg : TaskMessage) : Routine Outcome := Prog.cmd (Cmd.handle msg)

/-! ## Acknowledging -/

/-- `releaseUnique`.  The lock's key names the queue in its hash tag, so the lock
is among that queue's keys. -/
def releaseUnique (msg : TaskMessage) : Routine Unit :=
  if msg.uniqueKey = "" then return ()
  else do
    let _ ← redis (.releaseUnique msg.queue msg.uniqueKey msg.id)

/-- `Done`. -/
def done (q : String) (sid : Nat) (msg : TaskMessage) : Routine Unit :=
  if 0 < msg.retention then do
    let now ← timeNow
    let msg := { msg with completedAt := unix now }
    match ← redis (.moveToZSet q sid msg .completed ((unix now + msg.retention) * second)) with
    | none => return ()
    | some _ => releaseUnique msg
  else do
    match ← redis (.ackDelete q sid msg.id) with
    | none => return ()
    | some _ => releaseUnique msg

/-- `Retry`. -/
def retry (q : String) (sid : Nat) (msg : TaskMessage) (retryAt : Int) : Routine Unit := do
  let _ ← redis (.moveToZSet q sid msg .retry (unix retryAt * second))

/-- `Archive`. -/
def archive (q : String) (sid : Nat) (msg : TaskMessage) (diedAt : Int) : Routine Unit := do
  match ← redis (.moveToZSet q sid msg .archived (unix diedAt * second)) with
  | none => return ()
  | some _ => releaseUnique msg

/-- `deadLetter`. -/
def deadLetter (q : String) (sid : Nat) (msg : TaskMessage) (cause : String) : Routine Unit :=
  let msg := { msg with lastErr := cause, completedAt := 0 }
  if msg.noArchive then done q sid { msg with retention := 0 }
  else do
    let now ← timeNow
    archive q sid msg now

/-! ## Successors -/

/-- `time.Duration(delay) * time.Second`. -/
def delayDuration (delay : Int) : Int := wrap64 (delay * second)

/-- `EnqueueChainLink`. -/
def enqueueChainLink (msg : TaskMessage) (delay : Int) : Routine (Option Bool) :=
  if 0 < delay then do
    let now ← timeNow
    redis (.chainSchedule msg (unix (now + delay) * second))
  else redis (.chainEnqueue msg)

/-- The next link of a chain, as `enqueueNext` builds it. -/
def nextLink (msg : TaskMessage) (link : ChainLink) (rest : List ChainLink) : TaskMessage where
  id := linkID msg.chainID (msg.chainIndex + 1)
  kind := link.kind
  payload := link.payload
  queue := link.queue
  maxRetry := link.maxRetry
  noArchive := link.noArchive
  retention := link.retention
  chain := rest
  chainID := msg.chainID
  chainIndex := msg.chainIndex + 1
  prevResult := msg.result
  groupID := msg.groupID
  groupQueue := msg.groupQueue
  groupCallback := msg.groupCallback
  groupIndex := msg.groupIndex
  groupSize := msg.groupSize
  groupMemberID := msg.groupMemberID

/-- The group of the parallel stage after a message. -/
def stageID (msg : TaskMessage) : String := linkID msg.chainID (msg.chainIndex + 1)

/-- The members' slots in the pending set of a parallel stage. -/
def stageMemberIDs (msg : TaskMessage) (link : ChainLink) : List String :=
  (List.range link.group.length).map (memberID (stageID msg))

/-- The callback of a parallel stage, as its members carry it. -/
def callbackLink (link : ChainLink) : ChainLink := { link with group := [] }

/-- Member `j` of a parallel stage, as `enqueueNextGroup` builds it. -/
def stageMember (msg : TaskMessage) (link : ChainLink) (rest : List ChainLink) (j : Nat)
    (m : GroupMemberLink) : TaskMessage where
  id := memberID (stageID msg) j
  kind := m.kind
  payload := m.payload
  queue := m.queue
  maxRetry := m.maxRetry
  retention := m.retention
  groupID := stageID msg
  groupQueue := link.queue
  groupCallback := some (callbackLink link)
  groupIndex := j
  groupSize := link.group.length
  groupCallbackChain := rest
  chainID := msg.chainID
  chainIndex := msg.chainIndex + 1
  prevResult := msg.result

/-- All members of a parallel stage, with their delays. -/
def stageMembers (msg : TaskMessage) (link : ChainLink) (rest : List ChainLink) :
    List (TaskMessage × Int) :=
  link.group.mapIdx fun j m => (stageMember msg link rest j m, delayDuration m.delay)

theorem mem_stageMembers {msg : TaskMessage} {link : ChainLink} {rest : List ChainLink}
    {x : TaskMessage × Int} : x ∈ stageMembers msg link rest ↔ ∃ j m, link.group[j]? = some m ∧
      x = (stageMember msg link rest j m, delayDuration m.delay) := by
  rw [stageMembers, List.mem_iff_getElem?]
  simp only [List.getElem?_mapIdx, Option.map_eq_some_iff]
  constructor
  · rintro ⟨j, m, hm, rfl⟩
    exact ⟨j, m, hm, rfl⟩
  · rintro ⟨j, m, hm, rfl⟩
    exact ⟨j, m, hm, rfl⟩

theorem stageMembers_ids (msg : TaskMessage) (link : ChainLink) (rest : List ChainLink) :
    (stageMembers msg link rest).map (fun x => x.1.id) = stageMemberIDs msg link := by
  apply List.ext_getElem
  · simp [stageMembers, stageMemberIDs]
  · intro i h₁ h₂
    simp [stageMembers, stageMemberIDs, stageMember]

theorem stageMemberIDs_nodup (msg : TaskMessage) (link : ChainLink) :
    (stageMemberIDs msg link).Nodup :=
  List.nodup_range.map (memberID_injective _)

/-- The callback task `CompleteGroupMember` asks for. -/
def groupCallbackMessage (member : TaskMessage) (link : ChainLink) : TaskMessage :=
  { id := callbackID member.groupID
    kind := link.kind
    payload := link.payload
    queue := link.queue
    maxRetry := link.maxRetry
    noArchive := link.noArchive
    retention := link.retention
    state := if 0 < link.delay then .scheduled else .pending
    chain := member.groupCallbackChain
    chainID := if member.groupCallbackChain ≠ [] then member.chainID else ""
    chainIndex := if member.groupCallbackChain ≠ [] then member.chainIndex else 0 }

/-- The slot a member reports for: a flat member's own identifier, or the slot its
chain was given. -/
def memberSlot (member : TaskMessage) : String :=
  if member.groupMemberID = "" then member.id else member.groupMemberID

/-- The arguments of a member's report; `score` is set if the callback is
delayed. -/
def memberReport (member : TaskMessage) (link : ChainLink) (score : Option Int) : Report where
  groupID := member.groupID
  member := memberSlot member
  callback := groupCallbackMessage member link
  score := score
  result := member.result
  index := member.groupIndex
  size := member.groupSize

/-- `CompleteGroupMember`. -/
def completeGroupMember (member : TaskMessage) : Routine (Option Bool) :=
  match member.groupCallback with
  | none => return none
  | some link =>
    if member.groupQueue ≠ link.queue then return none
    else if 0 < link.delay then do
      let now ← timeNow
      redis (.groupComplete link.queue
        (memberReport member link (some (unix (now + delayDuration link.delay) * second))))
    else redis (.groupComplete link.queue (memberReport member link none))

/-- `drainCompletedStageMember`; `false` is an error. -/
def drainCompletedStageMember (q id : String) : Routine Bool := do
  match ← redis (.taskState q id) with
  | none => return false
  | some none => return true
  | some (some st) =>
    if st ≠ .completed then return true
    else do
      match ← redis (.getTask q id) with
      | none => return false
      | some none => return true
      | some (some stored) =>
        let r ← completeGroupMember stored
        return r.isSome

/-- The loop of `enqueueNextGroup` over the members it does not skip. -/
def enqueueMembers : List (TaskMessage × Int) → Routine Bool
  | [] => return true
  | (member, delay) :: rest => do
    match ← enqueueChainLink member delay with
    | none => return false
    | some true => enqueueMembers rest
    | some false =>
      if ← drainCompletedStageMember member.queue member.id then enqueueMembers rest
      else return false

/-- `enqueueNextGroup`. -/
def enqueueNextGroup (msg : TaskMessage) (link : ChainLink) (rest : List ChainLink) :
    Routine Bool := do
  match ← redis (.createGroupIfAbsent link.queue (stageID msg) (stageMemberIDs msg link)
      (callbackID (stageID msg))) with
  | none => return false
  | some .done => return true
  | some .present =>
    match ← redis (.groupMembers link.queue (stageID msg)) with
    | none => return false
    | some ids => enqueueMembers ((stageMembers msg link rest).filter fun m => m.1.id ∈ ids)
  | some .created => enqueueMembers (stageMembers msg link rest)

/-- `enqueueNext`. -/
def enqueueNext (msg : TaskMessage) (link : ChainLink) (rest : List ChainLink) : Routine Bool :=
  if link.group ≠ [] then enqueueNextGroup msg link rest
  else do
    let r ← enqueueChainLink (nextLink msg link rest) (delayDuration link.delay)
    return r.isSome

/-- The retry loops of `enqueueNextWithRetry` and `completeGroupWithRetry`: give
up after the last attempt, or when the context expires during a backoff. -/
def withRetry (attempt : Routine Bool) : Nat → Routine Bool
  | 0 => return false
  | n + 1 => do
    if ← attempt then return true
    else if ← ctxDone then return false
    else withRetry attempt n

/-- `enqueueNextWithRetry`. -/
def enqueueNextWithRetry (msg : TaskMessage) (link : ChainLink) (rest : List ChainLink) :
    Routine Bool :=
  withRetry (enqueueNext msg link rest) 3

/-- `completeGroupWithRetry`. -/
def completeGroupWithRetry (msg : TaskMessage) : Routine Bool :=
  withRetry (do let r ← completeGroupMember msg; return r.isSome) 3

/-! ## Processing one task -/

/-- A message with the result its handler returned. -/
def withResult (msg : TaskMessage) : Option Bytes → TaskMessage
  | none => msg
  | some b => { msg with result := b }

/-- The success path of `process`: hand over to the successor, or report to the
group, and only then acknowledge. -/
def succeed (q : String) (sid : Nat) (msg : TaskMessage) : Routine Unit :=
  match msg.chain with
  | link :: rest => do
    if ← enqueueNextWithRetry msg link rest then done q sid { msg with chain := [] }
    else return ()
  | [] =>
    if msg.groupID ≠ "" then do
      if ← completeGroupWithRetry msg then done q sid msg
      else return ()
    else done q sid msg

/-- `process`. -/
def process (q : String) (sid : Nat) (msg : TaskMessage) : Routine Unit := do
  match ← dispatchSafely msg with
  | .ok r => succeed q sid (withResult msg r)
  | .fail err skip =>
    if skip = true ∨ msg.maxRetry ≤ msg.retried then deadLetter q sid msg err
    else do
      let msg := { msg with retried := msg.retried + 1, lastErr := err, completedAt := 0 }
      let now ← timeNow
      let delay ← retryDelay msg.retried err
      retry q sid msg (now + delay)

/-! ## Dequeueing -/

/-- The first pipeline of `DequeueBatch`: the bodies of the delivered entries. -/
def loadBodies (q : String) :
    List (Nat × String) → Routine (Option (List (Nat × Option TaskMessage)))
  | [] => return some []
  | (sid, id) :: entries => do
    let body ← redis (.getTask q id)
    let bodies ← loadBodies q entries
    match body, bodies with
    | some b, some bs => return some ((sid, b) :: bs)
    | _, _ => return none

/-- The entries whose body is gone. -/
def orphanEntries (bodies : List (Nat × Option TaskMessage)) : List Nat :=
  (bodies.filter fun b => b.2.isNone).map Prod.fst

/-- The tasks whose body was found, in state active. -/
def dequeued (bodies : List (Nat × Option TaskMessage)) : List (Nat × TaskMessage) :=
  bodies.filterMap fun b => b.2.map fun m => (b.1, { m with state := .active })

/-- `XACK` and `XDEL` of orphan entries, whose error is ignored. -/
def dropOrphans (q : String) (sids : List Nat) : Routine Unit :=
  if sids = [] then return ()
  else do
    let _ ← redis (.ackOrphans q sids)

/-- The second pipeline of `DequeueBatch`: mark the tasks active. -/
def markAll (q : String) : List (Nat × TaskMessage) → Routine Bool
  | [] => return true
  | (_, msg) :: tasks => do
    let r ← redis (.markActive q msg.id)
    let ok ← markAll q tasks
    return r.isSome && ok

/-- `DequeueBatch`; no task on an error. -/
def dequeueBatch (q consumer : String) (count : Nat) : Routine (List (Nat × TaskMessage)) := do
  match ← redis (.xReadGroup q consumer (max count 1)) with
  | none => return []
  | some entries =>
    match ← loadBodies q entries with
    | none => return []
    | some bodies =>
      dropOrphans q (orphanEntries bodies)
      if ← markAll q (dequeued bodies) then return dequeued bodies else return []

/-- Start a worker for each task. -/
def dispatch : List (Nat × TaskMessage) → Routine Unit
  | [] => return ()
  | (sid, msg) :: tasks => do
    Prog.go (.work msg.queue sid msg)
    dispatch tasks

/-- Return what a shutdown left undispatched. -/
def requeueAll : List (Nat × TaskMessage) → Routine Unit
  | [] => return ()
  | (sid, msg) :: tasks => do
    let _ ← redis (.requeue msg.queue sid msg.id)
    requeueAll tasks

/-- One round of `fetchLoop` that found `q` first. -/
def fetch (q consumer : String) (count keep : Nat) : Routine Unit := do
  let tasks ← dequeueBatch q consumer count
  dispatch (tasks.take (keep + 1))
  requeueAll (tasks.drop (keep + 1))

/-! ## Recovery and deletion -/

/-- What `Recover` does with one claimed entry.  The claim counts as a failed
attempt. -/
def recoverEntry (q : String) (now : Int) (sid : Nat) (id : String) : Routine Unit := do
  match ← redis (.getTask q id) with
  | none => return ()
  | some none =>
    let _ ← redis (.ackOrphans q [sid])
  | some (some msg) =>
    if msg.maxRetry ≤ msg.retried then archive q sid msg now
    else retry q sid { msg with retried := msg.retried + 1 } now

/-- The loop of `Recover`: an entry that fails is skipped. -/
def recoverEntries (q : String) (now : Int) : List (Nat × String) → Routine Unit
  | [] => return ()
  | (sid, id) :: entries => do
    recoverEntry q now sid id
    recoverEntries q now entries

/-- `Recover`. -/
def recover (q consumer : String) (minIdle : Int) (max : Nat) : Routine Unit := do
  match ← redis (.xAutoClaim q consumer minIdle max) with
  | none => return ()
  | some entries =>
    let now ← timeNow
    recoverEntries q now entries

/-- `DeleteTask`. -/
def deleteTask (q id : String) : Routine Unit := do
  match ← redis (.getTask q id) with
  | none => return ()
  | some msg =>
    match ← redis (.deleteTask q id) with
    | none => return ()
    | some _ => msg.elim (return ()) releaseUnique

/-- Requests in order, up to the first that fails. -/
def sendAll : List Op → Routine Unit
  | [] => return ()
  | op :: ops => do
    let r ← redis op
    if r.isSome then sendAll ops else return ()

/-- The program of a job. -/
def Job.start : Job → Routine Unit
  | send op => ChronosGo.sendAll [op]
  | sendAll ops => ChronosGo.sendAll ops
  | deleteTask q id => ChronosGo.deleteTask q id
  | fetch q consumer count keep => ChronosGo.fetch q consumer count keep
  | work q sid msg => process q sid msg
  | recover q consumer minIdle max => ChronosGo.recover q consumer minIdle max

end ChronosGo
