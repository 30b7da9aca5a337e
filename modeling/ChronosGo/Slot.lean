import ChronosGo.RedisData
import ChronosGo.Task
import Mathlib.Data.String.Basic
import Mathlib.Logic.Function.Basic

/-! # The keys of one queue, and the scripts over them

All keys of a queue share one hash tag, so a Lua script or a `MULTI` transaction
of `internal/rdb` works inside one queue.  A `Slot` is the value of all these
keys; every script is a function on it, under the name of its Go caller, with
the commands in the order of the script.

A hash, a set or a lock exists when it has a field, a member or an owner.  Keys
with a time to live carry their deadline; `Slot.purge` drops what has expired.
Scores are in nanoseconds: a score the code gives in whole seconds is a multiple
of `second`.
-/
namespace ChronosGo
open Redis

/-- A task hash: its two fields. -/
structure TaskHash where
  msg : Option TaskMessage := none
  state : Option TaskState := none
deriving DecidableEq, Repr

/-- `EXISTS` on a task hash. -/
def TaskHash.present (h : TaskHash) : Bool := h.msg.isSome || h.state.isSome

/-- The four sorted sets of a queue. -/
inductive ZKey where
  | scheduled
  | retry
  | archived
  | completed
deriving DecidableEq, Repr

/-- The state of a task in a sorted set. -/
def ZKey.state : ZKey → TaskState
  | .scheduled => .scheduled
  | .retry => .retry
  | .archived => .archived
  | .completed => .completed

/-- A group's pending set. -/
structure GroupSet where
  members : List String := []
  expireAt : Int := 0

/-- A group's result hash: results by member index. -/
structure GroupHash where
  fields : List (Nat × Bytes) := []
  expireAt : Int := 0

/-- A unique lock and the task that holds it. -/
structure Lock where
  owner : String
  expireAt : Int

/-- The keys of one queue. -/
structure Slot where
  task : String → TaskHash
  stream : Redis.Stream String String
  zset : ZKey → ZSet String
  group : String → GroupSet
  groupResult : String → GroupHash
  unique : String → Option Lock
  dedup : String → Option Int

namespace Slot

def empty : Slot where
  task := fun _ => {}
  stream := .empty
  zset := fun _ => .empty
  group := fun _ => {}
  groupResult := fun _ => {}
  unique := fun _ => none
  dedup := fun _ => none

instance : Inhabited Slot := ⟨empty⟩

/-- The task's body, if it is stored. -/
def body (s : Slot) (id : String) : Option TaskMessage := (s.task id).msg

/-! ## Single commands -/

/-- `HSET task msg .. state ..`. -/
def put (s : Slot) (msg : TaskMessage) (st : TaskState) : Slot :=
  { s with task := Function.update s.task msg.id ⟨some msg, some st⟩ }

/-- `HSET task state ..`: creates the hash if it is missing. -/
def setState (s : Slot) (id : String) (st : TaskState) : Slot :=
  { s with task := Function.update s.task id { s.task id with state := some st } }

/-- `DEL task`. -/
def del (s : Slot) (id : String) : Slot :=
  { s with task := Function.update s.task id {} }

/-- `XADD stream * task_id ..`. -/
def append (s : Slot) (id : String) : Slot := { s with stream := s.stream.xadd id }

/-- `XACK` and `XDEL`, always issued together. -/
def ack (s : Slot) (sids : List Nat) : Slot := { s with stream := (s.stream.xack sids).xdel sids }

def zadd (s : Slot) (z : ZKey) (score : Int) (id : String) : Slot :=
  { s with zset := Function.update s.zset z ((s.zset z).zadd score id) }

def zrem (s : Slot) (z : ZKey) (id : String) : Slot :=
  { s with zset := Function.update s.zset z ((s.zset z).zrem id) }

section Commands
variable (s : Slot) (msg : TaskMessage) (st : TaskState) (id x : String) (sids : List Nat)
  (z z' : ZKey) (score : Int)

@[simp] theorem stream_put : (s.put msg st).stream = s.stream := rfl
@[simp] theorem stream_setState : (s.setState id st).stream = s.stream := rfl
@[simp] theorem stream_del : (s.del id).stream = s.stream := rfl
@[simp] theorem stream_append : (s.append id).stream = s.stream.xadd id := rfl
@[simp] theorem stream_ack : (s.ack sids).stream = (s.stream.xack sids).xdel sids := rfl
@[simp] theorem stream_zadd : (s.zadd z score id).stream = s.stream := rfl
@[simp] theorem stream_zrem : (s.zrem z id).stream = s.stream := rfl

@[simp] theorem zset_put : (s.put msg st).zset = s.zset := rfl
@[simp] theorem zset_setState : (s.setState id st).zset = s.zset := rfl
@[simp] theorem zset_del : (s.del id).zset = s.zset := rfl
@[simp] theorem zset_append : (s.append id).zset = s.zset := rfl
@[simp] theorem zset_ack : (s.ack sids).zset = s.zset := rfl

@[simp] theorem mem_zset_zadd :
    x ∈ (s.zadd z score id).zset z' ↔ z' = z ∧ x = id ∨ x ∈ s.zset z' := by
  by_cases h : z' = z
  · subst h
    simp [zadd]
  · simp [zadd, h]

@[simp] theorem mem_zset_zrem :
    x ∈ (s.zrem z id).zset z' ↔ x ∈ s.zset z' ∧ ¬ (z' = z ∧ x = id) := by
  by_cases h : z' = z
  · subst h
    simp [zrem]
  · simp [zrem, h]

@[simp] theorem body_put : (s.put msg st).body x = if x = msg.id then some msg else s.body x := by
  by_cases h : x = msg.id
  · subst h
    simp [put, body]
  · simp [put, body, h]

@[simp] theorem body_setState : (s.setState id st).body x = s.body x := by
  by_cases h : x = id
  · subst h
    simp [setState, body]
  · simp [setState, body, h]

@[simp] theorem body_del : (s.del id).body x = if x = id then none else s.body x := by
  by_cases h : x = id
  · subst h
    simp [del, body]
  · simp [del, body, h]

@[simp] theorem body_append : (s.append id).body x = s.body x := rfl
@[simp] theorem body_ack : (s.ack sids).body x = s.body x := rfl
@[simp] theorem body_zadd : (s.zadd z score id).body x = s.body x := rfl
@[simp] theorem body_zrem : (s.zrem z id).body x = s.body x := rfl

end Commands

/-- The two `ZREM`s by which an enqueue clears what an earlier task of the same
identifier left behind. -/
def clearStale (s : Slot) (id : String) : Slot := (s.zrem .completed id).zrem .archived id

/-! ## Enqueueing -/

/-- `enqueueCmd`. -/
def enqueue (s : Slot) (msg : TaskMessage) : Slot :=
  ((s.put { msg with state := .pending } .pending).append msg.id).clearStale msg.id

/-- `scheduleCmd`. -/
def schedule (s : Slot) (msg : TaskMessage) (processAt : Int) : Slot :=
  ((s.put { msg with state := .scheduled } .scheduled).zadd .scheduled processAt
    msg.id).clearStale msg.id

/-- `uniqueTTLMillis`, in nanoseconds: whole milliseconds, at least one. -/
def ttlMillis (ttl : Int) : Int := max (ttl.tdiv 1000000) 1 * 1000000

/-- The message with its lock key, as `EnqueueUnique` and `ScheduleUnique` store
it. -/
def withUniqueKey (k : Keys) (msg : TaskMessage) : TaskMessage :=
  { msg with uniqueKey := k.uniqueKey msg.queue (k.uniqueSuffix msg.kind msg.payload) }

/-- `SET lock id NX PX ttl`. -/
def acquire (s : Slot) (key id : String) (ttl now : Int) : Slot :=
  { s with unique := Function.update s.unique key (some ⟨id, now + ttlMillis ttl⟩) }

/-- `enqueueUniqueCmd`; `false` is `ErrDuplicateTask`. -/
def enqueueUnique (s : Slot) (k : Keys) (msg : TaskMessage) (ttl now : Int) : Slot × Bool :=
  let msg := withUniqueKey k msg
  if (s.unique msg.uniqueKey).isSome then (s, false)
  else ((s.acquire msg.uniqueKey msg.id ttl now).enqueue msg, true)

/-- `scheduleUniqueCmd`. -/
def scheduleUnique (s : Slot) (k : Keys) (msg : TaskMessage) (processAt ttl now : Int) :
    Slot × Bool :=
  let msg := withUniqueKey k msg
  if (s.unique msg.uniqueKey).isSome then (s, false)
  else ((s.acquire msg.uniqueKey msg.id ttl now).schedule msg processAt, true)

/-- `enqueuePeriodicCmd`: the trigger's deduplication key is never released
early. -/
def enqueuePeriodic (s : Slot) (msg : TaskMessage) (triggerID : String) (ttl now : Int) :
    Slot × Bool :=
  if (s.dedup triggerID).isSome then (s, false)
  else
    let dedup := Function.update s.dedup triggerID (some (now + ttlMillis ttl))
    ({ s with dedup := dedup }.enqueue msg, true)

/-- `chainEnqueueCmd`: create if absent. -/
def chainEnqueue (s : Slot) (msg : TaskMessage) : Slot × Bool :=
  if (s.task msg.id).present then (s, false)
  else ((s.put { msg with state := .pending } .pending).append msg.id, true)

/-- `chainScheduleCmd`. -/
def chainSchedule (s : Slot) (msg : TaskMessage) (score : Int) : Slot × Bool :=
  if (s.task msg.id).present then (s, false)
  else ((s.put { msg with state := .scheduled } .scheduled).zadd .scheduled score msg.id, true)

/-! ## Acknowledging -/

/-- `requeueCmd`. -/
def requeue (s : Slot) (sid : Nat) (id : String) : Slot :=
  let s := s.ack [sid]
  if (s.task id).present then (s.setState id .pending).append id else s

/-- The transaction of `Done` without retention. -/
def ackDelete (s : Slot) (sid : Nat) (id : String) : Slot := (s.ack [sid]).del id

/-- `moveToZSetCmd`. -/
def moveToZSet (s : Slot) (sid : Nat) (msg : TaskMessage) (z : ZKey) (score : Int) : Slot :=
  ((s.ack [sid]).put { msg with state := z.state } z.state).zadd z score msg.id

/-- `releaseUniqueCmd`: only the owner's lock is deleted. -/
def releaseUnique (s : Slot) (key id : String) : Slot :=
  if (s.unique key).map Lock.owner = some id then
    { s with unique := Function.update s.unique key none }
  else s

/-! ## Maintenance -/

/-- One round of `forwardCmd`. -/
def forwardOne (z : ZKey) (s : Slot) (id : String) : Slot :=
  ((s.append id).setState id .pending).zrem z id

/-- `forwardCmd`. -/
def forward (s : Slot) (z : ZKey) (now : Int) (max : Nat) : Slot × Nat :=
  let ids := (s.zset z).zrangebyscore now max
  (ids.foldl (forwardOne z) s, ids.length)

/-- One removal of `trimArchivedCmd`. -/
def trimOne (z : ZKey) (s : Slot) (id : String) : Slot := (s.del id).zrem z id

/-- How many members the size pass of `trimArchivedCmd` removes. -/
def overSize (card : Nat) (maxSize : Int) (batch : Nat) : Nat :=
  if 0 ≤ maxSize then min batch (card - maxSize.toNat) else 0

/-- `trimArchivedCmd`: an age pass, then a size pass. -/
def trim (s : Slot) (z : ZKey) (cutoff maxSize : Int) (batch : Nat) : Slot × Nat :=
  let expired := (s.zset z).zrangebyscore cutoff batch
  let s := expired.foldl (trimOne z) s
  let excess := (s.zset z).zrange (overSize (s.zset z).zcard maxSize batch)
  (excess.foldl (trimOne z) s, expired.length + excess.length)

/-- `ZREM` from all four sorted sets. -/
def zremAll (s : Slot) (id : String) : Slot :=
  (((s.zrem .scheduled id).zrem .retry id).zrem .archived id).zrem .completed id

/-- The task is in one of the four sorted sets. -/
def InZSet (s : Slot) (id : String) : Prop := ∃ z, id ∈ s.zset z

instance (s : Slot) (id : String) : Decidable (s.InZSet id) :=
  decidable_of_iff (id ∈ s.zset .scheduled ∨ id ∈ s.zset .retry ∨ id ∈ s.zset .archived ∨
      id ∈ s.zset .completed)
    ⟨fun h => by rcases h with h | h | h | h <;> exact ⟨_, h⟩,
      fun ⟨z, h⟩ => by cases z <;> simp [h]⟩

/-- `runTaskCmd`. -/
def runTask (s : Slot) (id : String) : Slot × Bool :=
  if ¬ s.InZSet id then (s, false)
  else
    let s := s.zremAll id
    if (s.task id).present then ((s.append id).setState id .pending, true) else (s, false)

/-- The transaction of `DeleteTask`. -/
def deleteTask (s : Slot) (id : String) : Slot := (s.zremAll id).del id

/-! ## Groups -/

/-- `GroupTTL`: seven days. -/
def groupTTL : Int := 7 * 24 * 3600 * second

/-- `CreateGroup`. -/
def createGroup (s : Slot) (gid : String) (memberIDs : List String) (now : Int) : Slot :=
  { s with
    group := Function.update s.group gid ⟨sadd (s.group gid).members memberIDs, now + groupTTL⟩ }

/-- What `CreateGroupIfAbsent` found. -/
inductive GroupStageState where
  | done
  | present
  | created
deriving DecidableEq, Repr

/-- `createGroupIfAbsentCmd`. -/
def createGroupIfAbsent (s : Slot) (gid : String) (memberIDs : List String) (cbID : String)
    (now : Int) : Slot × GroupStageState :=
  if (s.task cbID).present then (s, .done)
  else if (s.group gid).members ≠ [] then
    ({ s with group := Function.update s.group gid ⟨(s.group gid).members, now + groupTTL⟩ },
      .present)
  else
    ({ s with
        group := Function.update s.group gid ⟨sadd [] memberIDs, now + groupTTL⟩
        groupResult := Function.update s.groupResult gid {} }, .created)

/-- The arguments of `groupCompleteCmd`: the member that reports, the callback to
create, and where to put it (`none` for the stream, a score for the scheduled
set). -/
structure Report where
  groupID : String
  member : String
  callback : TaskMessage
  score : Option Int
  result : Bytes
  index : Nat
  size : Nat

/-- The result fields after a report. -/
def reportedFields (s : Slot) (r : Report) : List (Nat × Bytes) :=
  if r.result = [] then (s.groupResult r.groupID).fields
  else hset (s.groupResult r.groupID).fields r.index r.result

/-- The callback message with the collected results embedded. -/
def withResults (cb : TaskMessage) (fields : List (Nat × Bytes)) (size : Nat) : TaskMessage :=
  if fields ≠ [] ∧ 0 < size then
    { cb with groupResults := (List.range size).map (hget fields) }
  else cb

@[simp] theorem withResults_id (cb : TaskMessage) (fields : List (Nat × Bytes)) (size : Nat) :
    (withResults cb fields size).id = cb.id := by
  unfold withResults
  split <;> rfl

@[simp] theorem withResults_result (cb : TaskMessage) (fields : List (Nat × Bytes)) (size : Nat) :
    (withResults cb fields size).result = cb.result := by
  unfold withResults
  split <;> rfl

/-- The callback as it is placed: pending in the stream, or scheduled. -/
def placeCallback (s : Slot) (cb : TaskMessage) : Option Int → Slot
  | none => (s.put cb .pending).append cb.id
  | some score => (s.put cb .scheduled).zadd .scheduled score cb.id

@[simp] theorem group_placeCallback (s : Slot) (cb : TaskMessage) (score : Option Int) :
    (s.placeCallback cb score).group = s.group := by
  cases score <;> rfl

@[simp] theorem groupResult_placeCallback (s : Slot) (cb : TaskMessage) (score : Option Int) :
    (s.placeCallback cb score).groupResult = s.groupResult := by
  cases score <;> rfl

/-- `DEL` of the pending set and the result hash. -/
def dropGroup (s : Slot) (gid : String) : Slot :=
  { s with
    group := Function.update s.group gid {}
    groupResult := Function.update s.groupResult gid {} }

/-- `groupCompleteCmd`. -/
def groupComplete (s : Slot) (r : Report) (now : Int) : Slot × Bool :=
  if (s.group r.groupID).members = [] then (s, false)
  else
    let rest := srem (s.group r.groupID).members r.member
    let fields := s.reportedFields r
    if rest ≠ [] then
      ({ s with
          group := Function.update s.group r.groupID ⟨rest, now + groupTTL⟩
          groupResult := Function.update s.groupResult r.groupID ⟨fields, now + groupTTL⟩ }, false)
    else
      let s := s.dropGroup r.groupID
      if (s.task r.callback.id).present then (s, false)
      else (s.placeCallback (withResults r.callback fields r.size) r.score, true)

/-! ## Expiry -/

/-- Drop every key whose time to live has run out at `now`. -/
def purge (s : Slot) (now : Int) : Slot :=
  { s with
    group := fun g => if (s.group g).expireAt ≤ now then {} else s.group g
    groupResult := fun g => if (s.groupResult g).expireAt ≤ now then {} else s.groupResult g
    unique := fun k => (s.unique k).filter fun l => now < l.expireAt
    dedup := fun t => (s.dedup t).filter fun e => now < e }

end Slot
end ChronosGo
