import ChronosGo.World
import Mathlib.Data.Set.Basic

/-! # What each routine has seen before each of its commands

The routines of `Server` are sequential, so what a command relies on is in the
history of its own process: a worker acknowledges a task only after the handler
has returned and the successor has been handed over, an orphan entry is dropped
only after its body was found missing, and so on.  `WorkOp`, `FetchOp`,
`RecoverOp`, `DeleteOp` and `SendOp` spell this out, one rule for each place a
routine sends a request from; `protocol` collects them and `obeys_protocol`
proves that the routines keep to it, whatever Redis replies.

This is all that the results about runs use of the programs' text.
-/
namespace ChronosGo
open Interleaving

/-- What one process has done so far, oldest first. -/
abbrev Hist : Type := List (Event Cmd Cmd.Reply Job)

/-- The request was answered with `r`. -/
def Did (h : Hist) (op : Op) (r : op.Reply) : Prop :=
  Event.call (Cmd.redis op) (some r) ∈ h

/-- The request was sent. -/
def Tried (h : Hist) (op : Op) : Prop := ∃ r, Event.call (Cmd.redis op) r ∈ h

/-- The handler was run on the message. -/
def Ran (h : Hist) (msg : TaskMessage) (out : Outcome) : Prop :=
  Event.call (Cmd.handle msg) out ∈ h

/-- The last thing that happened was this answer. -/
def Last (h : Hist) (op : Op) (r : op.Reply) : Prop :=
  ∃ h', h = h' ++ [Event.call (Cmd.redis op) (some r)]

/-- No request was sent that may store a body under this identifier. -/
def Untried (h : Hist) (id : String) : Prop := ∀ op, Tried h op → op.target ≠ some id

/-- No entry was acknowledged. -/
def Unacked (h : Hist) : Prop := ∀ op, Tried h op → op.acks = []

/-- No request failed, and no successor was found to exist already. -/
structure Smooth (h : Hist) : Prop where
  clean : ∀ op, Event.call (Cmd.redis op) none ∉ h
  enqueued : ∀ msg, ¬ Did h (.chainEnqueue msg) false
  scheduled : ∀ msg score, ¬ Did h (.chainSchedule msg score) false

theorem Did.tried {h : Hist} {op : Op} {r : op.Reply} (hd : Did h op r) : Tried h op := ⟨_, hd⟩

theorem Last.did {h : Hist} {op : Op} {r : op.Reply} (hl : Last h op r) : Did h op r := by
  obtain ⟨h', rfl⟩ := hl
  exact List.mem_concat_self

/-! ## Requests of a worker -/

/-- The request by which `EnqueueChainLink` makes a task available. -/
inductive LinkOp (msg : TaskMessage) (delay : Int) : Op → Prop where
  | enqueue (hd : ¬ 0 < delay) : LinkOp msg delay (.chainEnqueue msg)
  | schedule (now : Int) (hd : 0 < delay) :
      LinkOp msg delay (.chainSchedule msg (unix (now + delay) * second))

/-- The request by which `CompleteGroupMember` reports a member. -/
inductive ReportOp (member : TaskMessage) : Op → Prop where
  | enqueue {link : ChainLink} (hl : member.groupCallback = some link)
      (hq : member.groupQueue = link.queue) (hd : ¬ 0 < link.delay) :
      ReportOp member (.groupComplete link.queue (memberReport member link none))
  | schedule {link : ChainLink} (now : Int) (hl : member.groupCallback = some link)
      (hq : member.groupQueue = link.queue) (hd : 0 < link.delay) :
      ReportOp member (.groupComplete link.queue
        (memberReport member link (some (unix (now + delayDuration link.delay) * second))))

/-- The request that creates the pending set of the stage after a message. -/
abbrev stageOp (msg : TaskMessage) (link : ChainLink) : Op :=
  .createGroupIfAbsent link.queue (stageID msg) (stageMemberIDs msg link) (callbackID (stageID msg))

/-- A task was made available, or found to exist. -/
def LinkDone (h : Hist) (msg : TaskMessage) (delay : Int) : Prop :=
  ∃ op r, LinkOp msg delay op ∧ Did h op r

/-- A member was reported to its group. -/
def Reported (h : Hist) (member : TaskMessage) : Prop := ∃ op r, ReportOp member op ∧ Did h op r

/-- A parallel stage was materialised: it was found complete, or each member was
enqueued or found to have left the pending set. -/
def StageDone (h : Hist) (msg : TaskMessage) (link : ChainLink) (rest : List ChainLink) : Prop :=
  ∃ st, Did h (stageOp msg link) st ∧ (st = .done ∨ ∀ j m, link.group[j]? = some m →
    LinkDone h (stageMember msg link rest j m) (delayDuration m.delay) ∨
      ∃ ids, Did h (.groupMembers link.queue (stageID msg)) ids ∧
        memberID (stageID msg) j ∉ ids)

/-- What has to have happened before a message that succeeded is acknowledged. -/
inductive HandedOver (h : Hist) (msg : TaskMessage) : Prop where
  | link {link : ChainLink} {rest : List ChainLink} (hc : msg.chain = link :: rest)
      (hg : link.group = [])
      (hd : LinkDone h (nextLink msg link rest) (delayDuration link.delay))
  | stage {link : ChainLink} {rest : List ChainLink} (hc : msg.chain = link :: rest)
      (hg : link.group ≠ []) (hd : StageDone h msg link rest)
  | report (hc : msg.chain = []) (hg : msg.groupID ≠ "") (hd : Reported h msg)
  | last (hc : msg.chain = []) (hg : msg.groupID = "")

/-- The requests of a worker on entry `sid` with message `m`, each with what the
worker has seen before. -/
inductive WorkOp (q : String) (sid : Nat) (m : TaskMessage) (h : Hist) : Op → Prop where
  | link {r : Option Bytes} {link : ChainLink} {rest : List ChainLink} {op : Op}
      (ok : Ran h m (.ok r)) (hc : m.chain = link :: rest) (hg : link.group = [])
      (ho : LinkOp (nextLink (withResult m r) link rest) (delayDuration link.delay) op)
      (hnew : Smooth h → Untried h (nextLink (withResult m r) link rest).id) : WorkOp q sid m h op
  | stage {r : Option Bytes} {link : ChainLink} {rest : List ChainLink}
      (ok : Ran h m (.ok r)) (hc : m.chain = link :: rest) (hg : link.group ≠ [])
      (hnew : Smooth h → ∀ st, ¬ Did h (stageOp (withResult m r) link) st) :
      WorkOp q sid m h (stageOp (withResult m r) link)
  | pending {r : Option Bytes} {link : ChainLink} {rest : List ChainLink}
      (ok : Ran h m (.ok r)) (hc : m.chain = link :: rest)
      (hs : Did h (stageOp (withResult m r) link) .present) :
      WorkOp q sid m h (.groupMembers link.queue (stageID (withResult m r)))
  | member {r : Option Bytes} {link : ChainLink} {rest : List ChainLink} {j : Nat}
      {gm : GroupMemberLink} {st : Slot.GroupStageState} {op : Op}
      (ok : Ran h m (.ok r)) (hc : m.chain = link :: rest)
      (hs : Did h (stageOp (withResult m r) link) st) (hst : st ≠ .done)
      (hj : link.group[j]? = some gm)
      (ho : LinkOp (stageMember (withResult m r) link rest j gm) (delayDuration gm.delay) op)
      (hnew : Smooth h → Untried h (memberID (stageID (withResult m r)) j)) : WorkOp q sid m h op
  | drainState {q' id : String} : WorkOp q sid m h (.taskState q' id)
  | drainGet {q' id : String} : WorkOp q sid m h (.getTask q' id)
  | drain {q' id : String} {stored : TaskMessage} {link : ChainLink} {rest : List ChainLink}
      {op : Op} (hs : Did h (.taskState q' id) (some .completed))
      (hb : Did h (.getTask q' id) (some stored)) (ho : ReportOp stored op)
      (hnot : ¬ Smooth h) (hc : m.chain = link :: rest) (hg : link.group ≠ [])
      (hid : ∃ j, id = memberID (stageID m) j) : WorkOp q sid m h op
  | report {r : Option Bytes} {op : Op}
      (ok : Ran h m (.ok r)) (hc : m.chain = []) (hg : m.groupID ≠ "")
      (ho : ReportOp (withResult m r) op)
      (hnew : Smooth h → Untried h (callbackID m.groupID)) : WorkOp q sid m h op
  | retain {r : Option Bytes} {now : Int}
      (ok : Ran h m (.ok r)) (hd : HandedOver h (withResult m r)) (ht : 0 < m.retention)
      (hu : Unacked h) :
      WorkOp q sid m h (.moveToZSet q sid
        { withResult m r with chain := [], completedAt := unix now } .completed
        ((unix now + m.retention) * second))
  | delete {r : Option Bytes}
      (ok : Ran h m (.ok r)) (hd : HandedOver h (withResult m r)) (ht : ¬ 0 < m.retention)
      (hu : Unacked h) : WorkOp q sid m h (.ackDelete q sid m.id)
  | discard {err : String} {skip : Bool}
      (bad : Ran h m (.fail err skip)) (hx : skip = true ∨ m.maxRetry ≤ m.retried)
      (hn : m.noArchive = true) (hu : Unacked h) : WorkOp q sid m h (.ackDelete q sid m.id)
  | archive {err : String} {skip : Bool} {now : Int}
      (bad : Ran h m (.fail err skip)) (hx : skip = true ∨ m.maxRetry ≤ m.retried)
      (hn : m.noArchive = false) (hu : Unacked h) :
      WorkOp q sid m h (.moveToZSet q sid { m with lastErr := err, completedAt := 0 } .archived
        (unix now * second))
  | retry {err : String} {skip : Bool} {at' : Int}
      (bad : Ran h m (.fail err skip)) (hx : ¬ (skip = true ∨ m.maxRetry ≤ m.retried))
      (hu : Unacked h) :
      WorkOp q sid m h (.moveToZSet q sid
        { m with retried := m.retried + 1, lastErr := err, completedAt := 0 } .retry
        (unix at' * second))
  | release {op : Op} {r : op.Reply} (hl : Last h op r) (ha : op.acks = [sid])
      (ht : op = .ackDelete q sid m.id ∨ ∃ msg z score, op = .moveToZSet q sid msg z score ∧
        msg.id = m.id ∧ msg.uniqueKey = m.uniqueKey ∧ z ≠ .retry)
      (hk : m.uniqueKey ≠ "") : WorkOp q sid m h (.releaseUnique m.queue m.uniqueKey m.id)

/-! ## Requests of the other routines -/

/-- The fetch round was given this entry. -/
def Fetched (q consumer : String) (count : Nat) (h : Hist) (sid : Nat) (id : String) : Prop :=
  ∃ entries, Did h (.xReadGroup q consumer (max count 1)) entries ∧ (sid, id) ∈ entries

/-- The fetch round was given this entry and found the task's body. -/
def Loaded (q consumer : String) (count : Nat) (h : Hist) (sid : Nat) (m : TaskMessage) : Prop :=
  ∃ id, Fetched q consumer count h sid id ∧ Did h (.getTask q id) (some m)

/-- The entry has been neither handed to a worker nor returned. -/
def Undispatched (h : Hist) (sid : Nat) : Prop :=
  (∀ q m, Event.fork (Job.work q sid m) ∉ h) ∧ ∀ q id, ¬ Tried h (.requeue q sid id)

/-- The entries the fetch round was given are different ones. -/
def DistinctEntries (q consumer : String) (count : Nat) (h : Hist) : Prop :=
  ∀ entries, Did h (.xReadGroup q consumer (max count 1)) entries → (entries.map Prod.fst).Nodup

/-- The requests of a fetch round. -/
inductive FetchOp (q consumer : String) (count : Nat) (h : Hist) : Op → Prop where
  | read (hh : h = []) : FetchOp q consumer count h (.xReadGroup q consumer (max count 1))
  | load {sid : Nat} {id : String} (hf : Fetched q consumer count h sid id)
      (hu : ∀ sid, Undispatched h sid) : FetchOp q consumer count h (.getTask q id)
  | orphans {sids : List Nat}
      (ho : ∀ sid ∈ sids, ∃ id, Fetched q consumer count h sid id ∧ Did h (.getTask q id) none) :
      FetchOp q consumer count h (.ackOrphans q sids)
  | mark {sid : Nat} {m : TaskMessage} (hl : Loaded q consumer count h sid m)
      (hu : ∀ sid, Undispatched h sid) : FetchOp q consumer count h (.markActive q m.id)
  | requeue {sid : Nat} {m : TaskMessage} (hl : Loaded q consumer count h sid m)
      (hm : Did h (.markActive q m.id) ())
      (hu : DistinctEntries q consumer count h → Undispatched h sid) :
      FetchOp q consumer count h (.requeue m.queue sid m.id)

/-- The worker a fetch round may start. -/
inductive FetchFork (q consumer : String) (count : Nat) (h : Hist) : Job → Prop where
  | work {sid : Nat} {m : TaskMessage} (hl : Loaded q consumer count h sid m)
      (hm : Did h (.markActive q m.id) ())
      (hu : DistinctEntries q consumer count h → Undispatched h sid) :
      FetchFork q consumer count h (.work m.queue sid { m with state := .active })

/-- The recoverer claimed this entry. -/
def Claimed (q consumer : String) (minIdle : Int) (max : Nat) (h : Hist) (sid : Nat)
    (id : String) : Prop :=
  ∃ entries, Did h (.xAutoClaim q consumer minIdle max) entries ∧ (sid, id) ∈ entries

/-- The recoverer claimed this entry and found the task's body. -/
def ClaimedTask (q consumer : String) (minIdle : Int) (max : Nat) (h : Hist) (sid : Nat)
    (m : TaskMessage) : Prop :=
  ∃ id, Claimed q consumer minIdle max h sid id ∧ Did h (.getTask q id) (some m)

/-- The requests of the recoverer. -/
inductive RecoverOp (q consumer : String) (minIdle : Int) (max : Nat) (h : Hist) : Op → Prop where
  | claim (hh : h = []) : RecoverOp q consumer minIdle max h (.xAutoClaim q consumer minIdle max)
  | load {sid : Nat} {id : String} (hc : Claimed q consumer minIdle max h sid id) :
      RecoverOp q consumer minIdle max h (.getTask q id)
  | orphan {sid : Nat} {id : String} (hc : Claimed q consumer minIdle max h sid id)
      (hb : Did h (.getTask q id) none) : RecoverOp q consumer minIdle max h (.ackOrphans q [sid])
  | archive {sid : Nat} {m : TaskMessage} {now : Int}
      (hc : ClaimedTask q consumer minIdle max h sid m) (hx : m.maxRetry ≤ m.retried) :
      RecoverOp q consumer minIdle max h (.moveToZSet q sid m .archived (unix now * second))
  | retry {sid : Nat} {m : TaskMessage} {now : Int}
      (hc : ClaimedTask q consumer minIdle max h sid m) (hx : ¬ m.maxRetry ≤ m.retried) :
      RecoverOp q consumer minIdle max h (.moveToZSet q sid { m with retried := m.retried + 1 }
        .retry (unix now * second))
  | release {sid : Nat} {m : TaskMessage} {score : Int}
      (hc : ClaimedTask q consumer minIdle max h sid m)
      (hl : Last h (.moveToZSet q sid m .archived score) ()) (hk : m.uniqueKey ≠ "") :
      RecoverOp q consumer minIdle max h (.releaseUnique m.queue m.uniqueKey m.id)

/-- The requests of `DeleteTask`. -/
inductive DeleteOp (q id : String) (h : Hist) : Op → Prop where
  | load (hh : h = []) : DeleteOp q id h (.getTask q id)
  | delete {body : Option TaskMessage} (hb : Did h (.getTask q id) body) :
      DeleteOp q id h (.deleteTask q id)
  | release {m : TaskMessage} (hb : Did h (.getTask q id) (some m))
      (hl : Last h (.deleteTask q id) ()) (hk : m.uniqueKey ≠ "") :
      DeleteOp q id h (.releaseUnique m.queue m.uniqueKey m.id)

/-- A client sends its requests in order, each after all earlier ones have been
answered. -/
structure SendOp (ops : List Op) (h : Hist) (op : Op) : Prop where
  next : ops[h.length]? = some op
  before : ∀ n o, n < h.length → ops[n]? = some o → ∃ r, Did h o r

/-! ## The discipline -/

/-- A command is a permitted request or a permitted run of a handler; reading the
clock and the like is always permitted. -/
def Cmd.Permitted (request : Op → Prop) (run : TaskMessage → Prop) : Cmd → Prop
  | redis op => request op
  | handle m => run m
  | _ => True

/-- The requests of a job. -/
def Job.Request (h : Hist) : Job → Op → Prop
  | send op => SendOp [op] h
  | sendAll ops => SendOp ops h
  | deleteTask q id => DeleteOp q id h
  | fetch q consumer count _ => FetchOp q consumer count h
  | work q sid msg => WorkOp q sid msg h
  | recover q consumer minIdle max => RecoverOp q consumer minIdle max h

/-- The handler a job may run: a worker, its own task's, before anything else. -/
def Job.Runs (h : Hist) : Job → TaskMessage → Prop
  | work _ _ msg, m => m = msg ∧ h = []
  | _, _ => False

/-- The jobs a job may start. -/
def Job.Forks (h : Hist) : Job → Job → Prop
  | fetch q consumer count _, j => FetchFork q consumer count h j
  | _, _ => False

/-- What a job has achieved when its routine returns. -/
def Job.Done (h : Hist) : Job → Prop
  | sendAll ops => (∀ op, Event.call (Cmd.redis op) none ∉ h) → ∀ op ∈ ops, ∃ r, Did h op r
  | _ => True

/-- The discipline of the routines. -/
def protocol : Discipline Cmd Cmd.Reply Job where
  call := fun j h c => c.Permitted (j.Request h) (j.Runs h)
  fork := fun j h j' => j.Forks h j'
  done := fun j h => j.Done h

end ChronosGo
