import ChronosGo.Alone
import ChronosGo.Replay

/-! # The two ways to the dead-letter set

A task whose retry budget is exhausted is given up by the worker whose handler failed
(`deadLetter`) or by the recoverer that claims its entry (`recoverEntry`).  The two end
in the same store, up to the text of the last error, if and only if the task is not to
be discarded and its message has no completion time (`paths_agree_iff`): the recoverer
archives whatever the message says, and keeps a completion time that an earlier run has
left.
-/
namespace ChronosGo
open Interleaving Redis

/-! ## What the paths do -/

/-- Release the lock of the task, if its message names one. -/
def Slot.unlock (s : Slot) (msg : TaskMessage) : Slot :=
  if msg.uniqueKey = "" then s else s.releaseUnique msg.uniqueKey msg.id

section Paths
variable {k : Keys} {w : World} {q : String} {sid : Nat} {msg : TaskMessage} {t : Int}

/-- The keys of the queues after a request, if the routine ends there. -/
theorem slot_releaseUnique (hq : msg.queue = q) :
    ∃ w', w.alone k (releaseUnique msg) = some ((), w') ∧
      w'.slot = Function.update w.slot q ((w.slot q).unlock msg) := by
  unfold releaseUnique Slot.unlock
  split
  · exact ⟨w, rfl, (Function.update_eq_self ..).symm⟩
  · refine ⟨w.perform k 0 (.releaseUnique msg.queue msg.uniqueKey msg.id), rfl, ?_⟩
    rw [← hq]
    rfl

/-- The same after the request that acknowledges the task. -/
theorem slot_acknowledged (op : Op) (hop : op.queue = q) (hq : msg.queue = q) :
    ∃ w', (w.perform k 0 op).alone k (releaseUnique msg) = some ((), w') ∧
      w'.slot = Function.update w.slot q ((w.slotAfter k op).unlock msg) := by
  subst hop
  obtain ⟨w', hw, hslot⟩ := slot_releaseUnique (k := k) (w := w.perform k 0 op) hq
  refine ⟨w', hw, hslot.trans ?_⟩
  change Function.update (Function.update w.slot op.queue _) op.queue
    (Slot.unlock (Function.update w.slot op.queue _ op.queue) msg) = _
  rw [Function.update_idem, Function.update_self]

theorem slot_archive (hq : msg.queue = q) (sid : Nat) (t : Int) :
    ∃ w', w.alone k (archive q sid msg t) = some ((), w') ∧
    w'.slot = Function.update w.slot q
      (((w.slot q).moveToZSet sid msg .archived (unix t * second)).unlock msg) :=
  slot_acknowledged (.moveToZSet q sid msg .archived (unix t * second)) rfl hq

theorem slot_discard (hq : msg.queue = q) (hr : ¬ 0 < msg.retention) :
    ∃ w', w.alone k (done q sid msg) = some ((), w') ∧
      w'.slot = Function.update w.slot q (((w.slot q).ackDelete sid msg.id).unlock msg) := by
  unfold done
  rw [if_neg hr]
  exact slot_acknowledged (.ackDelete q sid msg.id) rfl hq

/-- The server's path. -/
theorem slot_deadLetter (hq : msg.queue = q) (sid : Nat) (cause : String) :
    ∃ w', w.alone k (deadLetter q sid msg cause) = some ((), w') ∧
      w'.slot = Function.update w.slot q ((if msg.noArchive then (w.slot q).ackDelete sid msg.id
        else (w.slot q).moveToZSet sid { msg with lastErr := cause, completedAt := 0 } .archived
          (unix w.now * second)).unlock msg) := by
  unfold deadLetter
  dsimp only
  by_cases hn : msg.noArchive
  · rw [if_pos hn, if_pos hn]
    exact slot_discard hq (Int.lt_irrefl 0)
  · rw [if_neg hn, if_neg hn]
    have hq' : ({ msg with lastErr := cause, completedAt := 0 } : TaskMessage).queue = q := hq
    exact slot_archive hq' sid w.now

/-- The recoverer's path, for a message whose budget is exhausted. -/
theorem slot_recoverEntry (hq : msg.queue = q) (hm : (w.slot q).body msg.id = some msg)
    (hx : msg.maxRetry ≤ msg.retried) :
    ∃ w', w.alone k (recoverEntry q t sid msg.id) = some ((), w') ∧
      w'.slot = Function.update w.slot q
        (((w.slot q).moveToZSet sid msg .archived (unix t * second)).unlock msg) := by
  have hslot : (w.perform k 0 (.getTask q msg.id)).slot = w.slot := Function.update_eq_self _ _
  have hreply : w.reply k (.getTask q msg.id) = some msg := hm
  obtain ⟨w', hw, hw'⟩ := slot_archive (k := k) (w := w.perform k 0 (.getTask q msg.id)) hq sid t
  rw [hslot] at hw'
  refine ⟨w', ?_, hw'⟩
  unfold recoverEntry
  rw [World.alone_bind, World.alone_redis, Option.bind_some, hreply]
  dsimp only
  rw [if_pos hx]
  exact hw

end Paths

/-! ## Comparing them -/

/-- The message without the text of its last error. -/
def TaskMessage.eraseErr (m : TaskMessage) : TaskMessage := { m with lastErr := "" }

/-- The same keys, up to the last errors in the stored messages. -/
structure Slot.EqUpToErr (s t : Slot) : Prop where
  state : ∀ id, (s.task id).state = (t.task id).state
  msg : ∀ id, (s.task id).msg.map TaskMessage.eraseErr = (t.task id).msg.map TaskMessage.eraseErr
  stream : s.stream = t.stream
  zset : s.zset = t.zset
  group : s.group = t.group
  groupResult : s.groupResult = t.groupResult
  unique : s.unique = t.unique
  dedup : s.dedup = t.dedup

/-- The entry of the task is claimed, by some consumer at some time. -/
def World.claim (w : World) (q consumer : String) (sid : Nat) (t : Int) : World :=
  { w with
    slot := Function.update w.slot q
      { (w.slot q) with stream := (w.slot q).stream.xclaim consumer [sid] t } }

section Compare
variable {s t : Slot} {sid : Nat} {msg : TaskMessage}

@[simp] theorem Slot.task_unlock : (s.unlock msg).task = s.task := by
  unfold Slot.unlock Slot.releaseUnique
  split
  · rfl
  · split <;> rfl

/-- Releasing a lock keeps the keys the same. -/
theorem Slot.EqUpToErr.unlock (h : s.EqUpToErr t) : (s.unlock msg).EqUpToErr (t.unlock msg) := by
  unfold Slot.unlock Slot.releaseUnique
  split
  · exact h
  · rw [h.unique]
    split
    · exact ⟨h.state, h.msg, h.stream, h.zset, h.group, h.groupResult, rfl, h.dedup⟩
    · exact h

/-- The keys after the recoverer's path are those after the server's, up to the last error,
if and only if the message is to be archived and has no completion time. -/
theorem eqUpToErr_iff (s : Slot) (sid : Nat) (msg : TaskMessage) (consumer cause : String)
    (t now : Int) :
    ((({ s with stream := s.stream.xclaim consumer [sid] t } : Slot).moveToZSet sid msg .archived
        (unix now * second)).unlock msg).EqUpToErr
      ((if msg.noArchive then s.ackDelete sid msg.id
        else s.moveToZSet sid { msg with lastErr := cause, completedAt := 0 } .archived
          (unix now * second)).unlock msg) ↔
      msg.noArchive = false ∧ msg.completedAt = 0 := by
  constructor
  · intro h
    have hmsg := h.msg msg.id
    simp only [Slot.task_unlock] at hmsg
    by_cases hn : msg.noArchive = true
    · rw [if_pos hn] at hmsg
      simp [Slot.moveToZSet, Slot.ackDelete, Slot.del, Slot.put, Slot.zadd, Slot.ack] at hmsg
    · rw [if_neg hn] at hmsg
      simp [Slot.moveToZSet, Slot.put, Slot.zadd, Slot.ack, TaskMessage.eraseErr] at hmsg
      exact ⟨by simpa using hn, hmsg⟩
  · rintro ⟨hn, hc⟩
    refine Slot.EqUpToErr.unlock ?_
    rw [if_neg (by simp [hn])]
    refine ⟨fun id => ?_, fun id => ?_, ?_, rfl, rfl, rfl, rfl, rfl⟩
    · by_cases hid : id = msg.id <;>
        simp [Slot.moveToZSet, Slot.put, Slot.zadd, Slot.ack, hid]
    · by_cases hid : id = msg.id <;>
        simp [Slot.moveToZSet, Slot.put, Slot.zadd, Slot.ack, TaskMessage.eraseErr, hid, hc]
    · change ((s.stream.xclaim consumer [sid] t).xack [sid]).xdel [sid] =
        (s.stream.xack [sid]).xdel [sid]
      rw [Redis.Stream.xack_xclaim]

theorem Slot.EqUpToErr.refl (s : Slot) : s.EqUpToErr s :=
  ⟨fun _ => rfl, fun _ => rfl, rfl, rfl, rfl, rfl, rfl, rfl⟩

end Compare

/-- **When the two dead-letter paths agree.**  The stored message of a task has exhausted its
retry budget.  The recoverer, having claimed the entry, and the server that works on it end
in the same store, up to the text of the last error, if and only if the task is not to be
discarded and has no completion time. -/
theorem paths_agree_iff (k : Keys) (w : World) (sid : Nat) (msg : TaskMessage)
    (consumer cause : String) (t : Int) (hm : (w.slot msg.queue).body msg.id = some msg)
    (hx : msg.maxRetry ≤ msg.retried) :
    ∃ w₁ w₂, (w.claim msg.queue consumer sid t).alone k
        (recoverEntry msg.queue w.now sid msg.id) = some ((), w₁) ∧
      w.alone k (deadLetter msg.queue sid { msg with state := .active } cause) = some ((), w₂) ∧
      ((∀ q, (w₁.slot q).EqUpToErr (w₂.slot q)) ↔
        msg.noArchive = false ∧ msg.completedAt = 0) := by
  have hclaimed : (w.claim msg.queue consumer sid t).slot msg.queue =
      { (w.slot msg.queue) with
        stream := (w.slot msg.queue).stream.xclaim consumer [sid] t } := Function.update_self _ _ _
  have hm' : ((w.claim msg.queue consumer sid t).slot msg.queue).body msg.id = some msg := by
    rw [hclaimed]
    exact hm
  obtain ⟨w₁, h₁, hslot₁⟩ := slot_recoverEntry (k := k) (t := w.now) rfl hm' hx
  have hq : ({ msg with state := .active } : TaskMessage).queue = msg.queue := rfl
  obtain ⟨w₂, h₂, hslot₂⟩ := slot_deadLetter (k := k) (w := w) hq sid cause
  refine ⟨w₁, w₂, h₁, h₂, ?_⟩
  have hself := eqUpToErr_iff (w.slot msg.queue) sid msg consumer cause t w.now
  rw [hclaimed] at hslot₁
  rw [← hself, hslot₁, hslot₂]
  constructor
  · intro h
    have hq := h msg.queue
    rw [Function.update_self, Function.update_self] at hq
    exact hq
  · intro h q
    by_cases hq : q = msg.queue
    · subst hq
      rw [Function.update_self, Function.update_self]
      exact h
    · rw [Function.update_of_ne hq, Function.update_of_ne hq]
      have hother : (w.claim msg.queue consumer sid t).slot q = w.slot q :=
        Function.update_of_ne hq _ _
      rw [hother]
      exact .refl _

/-- A store in which the task has been delivered. -/
def deliveredTo (msg : TaskMessage) : World :=
  (World.init.perform sampleKeys 0 (.enqueue msg)).perform sampleKeys 1
    (.xReadGroup msg.queue "c" 1)

/-- A task that may fail once. -/
def onceTask (discard : Bool) : TaskMessage :=
  { id := "x", kind := "mail", payload := [], queue := "q", maxRetry := 0, noArchive := discard
    state := .pending }

/-- A task that is kept is archived on both paths. -/
theorem kept_on_both_paths :
    ∃ w₁ w₂, ((deliveredTo (onceTask false)).claim "q" "r" 1 0).alone sampleKeys
        (recoverEntry "q" 0 1 "x") = some ((), w₁) ∧
      (deliveredTo (onceTask false)).alone sampleKeys
        (deadLetter "q" 1 { onceTask false with state := .active } "boom") = some ((), w₂) ∧
      ∀ q, (w₁.slot q).EqUpToErr (w₂.slot q) := by
  obtain ⟨w₁, w₂, h₁, h₂, hiff⟩ := paths_agree_iff sampleKeys (deliveredTo (onceTask false)) 1
    (onceTask false) "r" "boom" 0 (by decide +kernel) (by decide)
  exact ⟨w₁, w₂, h₁, h₂, hiff.mpr ⟨rfl, rfl⟩⟩

/-- A task that is to be discarded is still there when the recoverer has given it up, and
gone when the server has. -/
theorem discarded_task_archived :
    (((deliveredTo (onceTask true)).claim "q" "r" 1 0).alone sampleKeys
        (recoverEntry "q" 0 1 "x")).map (fun r => ((r.2.slot "q").task "x").present) = some true ∧
      ((deliveredTo (onceTask true)).alone sampleKeys (deadLetter "q" 1
        { onceTask true with state := .active } "boom")).map
          (fun r => ((r.2.slot "q").task "x").present) = some false := by
  decide +kernel

end ChronosGo
