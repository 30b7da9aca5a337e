import ChronosGo.KeyLayout
import ChronosGo.Slot

/-! # Hash tags: the keys of a script are in one slot

On a cluster all keys of a script or a transaction have to hash to one slot.  Redis
hashes the text between the first opening brace of a key and the first closing brace
after it, if there is any, and the whole key otherwise.  A namespace has no braces, so
the first pair is the one around the queue's name; but nothing constrains the name.

If it begins with something other than a closing brace, every script works within one
slot; if it is empty or begins with one, no key has a tag (`scripts_single_slot_iff`).
-/
namespace ChronosGo
namespace HashSlots

/-! ## The rule of Redis -/

/-- What Redis hashes of a key. -/
def hashTag (key : String) : String :=
  match key.toList.dropWhile (· ≠ '\x7b') with
  | [] => key
  | _ :: rest =>
    let tag := rest.takeWhile (· ≠ '\x7d')
    if '\x7d' ∈ rest ∧ tag ≠ [] then String.ofList tag else key

/-- The queue's name up to its first closing brace. -/
def tagOf (qname : String) : List Char := qname.toList.takeWhile (· ≠ '\x7d')

/-- The queue's name gives its keys a tag: it is not empty, and does not begin with a
closing brace. -/
def Taggable (qname : String) : Prop := tagOf qname ≠ []

instance (qname : String) : Decidable (Taggable qname) := inferInstanceAs (Decidable (_ ≠ _))

theorem takeWhile_append_brace (l rest : List Char) :
    (l ++ '\x7d' :: rest).takeWhile (· ≠ '\x7d') = l.takeWhile (· ≠ '\x7d') := by
  induction l with
  | nil => rfl
  | cons c l ih =>
    rw [List.cons_append, List.takeWhile_cons, List.takeWhile_cons, ih]

variable {k : Keys}

/-- The tag of a key of a queue. -/
theorem hashTag_queueKey (hk : '\x7b' ∉ k.keyPrefix.toList) (qname rest : String) :
    hashTag (k.queueKeyPrefix qname ++ rest) =
      if Taggable qname then String.ofList (tagOf qname) else k.queueKeyPrefix qname ++ rest := by
  have hdrop : (k.queueKeyPrefix qname ++ rest).toList.dropWhile (· ≠ '\x7b') =
      '\x7b' :: (qname.toList ++ '\x7d' :: ':' :: rest.toList) := by
    have hbefore : ∀ c ∈ k.keyPrefix.toList ++ [':'], decide (c ≠ '\x7b') = true := by
      intro c hc
      rcases List.mem_append.mp hc with hc | hc
      · exact decide_eq_true fun heq => hk (heq ▸ hc)
      · rw [List.mem_singleton.mp hc]
        rfl
    have hlist : (k.queueKeyPrefix qname ++ rest).toList =
        (k.keyPrefix.toList ++ [':']) ++
          '\x7b' :: (qname.toList ++ '\x7d' :: ':' :: rest.toList) := by
      simp [String.toList_append, Keys.toList_queueKeyPrefix]
    rw [hlist, List.dropWhile_append_of_pos hbefore]
    rfl
  have hmem : '\x7d' ∈ qname.toList ++ '\x7d' :: ':' :: rest.toList := by simp
  simp only [hashTag, hdrop, takeWhile_append_brace, hmem, true_and]
  rfl

/-! ## The scripts and their keys -/

/-- A call of a script or transaction with several keys, with the arguments that its keys
depend on.  `ids` are the identifiers that a script reads from a sorted set. -/
inductive Script where
  | enqueue (msg : TaskMessage)
  | schedule (msg : TaskMessage)
  | enqueueUnique (msg : TaskMessage)
  | scheduleUnique (msg : TaskMessage)
  | enqueuePeriodic (msg : TaskMessage) (triggerID : String)
  | enqueueChainLink (msg : TaskMessage) (delay : Int)
  | ackOrphans (qname : String)
  | requeue (qname : String) (msg : TaskMessage)
  | done (qname : String) (msg : TaskMessage)
  | moveToZSet (qname : String) (msg : TaskMessage) (z : ZKey)
  | forward (qname : String) (z : ZKey) (ids : List String)
  | trim (qname : String) (z : ZKey) (ids : List String)
  | runTask (qname taskID : String)
  | deleteTask (qname taskID : String)
  | createGroup (cbQueue groupID : String)
  | createGroupIfAbsent (cbQueue groupID cbTaskID : String)
  | completeGroupMember (member : TaskMessage)

/-- The key of a sorted set. -/
def zsetKey (k : Keys) (qname : String) : ZKey → String
  | .scheduled => k.scheduledKey qname
  | .retry => k.retryKey qname
  | .archived => k.archivedKey qname
  | .completed => k.completedKey qname

namespace Script

/-- The queue the call works on. -/
def queue : Script → String
  | enqueue msg | schedule msg | enqueueUnique msg | scheduleUnique msg => msg.queue
  | enqueuePeriodic msg _ | enqueueChainLink msg _ => msg.queue
  | ackOrphans qname | requeue qname _ | done qname _ | moveToZSet qname _ _ => qname
  | forward qname _ _ | trim qname _ _ | runTask qname _ | deleteTask qname _ => qname
  | createGroup cbQueue _ | createGroupIfAbsent cbQueue _ _ => cbQueue
  | completeGroupMember member => member.groupQueue

/-- The keys of `CompleteGroupMember`: none if the member's snapshot is not on the queue of
its group, because then the script is not called. -/
def groupKeys (k : Keys) (member : TaskMessage) : List String :=
  match member.groupCallback with
  | none => []
  | some link =>
    if member.groupQueue ≠ link.queue then []
    else
      [k.groupKey member.groupQueue member.groupID,
        k.taskKey link.queue (callbackID member.groupID),
        if 0 < link.delay then k.scheduledKey link.queue else k.streamKey link.queue,
        k.groupResultKey member.groupQueue member.groupID]

/-- The keys passed, and those the script computes. -/
def keys (k : Keys) : Script → List String
  | enqueue msg =>
    [k.taskKey msg.queue msg.id, k.streamKey msg.queue, k.completedKey msg.queue,
      k.archivedKey msg.queue]
  | schedule msg =>
    [k.taskKey msg.queue msg.id, k.scheduledKey msg.queue, k.completedKey msg.queue,
      k.archivedKey msg.queue]
  | enqueueUnique msg =>
    [k.uniqueKey msg.queue (k.uniqueSuffix msg.kind msg.payload), k.taskKey msg.queue msg.id,
      k.streamKey msg.queue, k.completedKey msg.queue, k.archivedKey msg.queue]
  | scheduleUnique msg =>
    [k.uniqueKey msg.queue (k.uniqueSuffix msg.kind msg.payload), k.taskKey msg.queue msg.id,
      k.scheduledKey msg.queue, k.completedKey msg.queue, k.archivedKey msg.queue]
  | enqueuePeriodic msg triggerID =>
    [k.periodicDedupKey msg.queue triggerID, k.taskKey msg.queue msg.id, k.streamKey msg.queue,
      k.completedKey msg.queue, k.archivedKey msg.queue]
  | enqueueChainLink msg delay =>
    [k.taskKey msg.queue msg.id,
      if 0 < delay then k.scheduledKey msg.queue else k.streamKey msg.queue]
  | ackOrphans qname => [k.streamKey qname, k.streamKey qname]
  | requeue qname msg => [k.streamKey qname, k.taskKey qname msg.id]
  | done qname msg => [k.streamKey qname, k.streamKey qname, k.taskKey qname msg.id]
  | moveToZSet qname msg z => [k.streamKey qname, k.taskKey qname msg.id, zsetKey k qname z]
  | forward qname z ids =>
    [zsetKey k qname z, k.streamKey qname] ++ ids.map (k.taskKeyPrefix qname ++ ·)
  | trim qname z ids => zsetKey k qname z :: ids.map (k.taskKeyPrefix qname ++ ·)
  | runTask qname taskID =>
    [k.scheduledKey qname, k.retryKey qname, k.archivedKey qname, k.completedKey qname,
      k.streamKey qname, k.taskKey qname taskID]
  | deleteTask qname taskID =>
    [k.scheduledKey qname, k.retryKey qname, k.archivedKey qname, k.completedKey qname,
      k.taskKey qname taskID]
  | createGroup cbQueue groupID => [k.groupKey cbQueue groupID, k.groupKey cbQueue groupID]
  | createGroupIfAbsent cbQueue groupID cbTaskID =>
    [k.groupKey cbQueue groupID, k.taskKey cbQueue cbTaskID, k.groupResultKey cbQueue groupID]
  | completeGroupMember member => groupKeys k member

/-- All keys have the same tag. -/
def SingleSlot (k : Keys) (sc : Script) : Prop :=
  ∀ x ∈ sc.keys k, ∀ y ∈ sc.keys k, hashTag x = hashTag y

/-! ## All keys are of one queue -/

/-- A key of the queue. -/
def InQueue (k : Keys) (qname x : String) : Prop := ∃ rest, x = k.queueKeyPrefix qname ++ rest

theorem inQueue_build {b : Keys.Builder} {qname rest : String}
    (h : b.inQueue = some (qname, rest)) : InQueue k qname (k.build b) :=
  ⟨rest, Keys.build_of_inQueue h⟩

section InQueue
variable (q id : String)

@[simp] theorem inQueue_streamKey : InQueue k q (k.streamKey q) :=
  inQueue_build (b := .streamKey q) rfl

@[simp] theorem inQueue_taskKey : InQueue k q (k.taskKey q id) :=
  inQueue_build (b := .taskKey q id) rfl

@[simp] theorem inQueue_taskKeyPrefix : InQueue k q (k.taskKeyPrefix q ++ id) :=
  inQueue_taskKey q id

@[simp] theorem inQueue_zsetKey (z : ZKey) : InQueue k q (zsetKey k q z) := by
  cases z with
  | scheduled => exact inQueue_build (b := .scheduledKey q) rfl
  | retry => exact inQueue_build (b := .retryKey q) rfl
  | archived => exact inQueue_build (b := .archivedKey q) rfl
  | completed => exact inQueue_build (b := .completedKey q) rfl

@[simp] theorem inQueue_scheduledKey : InQueue k q (k.scheduledKey q) :=
  inQueue_zsetKey q .scheduled
@[simp] theorem inQueue_retryKey : InQueue k q (k.retryKey q) := inQueue_zsetKey q .retry
@[simp] theorem inQueue_archivedKey : InQueue k q (k.archivedKey q) := inQueue_zsetKey q .archived
@[simp] theorem inQueue_completedKey : InQueue k q (k.completedKey q) :=
  inQueue_zsetKey q .completed

@[simp] theorem inQueue_groupKey : InQueue k q (k.groupKey q id) :=
  inQueue_build (b := .groupKey q id) rfl

@[simp] theorem inQueue_groupResultKey : InQueue k q (k.groupResultKey q id) :=
  inQueue_build (b := .groupResultKey q id) rfl

@[simp] theorem inQueue_uniqueKey : InQueue k q (k.uniqueKey q id) :=
  inQueue_build (b := .uniqueKey q id) rfl

@[simp] theorem inQueue_periodicDedupKey : InQueue k q (k.periodicDedupKey q id) :=
  inQueue_build (b := .periodicDedupKey q id) rfl

/-- Where a task goes, now or later. -/
@[simp] theorem inQueue_destination (delay : Int) :
    InQueue k q (if 0 < delay then k.scheduledKey q else k.streamKey q) := by
  split
  · exact inQueue_scheduledKey q
  · exact inQueue_streamKey q

end InQueue

/-- The keys of a report are of the queue of its group, which is the callback's. -/
theorem inQueue_of_mem_groupKeys {member : TaskMessage} {x : String}
    (hx : x ∈ groupKeys k member) : InQueue k member.groupQueue x := by
  unfold groupKeys at hx
  split at hx
  · cases hx
  · rename_i link hlink
    split at hx
    · cases hx
    · rename_i hqueue
      rw [not_not] at hqueue
      rw [← hqueue] at hx
      revert x
      simp

theorem inQueue_of_mem_keys {sc : Script} {x : String} (hx : x ∈ sc.keys k) :
    InQueue k sc.queue x := by
  cases sc with
  | completeGroupMember member => exact inQueue_of_mem_groupKeys hx
  | forward qname z ids | trim qname z ids =>
    revert x
    simp only [keys, queue, List.cons_append, List.nil_append, List.forall_mem_cons,
      List.forall_mem_map, inQueue_zsetKey, inQueue_streamKey, inQueue_taskKeyPrefix, implies_true,
      and_self]
  | _ =>
    revert x
    simp [keys, queue]

end Script

/-- **Scripts are single-slot** exactly on the queues whose name gives a tag: in every
namespace, the keys of each script or transaction on a queue, computed ones included, have
one tag if and only if the queue's name is not empty and does not begin with a closing
brace. -/
theorem scripts_single_slot_iff {sha256 : Bytes → String} {given : String} {k : Keys}
    (hk : newKeys sha256 given = .ok k) (qname : String) :
    (∀ sc : Script, sc.queue = qname → sc.SingleSlot k) ↔ Taggable qname := by
  have hbrace := brace_not_mem_of_newKeys hk
  constructor
  · intro hall
    by_contra htag
    -- without a tag, the keys of a task and of the stream are hashed whole
    have hkeys := hall (.runTask qname "") rfl (k.streamKey qname) (by simp [Script.keys])
      (k.taskKey qname "") (by simp [Script.keys])
    have hstream : hashTag (k.streamKey qname) = k.streamKey qname := by
      rw [Keys.streamKey, hashTag_queueKey hbrace, if_neg htag]
    have htask : hashTag (k.taskKey qname "") = k.taskKey qname "" := by
      rw [Keys.taskKey, String.append_assoc, hashTag_queueKey hbrace, if_neg htag]
    rw [hstream, htask, Keys.streamKey, Keys.taskKey, String.append_assoc] at hkeys
    exact absurd (string_append_left_cancel hkeys) (by decide)
  · rintro htag sc rfl x hx y hy
    obtain ⟨rest, rfl⟩ := Script.inQueue_of_mem_keys hx
    obtain ⟨rest', rfl⟩ := Script.inQueue_of_mem_keys hy
    rw [hashTag_queueKey hbrace, hashTag_queueKey hbrace, if_pos htag, if_pos htag]

/-- A name with a closing brace further on. -/
theorem odd_name_single_slot :
    (Script.enqueue
        { id := "x", kind := "mail", payload := [], queue := "mail\x7dx",
          maxRetry := 3 }).SingleSlot
      ⟨"chronos", fun _ => ""⟩ :=
  (scripts_single_slot_iff (Keys.newKeys_of_normalizePrefix (by decide +kernel) :
    newKeys (fun _ => "") "chronos" = .ok ⟨"chronos", fun _ => ""⟩) "mail\x7dx").mpr
    (by decide +kernel) _ rfl

/-- A name that begins with a closing brace: the task and the stream of an enqueue are hashed
by different texts. -/
theorem closing_brace_cross_slot :
    newKeys (fun _ => "") "chronos" = .ok ⟨"chronos", fun _ => ""⟩ ∧
      ¬ (Script.enqueue
          { id := "x", kind := "mail", payload := [], queue := "\x7dmail",
            maxRetry := 3 }).SingleSlot
        ⟨"chronos", fun _ => ""⟩ := by
  refine ⟨Keys.newKeys_of_normalizePrefix (by decide +kernel), fun h => ?_⟩
  have heq := h "chronos:\x7b\x7dmail\x7d:t:x" (by decide +kernel) "chronos:\x7b\x7dmail\x7d:stream"
    (by decide +kernel)
  exact absurd heq (by decide +kernel)

end HashSlots
end ChronosGo
