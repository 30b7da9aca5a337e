import ChronosGo.World

/-! # What a request does to bodies, streams and sets

The effect of each script on the parts of a queue that say where its tasks are:
the bodies, the stream and the four sorted sets.  The lemmas are stated script by
script, so that an invariant is checked against a request by unfolding no more
than its own script.
-/
namespace ChronosGo
open Redis

variable {k : Keys} {op : Op} {t : Slot} {e : Nat × String}
variable {s : Slot}

namespace Slot
variable (s : Slot) (msg : TaskMessage) (id x : String) (sid : Nat) (z z' : ZKey)
  (score now : Int) (ids : List String)

/-! ## Bodies -/

@[simp] theorem body_clearStale : (s.clearStale id).body x = s.body x := rfl

@[simp] theorem body_enqueue : (s.enqueue msg).body x =
    if x = msg.id then some { msg with state := .pending } else s.body x := by
  simp [enqueue]

@[simp] theorem body_schedule : (s.schedule msg score).body x =
    if x = msg.id then some { msg with state := .scheduled } else s.body x := by
  simp [schedule]

@[simp] theorem body_requeue : (s.requeue sid id).body x = s.body x := by
  unfold requeue
  dsimp only
  split <;> simp

@[simp] theorem body_ackDelete :
    (s.ackDelete sid id).body x = if x = id then none else s.body x := by
  simp [ackDelete]

@[simp] theorem body_moveToZSet : (s.moveToZSet sid msg z score).body x =
    if x = msg.id then some { msg with state := z.state } else s.body x := by
  simp [moveToZSet]

@[simp] theorem body_releaseUnique (key : String) : (s.releaseUnique key id).body x = s.body x := by
  unfold releaseUnique
  split <;> rfl

@[simp] theorem body_zremAll : (s.zremAll id).body x = s.body x := rfl

@[simp] theorem body_runTask : (s.runTask id).1.body x = s.body x := by
  unfold runTask
  split
  · rfl
  · dsimp only
    split <;> simp

@[simp] theorem body_deleteTask : (s.deleteTask id).body x = if x = id then none else s.body x := by
  simp [deleteTask]

@[simp] theorem body_forwardOne : (forwardOne z s id).body x = s.body x := by simp [forwardOne]

@[simp] theorem body_trimOne : (trimOne z s id).body x = if x = id then none else s.body x := by
  simp [trimOne]

theorem task_foldl_trimOne :
    (ids.foldl (trimOne z) s).task x = if x ∈ ids then {} else s.task x := by
  induction ids generalizing s with
  | nil => rfl
  | cons a ids ih =>
    rw [List.foldl_cons, ih]
    by_cases hx : x ∈ ids
    · rw [if_pos hx, if_pos (List.mem_cons_of_mem _ hx)]
    · by_cases ha : x = a
      · subst ha
        simp [hx, trimOne, del, zrem]
      · simp [hx, ha, trimOne, del, zrem]

@[simp] theorem body_foldl_trimOne :
    (ids.foldl (trimOne z) s).body x = if x ∈ ids then none else s.body x := by
  rw [body, task_foldl_trimOne]
  split <;> rfl

/-! ## Streams -/

@[simp] theorem stream_releaseUnique (key : String) :
    (s.releaseUnique key id).stream = s.stream := by
  unfold releaseUnique
  split <;> rfl

@[simp] theorem stream_foldl_trimOne : (ids.foldl (trimOne z) s).stream = s.stream := by
  induction ids generalizing s with
  | nil => rfl
  | cons a ids ih => rw [List.foldl_cons, ih]; rfl

/-! ## Sorted sets -/

@[simp] theorem mem_zset_clearStale : x ∈ (s.clearStale id).zset z ↔
    x ∈ s.zset z ∧ ¬ ((z = .completed ∨ z = .archived) ∧ x = id) := by
  simp only [clearStale, mem_zset_zrem]
  tauto

@[simp] theorem mem_zset_enqueue : x ∈ (s.enqueue msg).zset z ↔
    x ∈ s.zset z ∧ ¬ ((z = .completed ∨ z = .archived) ∧ x = msg.id) := by
  simp [enqueue]

@[simp] theorem mem_zset_schedule : x ∈ (s.schedule msg score).zset z ↔
    z = .scheduled ∧ x = msg.id ∨
      x ∈ s.zset z ∧ ¬ ((z = .completed ∨ z = .archived) ∧ x = msg.id) := by
  simp only [schedule, mem_zset_clearStale, mem_zset_zadd, zset_put]
  constructor
  · rintro ⟨h | h, hn⟩
    · exact Or.inl h
    · exact Or.inr ⟨h, hn⟩
  · rintro (⟨rfl, rfl⟩ | ⟨h, hn⟩)
    · exact ⟨Or.inl ⟨rfl, rfl⟩, by simp⟩
    · exact ⟨Or.inr h, hn⟩

@[simp] theorem mem_zset_moveToZSet : x ∈ (s.moveToZSet sid msg z score).zset z' ↔
    z' = z ∧ x = msg.id ∨ x ∈ s.zset z' := by
  simp [moveToZSet]

@[simp] theorem zset_releaseUnique (key : String) : (s.releaseUnique key id).zset = s.zset := by
  unfold releaseUnique
  split <;> rfl

@[simp] theorem mem_zset_zremAll : x ∈ (s.zremAll id).zset z ↔ x ∈ s.zset z ∧ x ≠ id := by
  simp only [zremAll, mem_zset_zrem]
  cases z <;> simp

@[simp] theorem mem_zset_forwardOne : x ∈ (forwardOne z s id).zset z' ↔
    x ∈ s.zset z' ∧ ¬ (z' = z ∧ x = id) := by
  simp [forwardOne]

@[simp] theorem mem_zset_trimOne : x ∈ (trimOne z s id).zset z' ↔
    x ∈ s.zset z' ∧ ¬ (z' = z ∧ x = id) := by
  simp [trimOne]

end Slot

/-! ## Requests as sequences of moves

Twenty-five kinds of request make fifteen kinds of move; a forward or a trim is a
sequence of moves, one for each task.  An invariant that every move keeps is kept
by every request (`run_moves`).
-/

/-- The slots agree on where tasks are. -/
structure Slot.Agree (s t : Slot) : Prop where
  task : t.task = s.task
  stream : t.stream = s.stream
  zset : t.zset = s.zset

/-- The request is an enqueue for immediate processing, of this message. -/
inductive Op.Enqueues (k : Keys) : Op → TaskMessage → Prop where
  | plain (msg : TaskMessage) : Enqueues k (.enqueue msg) msg
  | unique (msg : TaskMessage) (ttl : Int) :
      Enqueues k (.enqueueUnique msg ttl) (Slot.withUniqueKey k msg)
  | periodic (msg : TaskMessage) (triggerID : String) (ttl : Int) :
      Enqueues k (.enqueuePeriodic msg triggerID ttl) msg

/-- The request is an enqueue for later processing, of this message. -/
inductive Op.Schedules (k : Keys) : Op → TaskMessage → Prop where
  | plain (msg : TaskMessage) (processAt : Int) : Schedules k (.schedule msg processAt) msg
  | unique (msg : TaskMessage) (processAt ttl : Int) :
      Schedules k (.scheduleUnique msg processAt ttl) (Slot.withUniqueKey k msg)

/-- The request creates this task if it does not exist. -/
inductive Op.Creates : Op → TaskMessage → Prop where
  | enqueue (msg : TaskMessage) : Creates (.chainEnqueue msg) { msg with state := .pending }
  | schedule (msg : TaskMessage) (score : Int) :
      Creates (.chainSchedule msg score) { msg with state := .scheduled }
  | callback (q : String) (r : Slot.Report) (results : List (Option Bytes)) :
      Creates (.groupComplete q r) { r.callback with groupResults := results }

/-- One move of a request. -/
inductive Move (k : Keys) : Op → Slot → Slot → Prop where
  | quiet {op : Op} {s t : Slot} (h : s.Agree t) : Move k op s t
  | enqueue {op : Op} {msg : TaskMessage} (s : Slot) (ho : op.Enqueues k msg) :
      Move k op s (s.enqueue msg)
  | schedule {op : Op} {msg : TaskMessage} (s : Slot) (at' : Int) (ho : op.Schedules k msg) :
      Move k op s (s.schedule msg at')
  | create {op : Op} {msg : TaskMessage} (s : Slot) (score : Option Int) (ho : op.Creates msg)
      (h : (s.task msg.id).present = false) : Move k op s (s.placeCallback msg score)
  | read (s : Slot) (q consumer : String) (count : Nat) (now : Int) :
      Move k (.xReadGroup q consumer count) s
        { s with stream := s.stream.xreadgroup consumer count now }
  | claim (s : Slot) (q consumer : String) (minIdle : Int) (count : Nat) (now : Int) :
      Move k (.xAutoClaim q consumer minIdle count) s
        { s with stream := s.stream.xautoclaim consumer minIdle count now }
  | ack (s : Slot) (q : String) (sids : List Nat) : Move k (.ackOrphans q sids) s (s.ack sids)
  | mark (s : Slot) (q id : String) : Move k (.markActive q id) s (s.setState id .active)
  | requeue (s : Slot) (q : String) (sid : Nat) (id : String) :
      Move k (.requeue q sid id) s (s.requeue sid id)
  | ackDelete (s : Slot) (q : String) (sid : Nat) (id : String) :
      Move k (.ackDelete q sid id) s (s.ackDelete sid id)
  | move (s : Slot) (q : String) (sid : Nat) (msg : TaskMessage) (z : ZKey) (score : Int) :
      Move k (.moveToZSet q sid msg z score) s (s.moveToZSet sid msg z score)
  | forward (s : Slot) (q : String) (z : ZKey) (now : Int) (max : Nat) (id : String)
      (h : id ∈ s.zset z) : Move k (.forward q z now max) s (Slot.forwardOne z s id)
  | trim (s : Slot) (q : String) (z : ZKey) (cutoff maxSize : Int) (batch : Nat) (id : String)
      (h : id ∈ s.zset z) : Move k (.trim q z cutoff maxSize batch) s (Slot.trimOne z s id)
  | run (s : Slot) (q id : String) (h : s.InZSet id) (hp : (s.task id).present = true) :
      Move k (.runTask q id) s (((s.zremAll id).append id).setState id .pending)
  | forget (s : Slot) (q id : String) (h : s.InZSet id) (hp : (s.task id).present = false) :
      Move k (.runTask q id) s (s.zremAll id)
  | delete (s : Slot) (q id : String) : Move k (.deleteTask q id) s (s.deleteTask id)

/-- Any number of moves of a request. -/
abbrev Moves (k : Keys) (op : Op) : Slot → Slot → Prop := Relation.ReflTransGen (Move k op)

section Moves
variable {s : Slot}

/-- Removing one member leaves the others where they are. -/
theorem moves_foldl {f : Slot → String → Slot} {z : ZKey} {ids : List String}
    (hf : ∀ t id, id ∈ t.zset z → Move k op t (f t id))
    (hz : ∀ t id x, x ∈ (f t id).zset z ↔ x ∈ t.zset z ∧ ¬ (z = z ∧ x = id)) (hnd : ids.Nodup)
    (hids : ∀ id ∈ ids, id ∈ s.zset z) : Moves k op s (ids.foldl f s) := by
  induction ids generalizing s with
  | nil => exact .refl
  | cons a ids ih =>
    obtain ⟨ha, hnd⟩ := List.nodup_cons.mp hnd
    refine .head (hf s a (hids a List.mem_cons_self)) (ih hnd fun id hid => ?_)
    refine (hz s a id).mpr ⟨hids id (List.mem_cons_of_mem _ hid), fun h => ?_⟩
    exact ha (h.2 ▸ hid)

theorem Slot.Agree.refl (s : Slot) : s.Agree s := ⟨rfl, rfl, rfl⟩

/-- At most one move, after a change to keys that do not say where tasks are. -/
def MoveOnce (k : Keys) (op : Op) (s t : Slot) : Prop :=
  ∃ s₁, s.Agree s₁ ∧ (t = s₁ ∨ Move k op s₁ t)

theorem MoveOnce.none (h : s.Agree t) : MoveOnce k op s t := ⟨t, h, Or.inl rfl⟩

theorem Move.once (h : Move k op s t) : MoveOnce k op s t :=
  ⟨s, .refl s, Or.inr h⟩

theorem moveOnce_groupComplete (q : String) (r : Slot.Report) (now : Int) :
    MoveOnce k (.groupComplete q r) s (s.groupComplete r now).1 := by
  unfold Slot.groupComplete
  split
  · exact .none (.refl s)
  · dsimp only
    split
    · exact .none ⟨rfl, rfl, rfl⟩
    · have hdrop : s.Agree (s.dropGroup r.groupID) := ⟨rfl, rfl, rfl⟩
      split
      · exact .none hdrop
      · rename_i hp
        have hcb : Op.Creates (.groupComplete q r)
            (Slot.withResults r.callback (s.reportedFields r) r.size) := by
          unfold Slot.withResults
          split
          · exact .callback q r _
          · exact .callback q r r.callback.groupResults
        refine ⟨_, hdrop, Or.inr (.create _ r.score hcb ?_)⟩
        rw [Slot.withResults_id]
        exact Bool.eq_false_iff.mpr hp

/-- The requests that move many tasks. -/
def Op.Batch : Op → Prop
  | .forward .. | .trim .. => True
  | _ => False

/-- A request moves at most one task, unless it is made to move many. -/
theorem run_once (k : Keys) (now : Int) (s : Slot) (hop : ¬ op.Batch) :
    MoveOnce k op s (op.run k now s).1 := by
  cases op with
  | enqueue msg => exact Move.once (.enqueue s (.plain msg))
  | schedule msg processAt => exact Move.once (.schedule s _ (.plain msg processAt))
  | enqueueUnique msg ttl =>
    simp only [Op.run, Slot.enqueueUnique]
    split
    · exact .none (.refl s)
    · exact ⟨s.acquire _ _ ttl now, ⟨rfl, rfl, rfl⟩, Or.inr (.enqueue _ (.unique msg ttl))⟩
  | scheduleUnique msg processAt ttl =>
    simp only [Op.run, Slot.scheduleUnique]
    split
    · exact .none (.refl s)
    · exact ⟨s.acquire _ _ ttl now, ⟨rfl, rfl, rfl⟩,
        Or.inr (.schedule _ processAt (.unique msg processAt ttl))⟩
  | enqueuePeriodic msg triggerID ttl =>
    simp only [Op.run, Slot.enqueuePeriodic]
    split
    · exact .none (.refl s)
    · refine ⟨_, ?_, Or.inr (.enqueue _ (.periodic msg triggerID ttl))⟩
      exact ⟨rfl, rfl, rfl⟩
  | chainEnqueue msg =>
    simp only [Op.run, Slot.chainEnqueue]
    split
    · exact .none (.refl s)
    · rename_i hp
      exact Move.once (.create s none (.enqueue msg) (Bool.eq_false_iff.mpr hp))
  | chainSchedule msg score =>
    simp only [Op.run, Slot.chainSchedule]
    split
    · exact .none (.refl s)
    · rename_i hp
      exact Move.once (.create s (some score) (.schedule msg score) (Bool.eq_false_iff.mpr hp))
  | createGroup q gid memberIDs => exact .none ⟨rfl, rfl, rfl⟩
  | createGroupIfAbsent q gid memberIDs cbID =>
    simp only [Op.run, Slot.createGroupIfAbsent]
    split
    · exact .none (.refl s)
    · split <;> exact .none ⟨rfl, rfl, rfl⟩
  | groupComplete q r => exact moveOnce_groupComplete q r now
  | groupMembers | taskState | getTask => exact .none (.refl s)
  | xReadGroup q consumer count => exact Move.once (.read s q consumer count now)
  | xAutoClaim q consumer minIdle count => exact Move.once (.claim s q consumer minIdle count now)
  | ackOrphans q sids => exact Move.once (.ack s q sids)
  | markActive q id => exact Move.once (.mark s q id)
  | requeue q sid id => exact Move.once (.requeue s q sid id)
  | ackDelete q sid id => exact Move.once (.ackDelete s q sid id)
  | moveToZSet q sid msg z score => exact Move.once (.move s q sid msg z score)
  | releaseUnique q key id =>
    simp only [Op.run, Slot.releaseUnique]
    split
    · exact .none ⟨rfl, rfl, rfl⟩
    · exact .none (.refl s)
  | forward | trim => exact absurd trivial hop
  | runTask q id =>
    simp only [Op.run, Slot.runTask]
    split
    · exact .none (.refl s)
    · rename_i hz
      have hz : s.InZSet id := not_not.mp hz
      split
      · rename_i hp
        exact Move.once (.run s q id hz hp)
      · rename_i hp
        exact Move.once (.forget s q id hz (Bool.eq_false_iff.mpr hp))
  | deleteTask q id => exact Move.once (.delete s q id)

theorem run_forward (k : Keys) (t : Int) (s : Slot) (q : String) (z : ZKey)
    (now : Int) (max : Nat) :
    Moves k (.forward q z now max) s (Op.run k t s (.forward q z now max)).1 :=
  moves_foldl (fun t id h => .forward t q z now max id h)
    (fun t id x => Slot.mem_zset_forwardOne t id x z z) (ZSet.zrangebyscore_nodup _ _ _)
    (fun _ hid => ZSet.mem_of_mem_zrangebyscore hid)

theorem run_trim (k : Keys) (t : Int) (s : Slot) (q : String) (z : ZKey) (cutoff maxSize : Int)
    (batch : Nat) : Moves k (.trim q z cutoff maxSize batch) s
      (Op.run k t s (.trim q z cutoff maxSize batch)).1 := by
  have hage : Moves k (.trim q z cutoff maxSize batch) s _ :=
    moves_foldl (fun t id h => .trim t q z cutoff maxSize batch id h)
      (fun t id x => Slot.mem_zset_trimOne t id x z z)
      (ZSet.zrangebyscore_nodup (s.zset z) cutoff batch)
      (fun _ hid => ZSet.mem_of_mem_zrangebyscore hid)
  exact hage.trans (moves_foldl (fun t id h => .trim t q z cutoff maxSize batch id h)
    (fun t id x => Slot.mem_zset_trimOne t id x z z) (ZSet.zrange_nodup _ _)
    (fun _ hid => ZSet.mem_of_mem_zrange hid))

/-- **Every request is a sequence of moves.** -/
theorem run_moves (k : Keys) (now : Int) (s : Slot) (op : Op) :
    Moves k op s (op.run k now s).1 := by
  by_cases hop : op.Batch
  · cases op with
    | forward q z t max => exact run_forward k now s q z t max
    | trim q z cutoff maxSize batch => exact run_trim k now s q z cutoff maxSize batch
    | _ => exact hop.elim
  · obtain ⟨s₁, h₁, rfl | h⟩ := run_once k now s hop
    · exact .single (.quiet h₁)
    · exact .head (.quiet h₁) (.single h)

/-- An invariant that every move keeps is kept by every request. -/
theorem run_invariant {I : Slot → Prop} (h : ∀ s t, Move k op s t → I s → I t) (now : Int)
    (hs : I s) : I (op.run k now s).1 := by
  generalize (op.run k now s).1 = t, run_moves k now s op = hmoves
  induction hmoves with
  | refl => exact hs
  | tail _ hm ih => exact h _ _ hm ih

end Moves

/-! ## Where a body comes from -/

@[simp] theorem Slot.body_placeCallback (s : Slot) (cb : TaskMessage) (score : Option Int)
    (x : String) : (s.placeCallback cb score).body x = if x = cb.id then some cb else s.body x := by
  cases score <;> simp [Slot.placeCallback]

theorem Slot.Agree.body (h : s.Agree t) (x : String) : t.body x = s.body x := by
  unfold Slot.body
  rw [h.task]

/-- The request may store this message. -/
inductive Op.Stores (k : Keys) (op : Op) (msg : TaskMessage) : Prop where
  | enqueue (h : op.Enqueues k msg)
  | schedule (h : op.Schedules k msg)
  | create (h : op.Creates msg)
  | move {q : String} {sid : Nat} {z : ZKey} {score : Int} (h : op = .moveToZSet q sid msg z score)

/-- The body was stored by the request, which has also set the state in it. -/
def Op.Stored (k : Keys) (op : Op) (x : String) (m : TaskMessage) : Prop :=
  ∃ msg st, op.Stores k msg ∧ x = msg.id ∧ m = { msg with state := st }

/-- The request deletes the task's hash, or may do so. -/
def Op.Deletes (x : String) : Op → Prop
  | ackDelete _ _ id | deleteTask _ id => id = x
  | trim .. => True
  | _ => False

/-- What a move does to the hash of one task. -/
inductive HashStep (k : Keys) (op : Op) (s t : Slot) (x : String) : Prop where
  | same (h : t.task x = s.task x)
  | mark {st : TaskState} (h : t.task x = { s.task x with state := some st })
      (hst : st ≠ .completed)
  | store {msg : TaskMessage} {st st' : TaskState} (hx : x = msg.id)
      (ho : op.Enqueues k msg ∨ op.Schedules k msg ∨ op.Creates msg ∧ (s.task x).present = false)
      (h : t.task x = ⟨some { msg with state := st' }, some st⟩) (hst : st ≠ .completed)
  | move {q : String} {sid : Nat} {msg : TaskMessage} {z : ZKey} {score : Int} (hx : x = msg.id)
      (ho : op = .moveToZSet q sid msg z score)
      (h : t.task x = ⟨some { msg with state := z.state }, some z.state⟩)
  | delete (h : t.task x = {}) (hd : op.Deletes x)

theorem hash_move (hm : Move k op s t) (x : String) :
    HashStep k op s t x := by
  have hmark : ∀ (u : Slot) (id : String) (st : TaskState), st ≠ .completed →
      u.task x = s.task x → t.task = (u.setState id st).task → HashStep k op s t x := by
    intro u id st hst hu ht
    by_cases hx : x = id
    · subst hx
      exact .mark (by rw [ht, ← hu]; exact Function.update_self ..) hst
    · exact .same (by rw [ht, ← hu]; exact Function.update_of_ne hx ..)
  have hput : ∀ (u : Slot) (msg : TaskMessage) (st st' : TaskState), u.task = s.task →
      t.task = (u.put { msg with state := st' } st).task →
      (x = msg.id → t.task x = ⟨some { msg with state := st' }, some st⟩ → HashStep k op s t x) →
      HashStep k op s t x := by
    intro u msg st st' hu ht hnew
    by_cases hx : x = msg.id
    · refine hnew hx ?_
      subst hx
      rw [ht]
      exact Function.update_self ..
    · exact .same (by rw [ht, ← hu]; exact Function.update_of_ne hx ..)
  have hdel : ∀ (u : Slot) (id : String), u.task = s.task → t.task = (u.del id).task →
      (x = id → op.Deletes x) → HashStep k op s t x := by
    intro u id hu ht hd
    by_cases hx : x = id
    · refine .delete ?_ (hd hx)
      subst hx
      rw [ht]
      exact Function.update_self ..
    · exact .same (by rw [ht, ← hu]; exact Function.update_of_ne hx ..)
  cases hm with
  | quiet ha => exact .same (by rw [ha.task])
  | @enqueue _ msg _ ho =>
    exact hput s msg .pending .pending rfl rfl fun hx h => .store hx (Or.inl ho) h (by decide)
  | @schedule _ msg _ at' ho =>
    exact hput s msg .scheduled .scheduled rfl rfl fun hx h =>
      .store hx (Or.inr (Or.inl ho)) h (by decide)
  | @create _ msg _ score ho hp =>
    cases score with
    | none =>
      exact hput s msg .pending msg.state rfl rfl fun hx h =>
        .store hx (Or.inr (Or.inr ⟨ho, hx ▸ hp⟩)) h (by decide)
    | some score =>
      exact hput s msg .scheduled msg.state rfl rfl fun hx h =>
        .store hx (Or.inr (Or.inr ⟨ho, hx ▸ hp⟩)) h (by decide)
  | read | claim | ack | forget => exact .same rfl
  | mark _ q id => exact hmark s id .active (by decide) rfl rfl
  | requeue _ q sid id =>
    by_cases hp : ((s.ack [sid]).task id).present = true
    · refine hmark s id .pending (by decide) rfl ?_
      rw [Slot.requeue, if_pos hp]
      rfl
    · refine .same ?_
      rw [Slot.requeue, if_neg hp]
      rfl
  | ackDelete _ q sid id => exact hdel s id rfl rfl Eq.symm
  | move _ q sid msg z score =>
    exact hput s msg z.state z.state rfl rfl fun hx h => .move hx rfl h
  | forward _ q z now max id hid => exact hmark s id .pending (by decide) rfl rfl
  | trim _ q z cutoff maxSize batch id hid => exact hdel s id rfl rfl fun _ => trivial
  | run _ q id hz hp => exact hmark s id .pending (by decide) rfl rfl
  | delete _ q id => exact hdel s id rfl rfl Eq.symm

theorem body_move (hm : Move k op s t) {x : String} {m : TaskMessage} (h : t.body x = some m) :
    s.body x = some m ∨ op.Stored k x m := by
  unfold Slot.body at h ⊢
  cases hash_move hm x with
  | same ht | mark ht =>
    rw [ht] at h
    exact Or.inl h
  | @store msg st st' hx ho ht =>
    rw [ht] at h
    cases h
    refine Or.inr ⟨msg, st', ?_, hx, rfl⟩
    rcases ho with ho | ho | ho
    · exact .enqueue ho
    · exact .schedule ho
    · exact .create ho.1
  | @move q sid msg z score hx ho ht =>
    rw [ht] at h
    cases h
    exact Or.inr ⟨msg, z.state, .move ho, hx, rfl⟩
  | delete ht =>
    rw [ht] at h
    cases h

/-- **A body is an old one, or was stored by the request.** -/
theorem body_run {now : Int} {x : String} {m : TaskMessage}
    (h : (op.run k now s).1.body x = some m) : s.body x = some m ∨ op.Stored k x m := by
  have hinv := run_invariant (k := k)
    (I := fun t => ∀ m, t.body x = some m → s.body x = some m ∨ op.Stored k x m)
    (fun u t (hm : Move k op u t) hu m ht => (body_move hm ht).elim (hu m) Or.inr) now
    (fun _ => Or.inl)
  exact hinv m h

/-! ## Streams -/

/-- A move changes the stream by the commands of a stream. -/
theorem stream_move (hm : Move k op s t) {P : Redis.Stream String String → Prop} (h : P s.stream)
    (hadd : ∀ u id, P u → P (u.xadd id)) (hack : ∀ u, P u → P ((u.xack op.acks).xdel op.acks))
    (hread : ∀ u c n t, P u → P (u.xreadgroup c n t))
    (hclaim : ∀ u c m n t, P u → P (u.xautoclaim c m n t)) : P t.stream := by
  cases hm with
  | quiet h' =>
    rw [h'.stream]
    exact h
  | enqueue => exact hadd _ _ h
  | schedule => exact h
  | create s score =>
    cases score with
    | none => exact hadd _ _ h
    | some score => exact h
  | read => exact hread _ _ _ _ h
  | claim => exact hclaim _ _ _ _ _ h
  | ack => exact hack _ h
  | mark => exact h
  | requeue =>
    simp only [Slot.requeue]
    split
    · exact hadd _ _ (hack _ h)
    · exact hack _ h
  | ackDelete | move => exact hack _ h
  | forward => exact hadd _ _ h
  | trim => exact h
  | run => exact hadd _ _ h
  | forget => exact h
  | delete => exact h

theorem grows_move (hm : Move k op s t) :
    s.stream.Grows t.stream :=
  stream_move hm (.refl _) (fun u _ h => h.trans (Stream.grows_xadd u _))
    (fun u h => h.trans (Stream.grows_ack u _))
    (fun u _ _ _ h => h.trans (Stream.grows_xreadgroup u ..))
    (fun u _ _ _ _ h => h.trans (Stream.grows_xautoclaim u ..))

theorem balanced_move (hm : Move k op s t) (h : s.stream.Balanced) : t.stream.Balanced :=
  stream_move hm h (fun _ _ h => h.xadd _) (fun _ h => h.ack _) (fun _ _ _ _ h => h.xreadgroup ..)
    (fun _ _ _ _ _ h => h.xautoclaim ..)

/-- An entry stays until it is acknowledged. -/
theorem entries_move (hm : Move k op s t) (hack : e.1 ∉ op.acks) (he : e ∈ s.stream.entries) :
    e ∈ t.stream.entries :=
  stream_move (P := fun u => e ∈ u.entries) hm he (fun _ _ h => List.mem_append_left _ h)
    (fun _ h => (Stream.mem_entries_xdel _).mpr ⟨h, hack⟩) (fun _ _ _ _ h => h)
    (fun _ _ _ _ _ h => h)

theorem entries_run (k : Keys) (now : Int) (s : Slot) (hack : e.1 ∉ op.acks)
    (he : e ∈ s.stream.entries) : e ∈ (op.run k now s).1.stream.entries :=
  run_invariant (I := fun t => e ∈ t.stream.entries) (fun _ _ hm h => entries_move hm hack h) now he

theorem grows_run (k : Keys) (now : Int) (s : Slot) (op : Op) :
    s.stream.Grows (op.run k now s).1.stream :=
  run_invariant (I := fun t => s.stream.Grows t.stream) (fun _ _ hm h => h.trans (grows_move hm))
    now (.refl s.stream)

end ChronosGo
