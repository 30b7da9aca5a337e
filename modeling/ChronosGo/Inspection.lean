import ChronosGo.Passage
import ChronosGo.RecordedRuns

/-! # What the inspector says about a task

The state of a task is stored twice: in the `state` field of its hash, and inside the
message in its `msg` field.  Scripts that store a message write both.  The others
write the field alone: marking a delivered task active, forwarding, `RunTask` and
`Requeue` (`Slot.hash_run`).  `TaskState` reads the field and the comments call it the
authority, but `Inspector.GetTask` reads the message.

So what the inspector says of a task is what the last request that stored its message
made of it.  Active is never stored with a message, and pending is also written without
one; the other states are only written together with the message
(`inspector_authoritative`).
-/
namespace ChronosGo
open Interleaving Redis

variable {st : TaskState} {id q x : String} {op : Op}

/-! ## The inspector -/

/-- `TaskState.String`. -/
def TaskState.name : TaskState → String
  | .pending => "pending"
  | .active => "active"
  | .completed => "completed"
  | .retry => "retry"
  | .archived => "archived"
  | .scheduled => "scheduled"

theorem TaskState.name_injective : Function.Injective TaskState.name := by
  intro a b h
  cases a <;> cases b <;> first | rfl | exact absurd h (by decide)

/-- `TaskInfo`; a time that is not set is `none`. -/
structure TaskInfo where
  id : String
  kind : String
  queue : String
  state : String
  payload : Bytes
  retried : Nat
  maxRetry : Nat
  lastErr : String
  nextProcessAt : Option Int := none
  completedAt : Option Int := none
  chainPending : Nat
  chainIndex : Nat
  chainNext : List String
  groupID : String
  groupPending : Nat := 0
  groupQueue : String
  hasResult : Bool
  resultSize : Nat
deriving DecidableEq, Repr

/-- A link as it is listed: the kind of its task, or of the callback of its stage. -/
def ChainLink.label (link : ChainLink) : String :=
  if link.group ≠ [] then "group[" ++ toString link.group.length ++ "]→" ++ link.kind
  else link.kind

def taskInfoFromMsg (m : TaskMessage) : TaskInfo where
  id := m.id
  kind := m.kind
  queue := m.queue
  state := m.state.name
  payload := m.payload
  retried := m.retried
  maxRetry := m.maxRetry
  lastErr := m.lastErr
  completedAt := if 0 < m.completedAt then some (m.completedAt * second) else none
  chainPending := m.chain.length
  chainIndex := m.chainIndex
  chainNext := m.chain.map ChainLink.label
  groupID := m.groupID
  groupQueue := m.groupQueue
  hasResult := m.result ≠ []
  resultSize := m.result.length

/-- `ZSetKeyForState`. -/
def zsetKeyForState : String → Option ZKey
  | "scheduled" => some .scheduled
  | "retry" => some .retry
  | "archived" => some .archived
  | "completed" => some .completed
  | _ => none

/-- The score of a task in the sorted set of a state, as a time. -/
def Slot.nextProcessAt (s : Slot) (state taskID : String) : Option Int :=
  (zsetKeyForState state).bind fun z =>
    ((s.zset z).zscore taskID).map fun score => score.tdiv second * second

/-- The pending members of the group of a message, zero if it has none. -/
def World.groupPending (w : World) (msg : TaskMessage) : Nat :=
  if msg.groupID ≠ "" ∧ msg.groupQueue ≠ "" then
    ((w.slot msg.groupQueue).group msg.groupID).members.length
  else 0

/-- `Inspector.GetTask`, with all its reads of one state of the store; `none` is
`ErrTaskNotFound`. -/
def World.inspectTask (w : World) (qname taskID : String) : Option TaskInfo :=
  ((w.slot qname).body taskID).map fun msg =>
    let ti := taskInfoFromMsg msg
    { ti with
      nextProcessAt := (w.slot qname).nextProcessAt ti.state taskID
      groupPending := w.groupPending msg }

/-- What the inspector says about a task is what `TaskState` says, and a time is shown if and
only if the task is in the sorted set of that state. -/
def World.RightAbout (w : World) (q id : String) : Prop :=
  ∀ info, w.inspectTask q id = some info → ∃ st, ((w.slot q).task id).state = some st ∧
    info.state = st.name ∧
    (info.nextProcessAt.isSome ↔ ∃ z : ZKey, z.state = st ∧ id ∈ (w.slot q).zset z)

/-- The sets that have a state are found by its name. -/
theorem zsetKeyForState_name (st : TaskState) (z : ZKey) :
    zsetKeyForState st.name = some z ↔ z.state = st := by
  cases st <;> cases z <;> decide

/-- A time is shown for the tasks in the sorted set of the state. -/
theorem Slot.nextProcessAt_isSome {s : Slot} :
    (s.nextProcessAt st.name id).isSome ↔ ∃ z : ZKey, z.state = st ∧ id ∈ s.zset z := by
  rw [nextProcessAt]
  cases hz : zsetKeyForState st.name with
  | none =>
    refine ⟨fun h => (nomatch h), ?_⟩
    rintro ⟨z, hst, -⟩
    cases hz.symm.trans ((zsetKeyForState_name st z).mpr hst)
  | some z =>
    rw [Option.bind_some, Option.isSome_map, ZSet.isSome_zscore]
    constructor
    · exact fun h => ⟨z, (zsetKeyForState_name st z).mp hz, h⟩
    · rintro ⟨z', hst, h⟩
      cases hz.symm.trans ((zsetKeyForState_name st z').mpr hst)
      exact h

/-! ## The two copies of the state -/

/-- The inspector is right about a stored task if and only if the two copies agree. -/
theorem World.rightAbout_iff {w : World} {m : TaskMessage} (hm : (w.slot q).body x = some m) :
    w.RightAbout q x ↔ ((w.slot q).task x).state = some m.state := by
  constructor
  · intro h
    obtain ⟨st, hst, hname, -⟩ := h _ (Option.map_eq_some_iff.mpr ⟨m, hm, rfl⟩)
    rw [hst, TaskState.name_injective hname]
  · intro h info hinfo
    obtain ⟨m', hm', rfl⟩ := Option.map_eq_some_iff.mp hinfo
    cases hm.symm.trans hm'
    exact ⟨m.state, h, rfl, Slot.nextProcessAt_isSome⟩

/-- The task whose message a request stores in `s`, and the state it stores it in.  A request
that answers whether it has stored one does so only then. -/
def Op.stores (k : Keys) (now : Int) (s : Slot) : Op → Option (String × TaskState)
  | enqueue msg => some (msg.id, .pending)
  | schedule msg _ => some (msg.id, .scheduled)
  | enqueueUnique msg ttl =>
    if (s.enqueueUnique k msg ttl now).2 then some (msg.id, .pending) else none
  | scheduleUnique msg processAt ttl =>
    if (s.scheduleUnique k msg processAt ttl now).2 then some (msg.id, .scheduled) else none
  | enqueuePeriodic msg triggerID ttl =>
    if (s.enqueuePeriodic msg triggerID ttl now).2 then some (msg.id, .pending) else none
  | chainEnqueue msg => if (s.chainEnqueue msg).2 then some (msg.id, .pending) else none
  | chainSchedule msg score =>
    if (s.chainSchedule msg score).2 then some (msg.id, .scheduled) else none
  | groupComplete _ r =>
    if (s.groupComplete r now).2 then some (r.callback.id, r.callback.state) else none
  | moveToZSet _ _ msg z _ => some (msg.id, z.state)
  | _ => none

/-- The states that a request writes to the `state` field alone. -/
def Op.stamps (s : Slot) : Op → List (String × TaskState)
  | markActive _ id => [(id, .active)]
  | requeue _ _ id => [(id, .pending)]
  | forward _ z now max => ((s.zset z).zrangebyscore now max).map fun id => (id, .pending)
  | runTask _ id => if s.InZSet id then [(id, .pending)] else []
  | _ => []

/-- A callback comes in the state of the place it is put in. -/
def Op.Stated : Op → Prop
  | groupComplete _ r => r.callback.state = if r.score.isSome then .scheduled else .pending
  | _ => True

namespace Slot
variable {k : Keys} {s : Slot}

theorem task_foldl_forwardOne (z : ZKey) (ids : List String) (x : String) :
    (ids.foldl (forwardOne z) s).task x =
      if x ∈ ids then { s.task x with state := some .pending } else s.task x := by
  induction ids generalizing s with
  | nil => rfl
  | cons a ids ih =>
    rw [List.foldl_cons, ih, forwardOne, task_zrem, task_setState, task_append]
    by_cases ha : x = a
    · simp [ha]
    · simp [ha]

/-- What a request leaves as the hash of one task. -/
inductive HashRun (k : Keys) (now : Int) (op : Op) (s : Slot) (x : String) : TaskHash → Prop where
  | same (hs : ∀ st, op.stores k now s ≠ some (x, st)) : HashRun k now op s x (s.task x)
  | gone (hs : ∀ st, op.stores k now s ≠ some (x, st)) : HashRun k now op s x {}
  | stored {m : TaskMessage} (hs : op.stores k now s = some (x, m.state)) :
      HashRun k now op s x ⟨some m, some m.state⟩
  | stamped {st : TaskState} (hs : ∀ st, op.stores k now s ≠ some (x, st))
      (hst : (x, st) ∈ op.stamps s) : HashRun k now op s x { s.task x with state := some st }

section HashRun
variable {now : Int} {t : Slot}

theorem HashRun.of_task (hs : op.stores k now s = none) (h : t.task = s.task) :
    HashRun k now op s x (t.task x) := by
  rw [h]
  exact .same fun _ => by simp [hs]

theorem HashRun.put {m : TaskMessage} (hs : op.stores k now s = some (m.id, m.state))
    (ht : t.task = (s.put m m.state).task) : HashRun k now op s x (t.task x) := by
  rw [ht, task_put]
  split
  · rename_i hx
    exact .stored (hx ▸ hs)
  · rename_i hx
    exact .same fun st hst => hx (congrArg Prod.fst (Option.some.inj (hs.symm.trans hst))).symm

theorem HashRun.del (hs : op.stores k now s = none) (ht : t.task = (s.del id).task) :
    HashRun k now op s x (t.task x) := by
  rw [ht, task_del]
  split
  · exact .gone fun _ => by simp [hs]
  · exact .same fun _ => by simp [hs]

theorem HashRun.setState (hs : op.stores k now s = none) (hmem : (id, st) ∈ op.stamps s)
    (ht : t.task = (s.setState id st).task) : HashRun k now op s x (t.task x) := by
  rw [ht, task_setState]
  split
  · rename_i hx
    subst hx
    exact .stamped (fun _ => by simp [hs]) hmem
  · exact .same fun _ => by simp [hs]

/-- A message is stored unless something is there. -/
theorem HashRun.put_unless {c : Prop} [Decidable c] {m : TaskMessage}
    (hs : op.stores k now s = if c then none else some (m.id, m.state))
    (ht : t.task = (s.put m m.state).task) :
    HashRun k now op s x ((if c then (s, false) else (t, true)).1.task x) := by
  split
  · rename_i hc
    exact .of_task (hs.trans (if_pos hc)) rfl
  · rename_i hc
    exact .put (hs.trans (if_neg hc)) ht

/-- A callback is stored in the state of its place. -/
theorem HashRun.groupComplete {r : Report} (hst : (Op.groupComplete q r).Stated) :
    HashRun k now (.groupComplete q r) s x ((s.groupComplete r now).1.task x) := by
  rcases groupComplete_cases s r now with ⟨hsame, hno⟩ | ⟨hyes, -, heq⟩
  · exact .of_task (by simp [Op.stores, hno]) hsame.task
  · have hstate : (withResults r.callback (s.reportedFields r) r.size).state =
        r.callback.state := by
      unfold withResults
      split <;> rfl
    have hs : (Op.groupComplete q r).stores k now s =
        some ((withResults r.callback (s.reportedFields r) r.size).id,
          (withResults r.callback (s.reportedFields r) r.size).state) := by
      simp [Op.stores, hyes, hstate]
    rw [heq]
    refine .put hs ?_
    rw [hstate, hst]
    cases r.score <;> rfl

theorem HashRun.forward {z : ZKey} {t : Int} {max : Nat} :
    HashRun k now (.forward q z t max) s x ((s.forward z t max).1.task x) := by
  change HashRun k now _ s x ((((s.zset z).zrangebyscore t max).foldl (forwardOne z) s).task x)
  rw [task_foldl_forwardOne]
  split
  · rename_i hx
    exact .stamped (fun _ => nofun) (List.mem_map.mpr ⟨x, hx, rfl⟩)
  · exact .same fun _ => nofun

theorem HashRun.trim {z : ZKey} {cutoff maxSize : Int} {batch : Nat} :
    HashRun k now (.trim q z cutoff maxSize batch) s x
      ((s.trim z cutoff maxSize batch).1.task x) := by
  have htrim (u : Slot) (ids : List String) (hu : u.task x = s.task x ∨ u.task x = {}) :
      (ids.foldl (trimOne z) u).task x = s.task x ∨ (ids.foldl (trimOne z) u).task x = {} := by
    rw [task_foldl_trimOne]
    split
    · exact Or.inr rfl
    · exact hu
  rcases htrim _ _ (htrim s ((s.zset z).zrangebyscore cutoff batch) (Or.inl rfl)) with h | h
  · exact h ▸ .same fun _ => nofun
  · exact h ▸ .gone fun _ => nofun

/-- **A request that stores a message stores its state with it**; only stamps touch the field
alone. -/
theorem hash_run (hst : op.Stated) (now : Int) (x : String) :
    HashRun k now op s x ((op.run k now s).1.task x) := by
  cases op with
  | enqueue msg => exact .put (m := { msg with state := .pending }) rfl rfl
  | schedule msg => exact .put (m := { msg with state := .scheduled }) rfl rfl
  | enqueueUnique msg ttl =>
    refine .put_unless (m := { withUniqueKey k msg with state := .pending }) ?_ rfl
    simp only [Op.stores, enqueueUnique]
    split <;> rfl
  | scheduleUnique msg processAt ttl =>
    refine .put_unless (m := { withUniqueKey k msg with state := .scheduled }) ?_ rfl
    simp only [Op.stores, scheduleUnique]
    split <;> rfl
  | enqueuePeriodic msg triggerID ttl =>
    refine .put_unless (m := { msg with state := .pending }) ?_ rfl
    simp only [Op.stores, enqueuePeriodic]
    split <;> rfl
  | chainEnqueue msg =>
    refine .put_unless (m := { msg with state := .pending }) ?_ rfl
    simp only [Op.stores, chainEnqueue]
    split <;> rfl
  | chainSchedule msg score =>
    refine .put_unless (m := { msg with state := .scheduled }) ?_ rfl
    simp only [Op.stores, chainSchedule]
    split <;> rfl
  | createGroupIfAbsent q gid ids cbID =>
    refine .of_task rfl ?_
    simp only [Op.run, createGroupIfAbsent]
    split
    · rfl
    · split <;> rfl
  | groupComplete q r => exact .groupComplete hst
  | markActive q id => exact .setState rfl (List.mem_singleton_self _) rfl
  | requeue q sid id =>
    simp only [Op.run, requeue]
    split
    · exact .setState rfl (List.mem_singleton_self _) rfl
    · exact .of_task rfl rfl
  | ackDelete | deleteTask => exact .del rfl rfl
  | moveToZSet q sid msg z score => exact .put (m := { msg with state := z.state }) rfl rfl
  | releaseUnique q key id =>
    refine .of_task rfl ?_
    simp only [Op.run, releaseUnique]
    split <;> rfl
  | forward => exact .forward
  | trim => exact .trim
  | runTask q id =>
    simp only [Op.run, runTask]
    split
    · exact .of_task rfl rfl
    · rename_i hin
      split
      · refine .setState rfl ?_ rfl
        rw [Op.stamps, if_pos (not_not.mp hin)]
        exact List.mem_singleton_self _
      · exact .of_task rfl rfl
  | _ => exact .of_task rfl rfl

end HashRun

/-- No message is stored as active. -/
theorem stores_ne_active {now : Int} (hst : op.Stated) (h : op.stores k now s = some (x, st)) :
    st ≠ .active := by
  rintro rfl
  cases op with
  | groupComplete q r =>
    simp only [Op.stores] at h
    split at h
    · have hstate := congrArg Prod.snd (Option.some.inj h)
      rw [show r.callback.state = _ from hst] at hstate
      split at hstate <;> cases hstate
    · cases h
  | moveToZSet q sid msg z score =>
    cases z <;> cases h
  | enqueueUnique | scheduleUnique | enqueuePeriodic | chainEnqueue | chainSchedule =>
    simp only [Op.stores] at h
    split at h <;> cases h
  | _ => cases h

theorem stamps_cases (h : (x, st) ∈ op.stamps s) :
    st = .active ∨ st = .pending := by
  cases op with
  | markActive q id =>
    cases List.mem_singleton.mp h
    exact Or.inl rfl
  | requeue q sid id =>
    cases List.mem_singleton.mp h
    exact Or.inr rfl
  | forward q z t max =>
    obtain ⟨id, -, heq⟩ := List.mem_map.mp h
    cases heq
    exact Or.inr rfl
  | runTask q id =>
    rw [Op.stamps] at h
    split at h
    · cases List.mem_singleton.mp h
      exact Or.inr rfl
    · cases h
  | _ => cases h

end Slot

/-! ## Runs -/

theorem Traffic.stated (h : Traffic op) : op.Stated := by
  cases h <;> trivial

theorem LinkOp.stated {msg : TaskMessage} {delay : Int} (h : LinkOp msg delay op) :
    op.Stated := by
  cases h <;> trivial

/-- `CompleteGroupMember` asks for the callback in the state of its place. -/
theorem ReportOp.stated {member : TaskMessage} (h : ReportOp member op) : op.Stated := by
  cases h with
  | enqueue _ _ hd => exact if_neg hd
  | schedule now _ _ hd => exact if_pos hd

theorem Sane.stated {t : Chronicle} {p : Party} (h : Sane t)
    (hp : p ∈ t.procs) (hr : p.job.Request p.hist op) : op.Stated := by
  obtain ⟨job, hist⟩ := p
  cases job with
  | send | sendAll => exact (h.traffic hp trivial hr).stated
  | deleteTask | fetch | recover => cases hr <;> trivial
  | work q sid msg =>
    cases hr with
    | link _ _ _ ho | member _ _ _ _ _ ho => exact ho.stated
    | drain _ _ ho | report _ _ _ ho => exact ho.stated
    | _ => trivial

/-- The command was a request that has stored a message for the task, in this state. -/
def StoresAs (k : Keys) (q x : String) (st : TaskState) (μ : Happening) : Prop :=
  ∃ op, μ.cmd = .redis op ∧ op.queue = q ∧ μ.after = μ.before.perform k μ.who op ∧
    op.stores k μ.before.now (μ.before.slot q) = some (x, st)

/-- The last command of the run that has stored a message for the task did so in this
state. -/
inductive StoredLast (k : Keys) (q x : String) (st : TaskState) :
    List Happening → Prop where
  | here {μ : Happening} {l : List Happening}
      (h : StoresAs k q x st μ) : StoredLast k q x st (μ :: l)
  | earlier {μ : Happening} {l : List Happening}
      (h : ∀ st', ¬ StoresAs k q x st' μ) (hl : StoredLast k q x st l) :
        StoredLast k q x st (μ :: l)

/-- What the two copies of the state of a task tell about the run. -/
structure Traced (k : Keys) (l : List Happening) (w : World) (q x : String)
    (m : TaskMessage) : Prop where
  stored : StoredLast k q x m.state l
  passive : m.state ≠ .active
  shown : ∃ st, ((w.slot q).task x).state = some st ∧
    (st = m.state ∨ st = .active ∨ st = .pending)

/-- All stored tasks are traced. -/
def AllTraced (k : Keys) (l : List Happening) (w : World) : Prop :=
  ∀ q x m, (w.slot q).body x = some m → Traced k l w q x m

section AllTraced
variable {k : Keys} {l : List Happening} {w w' : World}

theorem AllTraced.congr (h : AllTraced k l w) (hw : ∀ q, (w'.slot q).task = (w.slot q).task) :
    AllTraced k l w' := by
  intro q x m hm
  have ht := h q x m (by simpa [Slot.body, hw] using hm)
  exact ⟨ht.stored, ht.passive, by simpa [hw] using ht.shown⟩

/-- A command that stores no message and leaves the hashes as they are. -/
theorem AllTraced.cons (h : AllTraced k l w) {μ : Happening}
    (hμ : ∀ q x st, ¬ StoresAs k q x st μ) (hw : ∀ q, (w'.slot q).task = (w.slot q).task) :
    AllTraced k (μ :: l) w' := by
  intro q x m hm
  have ht := h.congr hw q x m hm
  exact ⟨.earlier (hμ q x) ht.stored, ht.passive, ht.shown⟩

/-- A request that was performed. -/
theorem AllTraced.perform (h : AllTraced k l w) {i : Nat} (hst : op.Stated) (r : Option op.Reply) :
    AllTraced k (⟨i, .redis op, r, w, w.perform k i op⟩ :: l) (w.perform k i op) := by
  intro q x m hm
  have hnone : (∀ st, op.queue = q → op.stores k w.now (w.slot q) ≠ some (x, st)) →
      ∀ st, ¬ StoresAs k q x st ⟨i, .redis op, r, w, w.perform k i op⟩ := by
    rintro hno st ⟨op', heq, hq, -, hs⟩
    cases heq
    exact hno st hq hs
  by_cases hq : op.queue = q
  · subst hq
    unfold Slot.body at hm
    rw [World.slot_perform_self] at hm
    have hrun := Slot.hash_run (k := k) (s := w.slot op.queue) hst w.now x
    have hshown : ∀ st, ((w.slotAfter k op).task x).state = some st →
        (((w.perform k i op).slot op.queue).task x).state = some st := by
      intro st hst
      rwa [World.slot_perform_self]
    change Slot.HashRun k w.now op (w.slot op.queue) x ((w.slotAfter k op).task x) at hrun
    generalize hhash : (w.slotAfter k op).task x = hash at hrun hm hshown
    cases hrun with
    | same hs =>
      have ht := h op.queue x m hm
      obtain ⟨st, hst, hcases⟩ := ht.shown
      exact ⟨.earlier (hnone fun st _ => hs st) ht.stored, ht.passive, st, hshown st hst, hcases⟩
    | gone => cases hm
    | stored hs =>
      cases hm
      exact ⟨.here ⟨op, rfl, rfl, rfl, hs⟩, Slot.stores_ne_active hst hs, _, hshown _ rfl,
        Or.inl rfl⟩
    | @stamped st hs hmem =>
      have ht := h op.queue x m hm
      exact ⟨.earlier (hnone fun st _ => hs st) ht.stored, ht.passive, st, hshown st rfl,
        Or.inr (Slot.stamps_cases hmem)⟩
  · have hslot : (w.perform k i op).slot q = w.slot q := World.slot_perform_ne (Ne.symm hq)
    rw [hslot] at hm
    have ht := h q x m hm
    exact ⟨.earlier (hnone fun st hq' => absurd hq' hq) ht.stored, ht.passive, hslot ▸ ht.shown⟩

end AllTraced

/-- **The inspector against the authority.**  In every state of every run, and for every
stored task, let `st` be what `TaskState` says.  `Inspector.GetTask` says the same, and shows
a time exactly for the tasks in the sorted set of that state, if `st` is scheduled, retry,
archived or completed.  It does not if `st` is active.  If `st` is pending it does if and
only if the last request that stored the message of the task stored it as pending: an
enqueue, and not one that put the task in a sorted set from which it has been forwarded or
run again. -/
theorem inspector_authoritative (k : Keys) {l : List Happening}
    {c : Deployment} (hr : (anyRun.machine k).Run World.init l c)
    {q x : String} {m : TaskMessage} (hm : (c.world.slot q).body x = some m) :
    ∃ st st', ((c.world.slot q).task x).state = some st ∧ StoredLast k q x st' l ∧
      (c.world.RightAbout q x ↔ st ≠ .active ∧ (st = .pending → st' = .pending)) := by
  obtain ⟨hs, ⟨-, hinv⟩, -⟩ := Discipline.run_invariant (obeys_protocol anyRun k)
    (I := fun l t => Sane t ∧ AllTraced k l t.world) ⟨Sane.init, fun _ _ _ h => nomatch h⟩
    (fun l w w' ps i p c r h hrec hp hc he => by
      refine ⟨sane_act (g := anyRun) (k := k) (fun _ h => h) h.1 (.call hp hc he), ?_⟩
      by_cases hperf : ∃ op, c = .redis op ∧ w' = w.perform k i op
      · obtain ⟨op, rfl, rfl⟩ := hperf
        exact h.2.perform (h.1.stated (List.mem_of_getElem? hp) hc) r
      · refine h.2.cons ?_ ?_
        · rintro q x st ⟨op, hop, -, hw, -⟩
          exact hperf ⟨op, hop, hw⟩
        · rcases Regime.exec_cases he with rfl | ⟨msg, out, -, -, rfl⟩ | ⟨op, hop, -, hw⟩
          · exact fun _ => rfl
          · exact fun _ => rfl
          · exact absurd ⟨op, hop, hw⟩ hperf)
    (fun l w ps i p j h hp hf => ⟨sane_act (g := anyRun) (k := k) (fun _ h => h) h.1 (.fork hp hf),
      h.2.congr fun q => by rw [show (anyRun.machine k).give i ps.length j w = w.give i ps.length j
        from rfl, World.slot_give]⟩)
    (fun l w ps j h hj => ⟨sane_act (g := anyRun) (k := k) (fun _ h => h) h.1 (.spawn hj), h.2⟩)
    (fun l w w' ps h he => by
      refine ⟨sane_act (g := anyRun) (k := k) (fun _ h => h) h.1 (.env he), ?_⟩
      obtain ⟨t, -, -, rfl⟩ := he
      exact h.2.congr fun _ => rfl) hr
  obtain ⟨hstored, hpassive, st, hst, hcases⟩ := hinv q x m hm
  refine ⟨st, m.state, hst, hstored, ?_⟩
  rw [World.rightAbout_iff hm, hst, Option.some_inj]
  constructor
  · rintro rfl
    exact ⟨hpassive, fun h => h⟩
  · rintro ⟨hne, hpending⟩
    rcases hcases with h | h | h
    · exact h
    · exact absurd h hne
    · rw [h, hpending h]

/-- A task was delivered, its handler failed and it waits in the retry set: the inspector is
right about it. -/
theorem retried_task_shown : ∃ l c, (anyRun.machine sampleKeys).Run World.init l c ∧
    (c.world.inspectTask "q" "x").map (fun info => (info.state, info.nextProcessAt)) =
      some ("retry", some 0) ∧ c.world.RightAbout "q" "x" := by
  have hlets : anyRun.Lets fun _ _ _ => true := ⟨fun _ _ _ _ => trivial, fun _ _ _ => trivial⟩
  obtain ⟨c, hr, hw⟩ := (player_sound (k := sampleKeys) hlets).exists_reaches
    [.spawn (.send (.enqueue (sampleTask "x"))), Choice.go 0, .spawn (.fetch "q" "c" 1 0),
      Choice.go 1, Choice.go 1, Choice.go 1, Choice.go 1, .step 2 (.fail "no" false), Choice.go 2,
      Choice.go 2, Choice.go 2]
    (And.intro (Traffic.enqueue _) (And.intro trivial trivial))
    World.init []
    (fun w => decide ((w.inspectTask "q" "x").map (fun info => (info.state, info.nextProcessAt)) =
      some ("retry", some 0) ∧ ((w.slot "q").task "x").state = some .retry)) (by decide +kernel)
  obtain ⟨hshown, hstate⟩ := of_decide_eq_true hw
  obtain ⟨l, hrun⟩ := Machine.exists_run hr
  obtain ⟨info, hinfo, -⟩ := Option.map_eq_some_iff.mp hshown
  obtain ⟨m, hm, -⟩ := Option.map_eq_some_iff.mp hinfo
  obtain ⟨st, st', hst, -, hiff⟩ := inspector_authoritative sampleKeys hrun hm
  cases hst.symm.trans hstate
  exact ⟨l, c, hrun, hshown, hiff.mpr ⟨nofun, nofun⟩⟩

/-- Any run in which an entry is acted on only by the process that was last given it. -/
def ownersOnly : Regime := { anyRun with allow := fun i op w => w.Owns i op }

/-- A task that has been delivered is active, and the inspector calls it pending. -/
theorem delivered_task_shown_pending : ∃ c : Deployment,
    (ownersOnly.machine sampleKeys).Reaches World.init [] c ∧
      (c.world.inspectTask "q" "x").map TaskInfo.state = some "pending" ∧
      ((c.world.slot "q").task "x").state = some .active ∧ ¬ c.world.RightAbout "q" "x" := by
  have hlets : ownersOnly.Lets fun i op w => decide (w.Owns i op) :=
    ⟨fun i op w h => (of_decide_eq_true h : w.Owns i op), fun _ _ _ => trivial⟩
  obtain ⟨c, hr, hw⟩ := (player_sound (k := sampleKeys) hlets).exists_reaches
    [.spawn (.send (.enqueue (sampleTask "x"))), Choice.go 0, .spawn (.fetch "q" "c" 1 0),
      Choice.go 1, Choice.go 1, Choice.go 1]
    (And.intro (Traffic.enqueue _) (And.intro trivial trivial))
    World.init []
    (fun w => decide ((w.inspectTask "q" "x").map TaskInfo.state = some "pending" ∧
      ((w.slot "q").task "x").state = some .active)) (by decide +kernel)
  obtain ⟨hname, hstate⟩ := of_decide_eq_true hw
  refine ⟨c, hr, hname, hstate, fun h => ?_⟩
  obtain ⟨info, hinfo, hpending⟩ := Option.map_eq_some_iff.mp hname
  obtain ⟨st, hst, hsaid, -⟩ := h info hinfo
  cases hst.symm.trans hstate
  rw [hpending] at hsaid
  exact absurd hsaid (by decide)

end ChronosGo
