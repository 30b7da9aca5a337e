import ChronosGo.StrandedBody

/-! # Every task is in exactly one place

A task is in the stream, or in one of four sorted sets, and the counters of the
inspector take for granted that it is in one of them only.  Each script restores
this on its own, and the create-if-absent scripts are safe only because a hash
that is absent has no reference left.

This needs three things of the run (`World.Orderly`): an identifier is enqueued
only while no task of that identifier is stored, an entry is acted on only by the
process that was last given it, and `DeleteTask` is used only on tasks in a sorted
set.
-/
namespace ChronosGo
open Interleaving Redis

variable {sid i : Nat} {op : Op} {k : Keys} {w : World} {q : String}
  {t : Chronicle}

/-! ## Places -/

/-- Where a task can be. -/
inductive Place where
  | entry (sid : Nat)
  | set (z : ZKey)
deriving DecidableEq

/-- The state of a task in this place. -/
def Place.Shows : Place → Option TaskState → Prop
  | entry _, st => st = some .pending ∨ st = some .active
  | set z, st => st = some z.state

/-- The task is in this place. -/
def Slot.At (s : Slot) (x : String) : Place → Prop
  | .entry sid => (sid, x) ∈ s.stream.entries
  | .set z => x ∈ s.zset z

namespace Slot
variable (s : Slot) (msg : TaskMessage) (st : TaskState) (id x : String) (sids : List Nat)
  (z : ZKey) (score : Int) (p : Place)

@[simp] theorem at_put : (s.put msg st).At x p ↔ s.At x p := by cases p <;> rfl
@[simp] theorem at_setState : (s.setState id st).At x p ↔ s.At x p := by cases p <;> rfl
@[simp] theorem at_del : (s.del id).At x p ↔ s.At x p := by cases p <;> rfl

@[simp] theorem at_append : (s.append id).At x p ↔
    s.At x p ∨ x = id ∧ p = .entry (s.stream.lastId + 1) := by
  cases p with
  | entry sid =>
    simp only [At, stream_append, Stream.entries_xadd, List.mem_append, List.mem_singleton,
      Prod.mk.injEq, Place.entry.injEq]
    tauto
  | set z => simp [At]

@[simp] theorem at_ack : (s.ack sids).At x p ↔ s.At x p ∧ ∀ sid ∈ sids, p ≠ .entry sid := by
  cases p with
  | entry sid =>
    simp only [At, stream_ack, Stream.mem_entries_xdel, Stream.entries_xack, ne_eq,
      Place.entry.injEq]
    constructor
    · rintro ⟨h, hs⟩
      exact ⟨h, fun n hn he => hs (he ▸ hn)⟩
    · rintro ⟨h, hs⟩
      exact ⟨h, fun hn => hs sid hn rfl⟩
  | set z => simp [At]

@[simp] theorem at_zadd : (s.zadd z score id).At x p ↔ s.At x p ∨ x = id ∧ p = .set z := by
  cases p with
  | entry sid => simp [At]
  | set z' =>
    simp only [At, mem_zset_zadd, Place.set.injEq]
    tauto

@[simp] theorem at_zrem : (s.zrem z id).At x p ↔ s.At x p ∧ ¬ (x = id ∧ p = .set z) := by
  cases p with
  | entry sid => simp [At]
  | set z' =>
    simp only [At, mem_zset_zrem, Place.set.injEq]
    tauto

@[simp] theorem at_zremAll : (s.zremAll id).At x p ↔ s.At x p ∧ ¬ (x = id ∧ ∃ z, p = .set z) := by
  cases p with
  | entry sid => simp [zremAll]
  | set z =>
    simp only [At, mem_zset_zremAll, Place.set.injEq, exists_eq', and_true]

@[simp] theorem task_put : (s.put msg st).task x =
    if x = msg.id then ⟨some msg, some st⟩ else s.task x := by
  by_cases h : x = msg.id
  · subst h
    simp [put]
  · simp [put, h]

@[simp] theorem task_setState : (s.setState id st).task x =
    if x = id then { s.task x with state := some st } else s.task x := by
  by_cases h : x = id
  · subst h
    simp [setState]
  · simp [setState, h]

@[simp] theorem task_del : (s.del id).task x = if x = id then {} else s.task x := by
  by_cases h : x = id
  · subst h
    simp [del]
  · simp [del, h]

@[simp] theorem task_append : (s.append id).task = s.task := rfl
@[simp] theorem task_ack : (s.ack sids).task = s.task := rfl
@[simp] theorem task_zadd : (s.zadd z score id).task = s.task := rfl
@[simp] theorem task_zrem : (s.zrem z id).task = s.task := rfl

/-! ## Locations -/

/-- There is no such task, and no trace of one. -/
structure Absent : Prop where
  task : s.task x = {}
  nowhere : ∀ p, ¬ s.At x p

/-- The task is in this place and in no other. -/
structure Sits : Prop where
  body : (s.body x).isSome
  at_iff : ∀ p', s.At x p' ↔ p' = p
  shows : p.Shows (s.task x).state

/-- The task is nowhere or in one place. -/
def Located : Prop := s.Absent x ∨ ∃ p, s.Sits x p

/-- Nothing has changed about the task. -/
structure Same (t : Slot) : Prop where
  task : t.task x = s.task x
  at_iff : ∀ p, t.At x p ↔ s.At x p

variable {s id x sids z score p} {t : Slot} {msg}

theorem Same.located (h : s.Same x t) (hl : s.Located x) : t.Located x := by
  rcases hl with ha | ⟨p, hs⟩
  · exact Or.inl ⟨h.task.trans ha.task, fun p hp => ha.nowhere p ((h.at_iff p).mp hp)⟩
  · refine Or.inr ⟨p, ?_, fun p' => (h.at_iff p').trans (hs.at_iff p'), ?_⟩
    · unfold body
      rw [h.task]
      exact hs.body
    · rw [h.task]
      exact hs.shows

theorem Located.sits (h : s.Located x) (hp : s.At x p) : s.Sits x p := by
  rcases h with ha | ⟨p', hs⟩
  · exact absurd hp (ha.nowhere p)
  · obtain rfl := (hs.at_iff p).mp hp
    exact hs

theorem Located.absent (h : s.Located x) (hb : s.body x = none) : s.Absent x := by
  rcases h with ha | ⟨p, hs⟩
  · exact ha
  · have := hs.body
    rw [hb] at this
    cases this

theorem Located.exists_sits (h : s.Located x) (hb : (s.body x).isSome) : ∃ p, s.Sits x p := by
  rcases h with ha | hs
  · unfold body at hb
    rw [ha.task] at hb
    cases hb
  · exact hs

theorem Sits.present (h : s.Sits x p) : (s.task x).present = true := by
  unfold TaskHash.present
  rw [Bool.or_eq_true]
  exact Or.inl h.body

theorem Agree.at_iff (h : s.Agree t) : t.At x p ↔ s.At x p := by
  cases p with
  | entry sid =>
    unfold At
    rw [h.stream]
  | set z =>
    unfold At
    rw [h.zset]

theorem Agree.same (h : s.Agree t) : s.Same x t := ⟨congrFun h.task x, fun _ => h.at_iff⟩

/-! ## Changes to one task -/

variable (s id) in
/-- Nothing has changed about the other tasks. -/
def Only (t : Slot) : Prop := ∀ x, x ≠ id → s.Same x t

theorem Only.trans {u : Slot} (h₁ : s.Only id t) (h₂ : t.Only id u) : s.Only id u :=
  fun x hx => ⟨(h₂ x hx).task.trans (h₁ x hx).task,
    fun p => ((h₂ x hx).at_iff p).trans ((h₁ x hx).at_iff p)⟩

theorem only_put (s : Slot) (msg : TaskMessage) (st : TaskState) : s.Only msg.id (s.put msg st) :=
  fun x hx => ⟨by simp [hx], fun p => by simp⟩

theorem only_setState (s : Slot) (id : String) (st : TaskState) : s.Only id (s.setState id st) :=
  fun x hx => ⟨by simp [hx], fun p => by simp⟩

theorem only_del (s : Slot) (id : String) : s.Only id (s.del id) :=
  fun x hx => ⟨by simp [hx], fun p => by simp⟩

theorem only_append (s : Slot) (id : String) : s.Only id (s.append id) :=
  fun x hx => ⟨rfl, fun p => by simp [hx]⟩

theorem only_zadd (s : Slot) (z : ZKey) (score : Int) (id : String) :
    s.Only id (s.zadd z score id) :=
  fun x hx => ⟨rfl, fun p => by simp [hx]⟩

theorem only_zrem (s : Slot) (z : ZKey) (id : String) : s.Only id (s.zrem z id) :=
  fun x hx => ⟨rfl, fun p => by simp [hx]⟩

theorem only_clearStale (s : Slot) (id : String) : s.Only id (s.clearStale id) :=
  (only_zrem s _ id).trans (only_zrem _ _ id)

theorem only_zremAll (s : Slot) (id : String) : s.Only id (s.zremAll id) :=
  (((only_zrem s _ id).trans (only_zrem _ _ id)).trans (only_zrem _ _ id)).trans (only_zrem _ _ id)

theorem only_ack (h : (sid, id) ∈ s.stream.entries) : s.Only id (s.ack [sid]) := by
  refine fun x hx => ⟨rfl, fun p => ?_⟩
  rw [at_ack]
  refine and_iff_left_of_imp fun hp n hn hpn => hx ?_
  obtain rfl := List.mem_singleton.mp hn
  subst hpn
  exact s.stream.entry_unique hp h

theorem only_enqueue (s : Slot) (msg : TaskMessage) : s.Only msg.id (s.enqueue msg) :=
  ((only_put s { msg with state := .pending } _).trans (only_append _ _)).trans
    (only_clearStale _ _)

theorem only_schedule (s : Slot) (msg : TaskMessage) (score : Int) :
    s.Only msg.id (s.schedule msg score) :=
  ((only_put s { msg with state := .scheduled } _).trans (only_zadd _ _ _ _)).trans
    (only_clearStale _ _)

theorem only_placeCallback (s : Slot) (msg : TaskMessage) (score : Option Int) :
    s.Only msg.id (s.placeCallback msg score) := by
  cases score with
  | none => exact (only_put s msg _).trans (only_append _ _)
  | some score => exact (only_put s msg _).trans (only_zadd _ _ _ _)

theorem only_requeue (h : (sid, id) ∈ s.stream.entries) :
    s.Only id (s.requeue sid id) := by
  unfold requeue
  dsimp only
  split
  · exact ((only_ack h).trans (only_setState _ _ _)).trans (only_append _ _)
  · exact only_ack h

theorem only_ackDelete (h : (sid, id) ∈ s.stream.entries) :
    s.Only id (s.ackDelete sid id) := (only_ack h).trans (only_del _ _)

theorem only_moveToZSet (h : (sid, msg.id) ∈ s.stream.entries) :
    s.Only msg.id (s.moveToZSet sid msg z score) :=
  ((only_ack h).trans (only_put _ { msg with state := z.state } _)).trans (only_zadd _ _ _ _)

theorem only_forwardOne (s : Slot) (z : ZKey) (id : String) : s.Only id (forwardOne z s id) :=
  ((only_append s id).trans (only_setState _ _ _)).trans (only_zrem _ _ _)

theorem only_trimOne (s : Slot) (z : ZKey) (id : String) : s.Only id (trimOne z s id) :=
  (only_del s id).trans (only_zrem _ _ _)

theorem only_run (s : Slot) (id : String) :
    s.Only id (((s.zremAll id).append id).setState id .pending) :=
  ((only_zremAll s id).trans (only_append _ _)).trans (only_setState _ _ _)

theorem only_deleteTask (s : Slot) (id : String) : s.Only id (s.deleteTask id) :=
  (only_zremAll s id).trans (only_del _ _)

/-- It is enough to look at the task that has changed. -/
theorem Only.located (h : s.Only id t) (hs : ∀ x, s.Located x) (hid : t.Located id) :
    ∀ x, t.Located x := by
  intro x
  by_cases hx : x = id
  · rwa [hx]
  · exact (h x hx).located (hs x)

/-- What a request relies on to leave its task in one place. -/
def Ready (s : Slot) : Op → Prop
  | .enqueue msg | .schedule msg _ | .enqueueUnique msg _ | .scheduleUnique msg _ _ =>
    s.body msg.id = none
  | .enqueuePeriodic msg _ _ => s.body msg.id = none
  | .markActive _ id => ∃ sid, (sid, id) ∈ s.stream.entries
  | .requeue _ sid id | .ackDelete _ sid id => (sid, id) ∈ s.stream.entries
  | .moveToZSet _ sid msg _ _ => (sid, msg.id) ∈ s.stream.entries
  | .ackOrphans _ sids => ∀ sid ∈ sids, ∀ x, (sid, x) ∉ s.stream.entries
  | .deleteTask _ id => s.InZSet id
  | _ => True

theorem Ready.agree (h : s.Ready op) (ha : s.Agree t) : t.Ready op := by
  have hb : ∀ {x}, s.body x = none → t.body x = none := fun h => (ha.body _).trans h
  cases op with
  | enqueue | schedule | enqueueUnique | scheduleUnique | enqueuePeriodic => exact hb h
  | markActive | requeue | ackDelete | moveToZSet | ackOrphans =>
    unfold Ready at h ⊢
    rw [ha.stream]
    exact h
  | deleteTask =>
    unfold Ready InZSet at h ⊢
    rw [ha.zset]
    exact h
  | _ => trivial

theorem Ready.enqueues (h : s.Ready op) (ho : op.Enqueues k msg) :
    s.body msg.id = none := by
  cases ho <;> exact h

theorem Ready.schedules (h : s.Ready op) (ho : op.Schedules k msg) :
    s.body msg.id = none := by
  cases ho <;> exact h

/-- An absent task that is put into the stream sits there. -/
theorem Absent.enqueue (h : s.Absent msg.id) :
    (s.enqueue msg).Sits msg.id (.entry (s.stream.lastId + 1)) where
  body := by simp
  at_iff := fun p => by
    simp only [Slot.enqueue, clearStale, at_zrem, at_append, at_put, stream_put,
      h.nowhere, false_or, true_and]
    constructor
    · exact fun hp => hp.1.1
    · rintro rfl
      simp
  shows := by simp [Slot.enqueue, clearStale, Place.Shows]

theorem Absent.schedule (h : s.Absent msg.id) : (s.schedule msg score).Sits msg.id (.set .scheduled)
    where
  body := by simp
  at_iff := fun p => by
    simp only [Slot.schedule, clearStale, at_zrem, at_zadd, at_put, h.nowhere, false_or, true_and]
    constructor
    · exact fun hp => hp.1.1
    · rintro rfl
      simp
  shows := by simp [Slot.schedule, clearStale, Place.Shows, ZKey.state]

/-- The place of a new task: the end of the stream, or the set of scheduled tasks. -/
def newPlace (s : Slot) : Option Int → Place
  | none => .entry (s.stream.lastId + 1)
  | some _ => .set .scheduled

theorem Absent.placeCallback (h : s.Absent msg.id) (at' : Option Int) :
    (s.placeCallback msg at').Sits msg.id (s.newPlace at') := by
  cases at' with
  | none =>
    refine ⟨by simp, fun p => ?_, ?_⟩
    · simp [Slot.placeCallback, newPlace, h.nowhere]
    · simp [Slot.placeCallback, newPlace, Place.Shows]
  | some score =>
    refine ⟨by simp, fun p => ?_, ?_⟩
    · simp [Slot.placeCallback, newPlace, h.nowhere]
    · simp [Slot.placeCallback, newPlace, Place.Shows, ZKey.state]

/-- A task in the stream that is marked stays where it is. -/
theorem Sits.setState (h : s.Sits id (.entry sid)) :
    (s.setState id .active).Sits id (.entry sid) where
  body := by simpa using h.body
  at_iff := fun p => by
    rw [at_setState]
    exact h.at_iff p
  shows := by simp [Place.Shows]

/-- A task that is returned is at the end of the stream. -/
theorem Sits.requeue (h : s.Sits id (.entry sid)) :
    (s.requeue sid id).Sits id (.entry (s.stream.lastId + 1)) := by
  have ht : s.requeue sid id = ((s.ack [sid]).setState id .pending).append id := if_pos h.present
  refine ⟨by simpa using h.body, fun p => ?_, by simp [ht, Place.Shows]⟩
  simp only [ht, at_append, at_setState, at_ack, h.at_iff, List.mem_singleton, forall_eq, true_and]
  constructor
  · rintro (⟨hp, hn⟩ | hp)
    · exact absurd hp hn
    · exact hp
  · exact Or.inr

theorem Sits.ackDelete (h : s.Sits id (.entry sid)) :
    (s.ackDelete sid id).Absent id := by
  refine ⟨by simp [Slot.ackDelete], fun p hp => ?_⟩
  simp only [Slot.ackDelete, at_del, at_ack, h.at_iff, List.mem_singleton, forall_eq] at hp
  exact hp.2 hp.1

theorem Sits.moveToZSet (h : s.Sits msg.id (.entry sid)) :
    (s.moveToZSet sid msg z score).Sits msg.id (.set z) := by
  refine ⟨by simp, fun p => ?_, by simp [Slot.moveToZSet, Place.Shows]⟩
  simp only [Slot.moveToZSet, at_zadd, at_put, at_ack, h.at_iff, List.mem_singleton, forall_eq,
    true_and]
  constructor
  · rintro (⟨hp, hn⟩ | hp)
    · exact absurd hp hn
    · exact hp
  · exact Or.inr

theorem Sits.forwardOne (h : s.Sits id (.set z)) :
    (forwardOne z s id).Sits id (.entry (s.stream.lastId + 1)) := by
  refine ⟨by simpa using h.body, fun p => ?_, by simp [Slot.forwardOne, Place.Shows]⟩
  simp only [Slot.forwardOne, at_zrem, at_setState, at_append, h.at_iff, true_and]
  constructor
  · rintro ⟨hp | hp, hn⟩
    · exact absurd hp hn
    · exact hp
  · rintro rfl
    exact ⟨Or.inr rfl, by simp⟩

/-- One move leaves every task in one place. -/
theorem located_move (hr : s.Ready op) (hm : Move k op s t) (h : ∀ x, s.Located x) :
    ∀ x, t.Located x := by
  cases hm with
  | quiet ha => exact fun x => ha.same.located (h x)
  | @enqueue _ msg _ ho =>
    have habs := (h msg.id).absent (hr.enqueues ho)
    exact (only_enqueue s msg).located h (Or.inr ⟨_, habs.enqueue⟩)
  | @schedule _ msg _ at' ho =>
    have habs := (h msg.id).absent (hr.schedules ho)
    exact (only_schedule s msg at').located h (Or.inr ⟨_, habs.schedule⟩)
  | @create _ msg _ score ho hp =>
    have habs := (h msg.id).absent (body_of_not_present hp)
    exact (only_placeCallback s msg score).located h (Or.inr ⟨_, habs.placeCallback score⟩)
  | read | claim =>
    refine fun x => Same.located (s := s) ⟨rfl, fun p => ?_⟩ (h x)
    cases p <;> rfl
  | ack _ q sids =>
    refine fun x => Same.located (s := s) ⟨rfl, fun p => ?_⟩ (h x)
    rw [at_ack]
    refine and_iff_left_of_imp fun hp n hn hpn => ?_
    subst hpn
    exact hr n hn x hp
  | mark _ q id =>
    obtain ⟨sid, hsid⟩ := hr
    have hs : s.Sits id (.entry sid) := (h id).sits hsid
    exact (only_setState s id _).located h (Or.inr ⟨_, hs.setState⟩)
  | requeue _ q sid id =>
    have hs : s.Sits id (.entry sid) := (h id).sits hr
    exact (only_requeue hr).located h (Or.inr ⟨_, hs.requeue⟩)
  | ackDelete _ q sid id =>
    have hs : s.Sits id (.entry sid) := (h id).sits hr
    exact (only_ackDelete hr).located h (Or.inl hs.ackDelete)
  | move _ q sid msg z score =>
    have hs : s.Sits msg.id (.entry sid) := (h msg.id).sits hr
    exact (only_moveToZSet hr).located h (Or.inr ⟨_, hs.moveToZSet⟩)
  | forward _ q z now max id hz =>
    have hs : s.Sits id (.set z) := (h id).sits hz
    exact (only_forwardOne s z id).located h (Or.inr ⟨_, hs.forwardOne⟩)
  | trim _ q z cutoff maxSize batch id hz =>
    have hs : s.Sits id (.set z) := (h id).sits hz
    refine (only_trimOne s z id).located h (Or.inl ⟨by simp [trimOne], fun p hp => ?_⟩)
    simp only [trimOne, at_zrem, at_del, hs.at_iff, true_and] at hp
    exact hp.2 hp.1
  | run _ q id hz hp =>
    obtain ⟨z, hz⟩ := hz
    have hs : s.Sits id (.set z) := (h id).sits hz
    refine (only_run s id).located h
      (Or.inr ⟨.entry (s.stream.lastId + 1), by simpa using hs.body, fun p => ?_, ?_⟩)
    · simp only [at_setState, at_append, at_zremAll, hs.at_iff, true_and]
      constructor
      · rintro (⟨hp, hn⟩ | hp)
        · exact absurd ⟨z, hp⟩ hn
        · exact hp
      · exact Or.inr
    · simp [Place.Shows]
  | forget _ q id hz hp =>
    obtain ⟨z, hz⟩ := hz
    have hs : s.Sits id (.set z) := (h id).sits hz
    rw [hs.present] at hp
    cases hp
  | delete _ q id =>
    obtain ⟨z, hz⟩ := hr
    have hs : s.Sits id (.set z) := (h id).sits hz
    refine (only_deleteTask s id).located h (Or.inl ⟨by simp [Slot.deleteTask], fun p hp => ?_⟩)
    simp only [Slot.deleteTask, at_del, at_zremAll, hs.at_iff, true_and] at hp
    exact hp.2 ⟨z, hp.1⟩

theorem located_run (now : Int) (hr : s.Ready op) (h : ∀ x, s.Located x) :
    ∀ x, (op.run k now s).1.Located x := by
  by_cases hop : op.Batch
  · have hready : ∀ u : Slot, u.Ready op := by
      intro u
      cases op with
      | forward | trim => trivial
      | _ => exact hop.elim
    exact run_invariant (fun u _ hm hu => located_move (hready u) hm hu) now h
  · obtain ⟨s₁, ha, ht | hm⟩ := run_once k now s hop
    · rw [ht]
      exact fun x => ha.same.located (h x)
    · exact located_move (hr.agree ha) hm fun x => ha.same.located (h x)

end Slot

/-! ## Orderly runs -/

/-- The identifier of a task that is enqueued is not in use. -/
def World.Fresh (w : World) : Op → Prop
  | .enqueue msg | .schedule msg _ | .enqueueUnique msg _ | .scheduleUnique msg _ _ =>
    (w.slot msg.queue).body msg.id = none
  | .enqueuePeriodic msg _ _ => (w.slot msg.queue).body msg.id = none
  | _ => True

/-- The entry the request acts on was last given to process `i`. -/
def World.Owns (w : World) (i : Nat) : Op → Prop
  | .markActive q id => ∃ e ∈ (w.slot q).stream.entries, e.2 = id ∧ w.owner q e.1 = some i
  | op => ∀ sid ∈ op.acks, w.owner op.queue sid = some i

/-- The task that is deleted is in a sorted set. -/
def World.Deletable (w : World) : Op → Prop
  | .deleteTask q id => (w.slot q).InZSet id
  | _ => True

/-- Process `i` may send the request in an orderly run. -/
structure World.Orderly (w : World) (i : Nat) (op : Op) : Prop where
  fresh : w.Fresh op
  owns : w.Owns i op
  deletable : w.Deletable op

/-- An entry that has an owner exists. -/
def World.OwnersHold (w : World) : Prop :=
  ∀ q sid i, w.owner q sid = some i → ∃ x, (sid, x) ∈ (w.slot q).stream.entries

/-- Who was given an entry by a request, or had it before and still has it. -/
theorem World.owner_perform {j : Nat} (ho : (w.perform k i op).owner q sid = some j) :
    (q = op.queue ∧ j = i ∧ ∃ x, (sid, x) ∈ op.delivers (w.reply k op)) ∨
      w.owner q sid = some j ∧ (q = op.queue → sid ∉ op.acks) := by
  simp only [perform] at ho
  split at ho
  · rename_i hq
    split at ho
    · rename_i hd
      obtain ⟨⟨n, x⟩, he, rfl⟩ := List.mem_map.mp hd
      exact .inl ⟨hq, (Option.some.inj ho).symm, x, he⟩
    · split at ho
      · cases ho
      · rename_i hack
        exact .inr ⟨ho, fun _ => hack⟩
  · rename_i hq
    exact .inr ⟨ho, fun h => absurd h hq⟩

/-- What a request hands out are entries of the stream. -/
theorem World.mem_entries_of_delivers {e : Nat × String} (he : e ∈ op.delivers (w.reply k op)) :
    e ∈ (w.slotAfter k op).stream.entries := by
  cases op with
  | xReadGroup q consumer count =>
    have hm := (Stream.nextEntries_sublist (w.slot q).stream count).subset he
    exact hm
  | xAutoClaim => exact (List.mem_filter.mp he).1
  | _ => exact absurd he List.not_mem_nil

theorem World.OwnersHold.perform (h : w.OwnersHold) (k : Keys) (i : Nat) (op : Op) :
    (w.perform k i op).OwnersHold := by
  intro q sid j ho
  rcases World.owner_perform ho with ⟨rfl, -, x, hx⟩ | ⟨ho, hack⟩
  · rw [World.slot_perform_self]
    exact ⟨x, World.mem_entries_of_delivers hx⟩
  · obtain ⟨x, hx⟩ := h q sid j ho
    by_cases hq : q = op.queue
    · subst hq
      rw [World.slot_perform_self]
      exact ⟨x, entries_run k w.now _ (hack rfl) hx⟩
    · rw [World.slot_perform_ne hq]
      exact ⟨x, hx⟩

/-- Who was given an entry by a process, or had it before. -/
theorem World.owner_give {n j : Nat} {job : Job} (ho : (w.give i n job).owner q sid = some j) :
    (j = n ∧ w.owner q sid = some i ∧ ∃ msg, job = .work q sid msg) ∨ w.owner q sid = some j := by
  cases job with
  | work q' sid' msg =>
    simp only [give] at ho
    split at ho
    · rename_i hgive
      obtain ⟨rfl, rfl, how⟩ := hgive
      exact .inl ⟨(Option.some.inj ho).symm, how, msg, rfl⟩
    · exact .inr ho
  | _ => exact .inr ho

theorem World.OwnersHold.act {g : Regime} {s : Chronicle}
    (h : s.world.OwnersHold) (ha : (g.machine k).Act protocol s t) : t.world.OwnersHold := by
  refine world_act ha h (fun _ _ _ _ _ _ _ => h) (fun i _ op _ _ _ _ => h.perform k i op) ?_
    fun _ _ => h
  intro i n j q sid m ho
  rw [World.slot_give]
  rcases World.owner_give ho with ⟨-, how, -⟩ | ho
  · exact h q sid i how
  · exact h q sid m ho

/-- The entry of a task that is given to a process and owned exists. -/
theorem Sane.entry_of_given (h : Sane t) (hown : t.world.OwnersHold) {p : Party}
    (hp : p ∈ t.procs) {id : String} (hg : Given p q sid id) (how : t.world.owner q sid = some i) :
    (sid, id) ∈ (t.world.slot q).stream.entries := by
  obtain ⟨x, hx⟩ := hown q sid i how
  rwa [(h.given hp hg).2 x hx] at hx

/-- The invariant of orderly runs. -/
structure Tidy (t : Chronicle) : Prop extends Sane t where
  located : ∀ q x, (t.world.slot q).Located x
  /-- An entry that has an owner exists. -/
  owned : ∀ q sid i, t.world.owner q sid = some i → ∃ x, (sid, x) ∈ (t.world.slot q).stream.entries
  /-- An entry that was found without a body is gone. -/
  dropped : ∀ q, ∀ sid ∈ orphans t q, ∀ x, (sid, x) ∉ (t.world.slot q).stream.entries

namespace Tidy
variable {g : Regime} {s : Chronicle}

theorem ready (h : Tidy s) {p : Party} (hp : p ∈ s.procs) (hj : op.Justified p)
    (ho : s.world.Orderly i op) : (s.world.slot op.queue).Ready op := by
  have hentry : ∀ {q sid id}, Given p q sid id → s.world.owner q sid = some i →
      (sid, id) ∈ (s.world.slot q).stream.entries := h.entry_of_given h.owned hp
  cases op with
  | enqueue | schedule | enqueueUnique | scheduleUnique | enqueuePeriodic => exact ho.fresh
  | deleteTask => exact ho.deletable
  | markActive q id =>
    obtain ⟨⟨sid, _⟩, hsid, rfl, -⟩ := ho.owns
    exact ⟨sid, hsid⟩
  | requeue q sid | ackDelete q sid => exact hentry hj (ho.owns sid (List.mem_singleton_self _))
  | moveToZSet q sid msg z score => exact hentry hj.1 (ho.owns sid (List.mem_singleton_self _))
  | ackOrphans q sids => exact fun sid hs => h.dropped q sid ⟨p, hp, hj sid hs⟩
  | _ => trivial

theorem located_act (hg : ∀ i op w, g.allow i op w → w.Orderly i op) (h : Tidy s)
    (ha : (g.machine k).Act protocol s t) : ∀ q x, (t.world.slot q).Located x := by
  refine slots_act (I := fun _ u => ∀ x, u.Located x) ha h.located ?_ ?_
  · intro i p op hp hr hok
    have hmem := List.mem_of_getElem? hp
    exact Slot.located_run s.world.now (h.ready hmem (h.request hmem hr) (hg i op _ hok))
      (h.located _)
  · exact fun q now _ x => Slot.Same.located (s := s.world.slot q)
      (Slot.Agree.same ⟨rfl, rfl, rfl⟩) (h.located q x)

/-- **Every step of an orderly run keeps every task in one place.** -/
theorem act (hs : ∀ j, g.spawn j → j.External) (hg : ∀ i op w, g.allow i op w → w.Orderly i op)
    (h : Tidy s) (ha : (g.machine k).Act protocol s t) : Tidy t := by
  have hloc := h.located_act hg ha
  refine ⟨sane_act hs h.toSane ha, hloc, World.OwnersHold.act h.owned ha, ?_⟩
  intro q sid ho x hx
  rcases orphans_act h.toSane ha ho with ho | ⟨id, hid, hnone⟩
  · -- the entry was gone before, and identifiers are not used again
    rcases (streamsGrow_act ha q).mem_or_newer _ hx with hx | hx
    · exact h.dropped q sid ho x hx
    · exact absurd (orphans_le h.toSane q sid ho) (Nat.not_le_of_lt hx)
  · -- a task that has an entry has a body
    rw [hid.2 x hx] at hx
    have hb := ((hloc q id).sits (p := .entry sid) hx).body
    rw [hnone] at hb
    cases hb

theorem init : Tidy ⟨World.init, []⟩ where
  toSane := Sane.init
  located := fun _ _ => Or.inl ⟨rfl, fun p hp => by
    cases p with
    | entry => exact absurd hp List.not_mem_nil
    | set => exact absurd hp ZSet.not_mem_empty⟩
  owned := fun _ _ _ h => nomatch h
  dropped := fun _ _ ⟨_, hp, _⟩ => absurd hp List.not_mem_nil

end Tidy

/-! ## Counters -/

/-- `QueueStats`. -/
structure QueueStats where
  pending : Int
  active : Int
  scheduled : Int
  retry : Int
  archived : Int
  completed : Int

/-- `QueueStats`, read from one state of the store. -/
def Slot.queueStats (s : Slot) : QueueStats :=
  let active : Int := s.stream.pel.length
  let streamPending : Int := s.stream.xlen - active
  { pending := if streamPending < 0 then 0 else streamPending
    active := active
    scheduled := (s.zset .scheduled).zcard
    retry := (s.zset .retry).zcard
    archived := (s.zset .archived).zcard
    completed := (s.zset .completed).zcard }

/-- There are `n` identifiers with this property. -/
def Numbers (n : Int) (P : String → Prop) : Prop :=
  ∃ ids : List String, ids.Nodup ∧ (∀ x, x ∈ ids ↔ P x) ∧ (ids.length : Int) = n

namespace Slot
variable {s : Slot}

/-- The entries that have been delivered. -/
def delivered (s : Slot) : List (Nat × String) :=
  s.stream.entries.filter fun e => e.1 ≤ s.stream.lastDelivered

theorem values_nodup (h : ∀ x, s.Located x) : s.stream.values.Nodup := by
  refine List.pairwise_map.mpr (s.stream.entries_sorted.imp_of_mem ?_)
  intro a b ha hb hlt hab
  have hsa : s.Sits a.2 (.entry a.1) := (h a.2).sits ha
  have hb' : s.At a.2 (.entry b.1) := by
    rw [hab]
    exact hb
  have := (hsa.at_iff _).mp hb'
  simp only [Place.entry.injEq] at this
  omega

theorem length_delivered (hb : s.stream.Balanced) : s.delivered.length = s.stream.pel.length := by
  have hperm : (s.delivered.map Prod.fst).Perm (s.stream.pel.map PelEntry.id) := by
    refine (List.perm_ext_iff_of_nodup ?_ ?_).mpr fun n => ?_
    · exact List.pairwise_map.mpr ((s.stream.entries_sorted.filter _).imp fun h => Nat.ne_of_lt h)
    · exact List.pairwise_map.mpr (s.stream.pel_sorted.imp fun h => Nat.ne_of_lt h)
    · constructor
      · intro hn
        obtain ⟨e, he, rfl⟩ := List.mem_map.mp hn
        obtain ⟨he, hle⟩ := List.mem_filter.mp he
        obtain ⟨p, hp, hid⟩ := hb.pending e he (of_decide_eq_true hle)
        exact List.mem_map.mpr ⟨p, hp, hid⟩
      · intro hn
        obtain ⟨p, hp, rfl⟩ := List.mem_map.mp hn
        obtain ⟨e, he, hid⟩ := hb.present p hp
        refine List.mem_map.mpr ⟨e, List.mem_filter.mpr ⟨he, ?_⟩, hid⟩
        rw [decide_eq_true_eq, hid]
        exact s.stream.pel_le p hp
  simpa using hperm.length_eq

theorem length_undelivered (hb : s.stream.Balanced) :
    s.stream.undelivered.length + s.stream.pel.length = s.stream.xlen := by
  rw [← length_delivered hb]
  have h := List.length_eq_length_filter_add (l := s.stream.entries)
    (fun e => decide (s.stream.lastDelivered < e.1))
  have hneg : s.delivered = s.stream.entries.filter
      fun e => !decide (s.stream.lastDelivered < e.1) := by
    refine List.filter_congr fun e _ => ?_
    rw [← decide_not]
    exact decide_eq_decide.mpr Nat.not_lt.symm
  rw [hneg]
  exact h.symm

/-- What an orderly run guarantees of a queue. -/
structure Consistent (s : Slot) : Prop where
  /-- A stored task is in exactly one place. -/
  one_place : ∀ x, (s.body x).isSome → ∃! p, s.At x p
  /-- Every place refers to a stored task. -/
  stored : ∀ x p, s.At x p → (s.body x).isSome
  /-- The state of a task agrees with its place. -/
  shows : ∀ x p, s.At x p → p.Shows (s.task x).state
  /-- Pending entries are entries of the stream. -/
  pel_subset : ∀ e ∈ s.stream.pel, ∃ x, (e.id, x) ∈ s.stream.entries
  pending : Numbers s.queueStats.pending fun x => ∃ e ∈ s.stream.undelivered, e.2 = x
  active : Numbers s.queueStats.active fun x =>
    ∃ e ∈ s.stream.entries, e.2 = x ∧ e.1 ∈ s.stream.pel.map PelEntry.id
  scheduled : Numbers s.queueStats.scheduled fun x => x ∈ s.zset .scheduled
  retry : Numbers s.queueStats.retry fun x => x ∈ s.zset .retry
  archived : Numbers s.queueStats.archived fun x => x ∈ s.zset .archived
  completed : Numbers s.queueStats.completed fun x => x ∈ s.zset .completed
  /-- The counters add up to the number of stored tasks. -/
  total : Numbers (s.queueStats.pending + s.queueStats.active + s.queueStats.scheduled +
    s.queueStats.retry + s.queueStats.archived + s.queueStats.completed) fun x => (s.body x).isSome

theorem queueStats_pending (hb : s.stream.Balanced) :
    s.queueStats.pending = s.stream.undelivered.length := by
  have h := length_undelivered hb
  simp only [queueStats]
  split <;> omega

theorem numbers_zset (z : ZKey) : Numbers (s.zset z).zcard fun x => x ∈ s.zset z :=
  ⟨(s.zset z).members, (s.zset z).members_nodup, fun _ => Iff.rfl, by simp⟩

/-- All tasks of the queue, place by place. -/
def listed (s : Slot) : List String :=
  s.stream.values ++ ((s.zset .scheduled).members ++ ((s.zset .retry).members ++
    ((s.zset .archived).members ++ (s.zset .completed).members)))

theorem mem_listed {x : String} : x ∈ s.listed ↔ ∃ p, s.At x p := by
  simp only [listed, List.mem_append, Stream.values, List.mem_map]
  constructor
  · rintro (⟨e, he, rfl⟩ | h | h | h | h)
    · exact ⟨.entry e.1, he⟩
    · exact ⟨.set .scheduled, h⟩
    · exact ⟨.set .retry, h⟩
    · exact ⟨.set .archived, h⟩
    · exact ⟨.set .completed, h⟩
  · rintro ⟨sid | z, h⟩
    · exact Or.inl ⟨(sid, x), h, rfl⟩
    · refine Or.inr ?_
      cases z with
      | scheduled => exact Or.inl h
      | retry => exact Or.inr (Or.inl h)
      | archived => exact Or.inr (Or.inr (Or.inl h))
      | completed => exact Or.inr (Or.inr (Or.inr h))

theorem listed_nodup (h : ∀ x, s.Located x) : s.listed.Nodup := by
  -- no task is in two places
  have hne : ∀ x p p', s.At x p → s.At x p' → p = p' := fun x p p' hp hp' =>
    (((h x).sits hp').at_iff p).mp hp
  have hz : ∀ {z z' x}, x ∈ s.zset z → x ∈ s.zset z' → z = z' := fun {z z' x} hx hx' =>
    Place.set.inj (hne x (.set z) (.set z') hx hx')
  refine List.nodup_append'.mpr ⟨values_nodup h, List.nodup_append'.mpr ⟨ZSet.members_nodup _,
    List.nodup_append'.mpr ⟨ZSet.members_nodup _, List.nodup_append'.mpr ⟨ZSet.members_nodup _,
      ZSet.members_nodup _, ?_⟩, ?_⟩, ?_⟩, ?_⟩
  · exact fun x hx hx' => nomatch hz hx hx'
  · intro x hx hx'
    rcases List.mem_append.mp hx' with hx' | hx' <;> exact nomatch hz hx hx'
  · intro x hx hx'
    simp only [List.mem_append] at hx'
    rcases hx' with hx' | hx' | hx' <;> exact nomatch hz hx hx'
  · intro x hx hx'
    obtain ⟨e, he, rfl⟩ := List.mem_map.mp hx
    simp only [List.mem_append] at hx'
    rcases hx' with hx' | hx' | hx' | hx' <;>
      exact nomatch hne e.2 (.entry e.1) (.set _) he hx'

theorem Located.consistent (h : ∀ x, s.Located x) (hb : s.stream.Balanced) : s.Consistent where
  one_place := fun x hx => by
    obtain ⟨p, hs⟩ := (h x).exists_sits hx
    exact ⟨p, (hs.at_iff p).mpr rfl, fun p' hp' => (hs.at_iff p').mp hp'⟩
  stored := fun x p hp => ((h x).sits hp).body
  shows := fun x p hp => ((h x).sits hp).shows
  pel_subset := fun e he => by
    obtain ⟨⟨n, x⟩, hx, rfl⟩ := hb.present e he
    exact ⟨x, hx⟩
  pending := by
    refine ⟨s.stream.undelivered.map Prod.snd, ?_, fun x => List.mem_map, ?_⟩
    · exact (values_nodup h).sublist (List.filter_sublist.map _)
    · rw [queueStats_pending hb, List.length_map]
  active := by
    refine ⟨s.delivered.map Prod.snd, (values_nodup h).sublist (List.filter_sublist.map _), ?_, ?_⟩
    · intro x
      rw [List.mem_map]
      constructor
      · rintro ⟨e, he, rfl⟩
        obtain ⟨he, hle⟩ := List.mem_filter.mp he
        obtain ⟨p, hp, hid⟩ := hb.pending e he (of_decide_eq_true hle)
        exact ⟨e, he, rfl, List.mem_map.mpr ⟨p, hp, hid⟩⟩
      · rintro ⟨e, he, rfl, hpel⟩
        obtain ⟨p, hp, hid⟩ := List.mem_map.mp hpel
        refine ⟨e, List.mem_filter.mpr ⟨he, ?_⟩, rfl⟩
        rw [decide_eq_true_eq, ← hid]
        exact s.stream.pel_le p hp
    · rw [List.length_map, length_delivered hb]
      rfl
  scheduled := numbers_zset _
  retry := numbers_zset _
  archived := numbers_zset _
  completed := numbers_zset _
  total := by
    refine ⟨s.listed, listed_nodup h, fun x => ?_, ?_⟩
    · rw [mem_listed]
      constructor
      · rintro ⟨p, hp⟩
        exact ((h x).sits hp).body
      · intro hx
        obtain ⟨p, hs⟩ := (h x).exists_sits hx
        exact ⟨p, (hs.at_iff p).mpr rfl⟩
    · have hlen := length_undelivered hb
      rw [queueStats_pending hb]
      simp only [listed, List.length_append, ZSet.length_members, queueStats, Stream.values,
        List.length_map]
      unfold Stream.xlen at hlen
      omega

end Slot

/-- Any run in which identifiers are fresh, entries are acted on by their owners,
and `DeleteTask` is used on tasks in a sorted set. -/
def orderly : Regime :=
  { anyRun with allow := fun i op w => w.Orderly i op }

/-- **Exclusive location and consistent counters.**  In every state of every
orderly run, every stored task is in exactly one place, every place refers to a
stored task in the state of the place, and the six counters are true and add up
to the number of stored tasks. -/
theorem orderly_run_consistent (k : Keys) {c : Deployment}
    (hr : (orderly.machine k).Reaches World.init [] c) (q : String) :
    (c.world.slot q).Consistent := by
  obtain ⟨hs, hinv, -⟩ := Discipline.invariant (obeys_protocol orderly k) Tidy.init
    (fun _ _ h ha => h.act (fun _ h => h) (fun _ _ _ h => h) ha) hr
  exact Slot.Located.consistent (hinv.located q) (hinv.wellKept q).balanced

instance (w : World) (op : Op) : Decidable (w.Fresh op) := by
  unfold World.Fresh
  split <;> infer_instance

instance (w : World) (i : Nat) (op : Op) : Decidable (w.Owns i op) := by
  unfold World.Owns
  split <;> infer_instance

instance (w : World) (op : Op) : Decidable (w.Deletable op) := by
  unfold World.Deletable
  split <;> infer_instance

instance (w : World) (i : Nat) (op : Op) : Decidable (w.Orderly i op) :=
  decidable_of_iff (w.Fresh op ∧ w.Owns i op ∧ w.Deletable op)
    ⟨fun h => ⟨h.1, h.2.1, h.2.2⟩, fun h => ⟨h.fresh, h.owns, h.deletable⟩⟩

/-- Two tasks, one of them delivered. -/
theorem two_tasks_consistent : ∃ c : Deployment,
    (orderly.machine sampleKeys).Reaches World.init [] c ∧
      (c.world.slot "q").queueStats.pending = 1 ∧ (c.world.slot "q").queueStats.active = 1 ∧
      (c.world.slot "q").Consistent := by
  have hlets : orderly.Lets fun i op w => decide (w.Orderly i op) :=
    ⟨fun i op w h => (of_decide_eq_true h : w.Orderly i op), fun _ _ _ => trivial⟩
  obtain ⟨c, hr, hw⟩ := (player_sound (k := sampleKeys) hlets).exists_reaches
    [.spawn (.send (.enqueue (sampleTask "x"))), Choice.go 0,
      .spawn (.send (.enqueue (sampleTask "y"))), Choice.go 1,
      .spawn (.fetch "q" "c" 1 0), Choice.go 2, Choice.go 2, Choice.go 2]
    (And.intro (Traffic.enqueue _) (And.intro (Traffic.enqueue _) (And.intro trivial trivial)))
    World.init []
    (fun w => decide ((w.slot "q").queueStats.pending = 1 ∧ (w.slot "q").queueStats.active = 1))
    (by decide +kernel)
  obtain ⟨hp, ha⟩ := of_decide_eq_true hw
  exact ⟨c, hr, hp, ha, orderly_run_consistent sampleKeys hr "q"⟩

end ChronosGo
