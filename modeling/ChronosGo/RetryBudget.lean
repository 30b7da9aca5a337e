import ChronosGo.Passage
import ChronosGo.RecordedRuns

/-! # The retry budget

A delivery of a task can end in many ways, and two of them count against its retry
budget: the worker moves the task to the retry set after a failure, or the recoverer
does so after a reclaim.  Both add one to the counter of a copy of the message that
was read earlier, and store the copy.

If a task is enqueued once, is never re-run by hand, and every stream entry is acted on
only by the process that was last given it, the copy is never out of date
(`Budget.copies`), so that the stored counter is the number of deliveries that ended in
the retry set, and the budget is used up exactly when a failure or a reclaim archives
the task (`retry_budget`).
-/
namespace ChronosGo
open Interleaving Redis

variable {k : Keys} {op : Op} {msg m : TaskMessage} {score : Int} {z : ZKey} {max sid : Nat}
  {l : List Happening} {ps : List Party}
  {p : Party} {μ : Happening} {c : Cmd}

/-! ## What a request does to one task -/

/-- The task that a request enqueues, if it is accepted. -/
def Op.admits : (op : Op) → op.Reply → Option TaskMessage
  | enqueue msg, _ | schedule msg _, _ => some msg
  | enqueueUnique msg _, ok | scheduleUnique msg _ _, ok | enqueuePeriodic msg _ _, ok =>
    if ok then some msg else none
  | chainEnqueue msg, ok | chainSchedule msg _, ok => if ok then some msg else none
  | groupComplete _ r, ok => if ok then some r.callback else none
  | _, _ => none

namespace Slot

/-- The task is in at most one place. -/
def OnePlace (s : Slot) (x : String) : Prop := ∀ p p', s.At x p → s.At x p' → p = p'

/-- The task waits in one place, if it is anywhere. -/
def OneWaiting (s : Slot) (x : String) : Prop :=
  ∃ p : Place, p.Waiting ∧ ∀ p', s.At x p' → p' = p

/-- A request that acknowledges an entry names the task of the entry. -/
def Entitled (s : Slot) : Op → Prop
  | .requeue _ sid id | .ackDelete _ sid id => (sid, id) ∈ s.stream.entries
  | .moveToZSet _ sid msg _ _ => (sid, msg.id) ∈ s.stream.entries
  | _ => True

/-- What a request may do to one task. -/
inductive TaskRun (op : Op) (r : op.Reply) (s t : Slot) (x : String) : Prop where
  /-- It is in no new place, and its body is not a new one; it is deleted only while its
  entries stay. -/
  | fewer (hb : t.body x = s.body x ∨ t.body x = none ∧ ∀ sid, s.At x (.entry sid) →
        t.At x (.entry sid))
      (hat : ∀ p, t.At x p → s.At x p)
  /-- It was in some place and is now at the end of the stream, with its body. -/
  | back (hwas : ∃ p, s.At x p) (hb : t.body x = s.body x)
      (hat : ∀ p, t.At x p → ∃ sid, p = .entry sid ∧ s.stream.lastId < sid) (hone : t.OnePlace x)
  | moved {q : String} {sid : Nat} {msg : TaskMessage} {z : ZKey} {score : Int}
      (ho : op = .moveToZSet q sid msg z score) (hx : msg.id = x) (hwas : s.At x (.entry sid))
      (hat : ∀ p, t.At x p ↔ p = .set z) (hb : t.body x = some { msg with state := z.state })
  | gone {q : String} {sid : Nat} (ho : op = .ackDelete q sid x) (hwas : s.At x (.entry sid))
      (hat : ∀ p, ¬ t.At x p) (hb : t.body x = none)
  | new {msg : TaskMessage} (ha : op.admits r = some msg) (hx : msg.id = x)
      (hb : ∃ b, t.body x = some b ∧ b.retried = msg.retried ∧ b.maxRetry = msg.maxRetry)
      (hone : (∀ p, ¬ s.At x p) → t.OneWaiting x)

section TaskRun
variable {r : op.Reply} {s t u : Slot} {x : String}

theorem Same.fewer (h : s.Same x t) : TaskRun op r s t x :=
  .fewer (.inl h.body) fun p => (h.at_iff p).mp

theorem TaskRun.of_agree (h : s.Agree t) : TaskRun op r s t x := h.same.fewer

theorem OneWaiting.onePlace (h : s.OneWaiting x) : s.OnePlace x := by
  obtain ⟨p, -, hat⟩ := h
  exact fun p₁ p₂ h₁ h₂ => (hat p₁ h₁).trans (hat p₂ h₂).symm

theorem oneWaiting_enqueue (hno : ∀ p, ¬ s.At msg.id p) :
    (s.enqueue msg).OneWaiting msg.id := by
  refine ⟨.entry (s.stream.lastId + 1), trivial, fun p hp => ?_⟩
  simp only [Slot.enqueue, clearStale, at_zrem, at_append, at_put, stream_put, hno, false_or,
    true_and] at hp
  exact hp.1.1

theorem oneWaiting_schedule (hno : ∀ p, ¬ s.At msg.id p) :
    (s.schedule msg score).OneWaiting msg.id := by
  refine ⟨.set .scheduled, rfl, fun p hp => ?_⟩
  simp only [Slot.schedule, clearStale, at_zrem, at_zadd, at_put, hno, false_or, true_and] at hp
  exact hp.1.1

theorem oneWaiting_placeCallback {score : Option Int} (hno : ∀ p, ¬ s.At msg.id p) :
    (s.placeCallback msg score).OneWaiting msg.id := by
  cases score with
  | none =>
    refine ⟨.entry (s.stream.lastId + 1), trivial, fun p hp => ?_⟩
    simpa [Slot.placeCallback, hno] using hp
  | some score =>
    refine ⟨.set .scheduled, rfl, fun p hp => ?_⟩
    simpa [Slot.placeCallback, hno] using hp

/-- The messages agree on what the budget depends on. -/
def SameBudget (msg msg₀ : TaskMessage) : Prop :=
  msg.id = msg₀.id ∧ msg.retried = msg₀.retried ∧ msg.maxRetry = msg₀.maxRetry

theorem TaskRun.enqueue (msg msg₀ : TaskMessage) (ha : op.admits r = some msg₀)
    (hm : SameBudget msg msg₀) (hs : s.Agree u) : TaskRun op r s (u.enqueue msg) msg.id :=
  .new ha hm.1.symm ⟨{ msg with state := .pending }, by simp, hm.2⟩ fun hno =>
    oneWaiting_enqueue fun p hp => hno p (hs.at_iff.mp hp)

theorem TaskRun.schedule (msg msg₀ : TaskMessage) (ha : op.admits r = some msg₀)
    (hm : SameBudget msg msg₀) (hs : s.Agree u) : TaskRun op r s (u.schedule msg score) msg.id :=
  .new ha hm.1.symm ⟨{ msg with state := .scheduled }, by simp, hm.2⟩ fun hno =>
    oneWaiting_schedule fun p hp => hno p (hs.at_iff.mp hp)

theorem TaskRun.placeCallback (msg msg₀ : TaskMessage) (score : Option Int)
    (ha : op.admits r = some msg₀) (hm : SameBudget msg msg₀) (hs : s.Agree u) :
    TaskRun op r s (u.placeCallback msg score) msg.id :=
  .new ha hm.1.symm ⟨msg, by simp, hm.2⟩ fun hno =>
    oneWaiting_placeCallback fun p hp => hno p (hs.at_iff.mp hp)

theorem sameBudget_withResults (cb : TaskMessage) (fields : List (Nat × Bytes)) (size : Nat) :
    SameBudget (withResults cb fields size) cb := by
  unfold withResults
  split <;> exact ⟨rfl, rfl, rfl⟩

/-- A request to enqueue does so, or changes nothing about tasks. -/
theorem taskRun_enqueue (now : Int) (ho : op.Enqueues k msg ∨ op.Schedules k msg ∨ op.Creates msg)
    (hx : msg.id = x) :
    TaskRun op (op.run k now s).2 s (op.run k now s).1 x := by
  subst hx
  rcases ho with ho | ho | ho
  · cases ho with
    | plain => exact .enqueue msg msg rfl ⟨rfl, rfl, rfl⟩ (.refl s)
    | unique msg ttl =>
      simp only [Op.run, Slot.enqueueUnique]
      split
      · exact .of_agree (.refl s)
      · exact .enqueue (withUniqueKey k msg) msg rfl ⟨rfl, rfl, rfl⟩ ⟨rfl, rfl, rfl⟩
    | periodic _ triggerID ttl =>
      simp only [Op.run, Slot.enqueuePeriodic]
      split
      · exact .of_agree (.refl s)
      · exact .enqueue msg msg rfl ⟨rfl, rfl, rfl⟩ ⟨rfl, rfl, rfl⟩
  · cases ho with
    | plain _ processAt => exact .schedule msg msg rfl ⟨rfl, rfl, rfl⟩ (.refl s)
    | unique msg processAt ttl =>
      simp only [Op.run, Slot.scheduleUnique]
      split
      · exact .of_agree (.refl s)
      · exact .schedule (withUniqueKey k msg) msg rfl ⟨rfl, rfl, rfl⟩ ⟨rfl, rfl, rfl⟩
  · cases ho with
    | enqueue msg =>
      simp only [Op.run, Slot.chainEnqueue]
      split
      · exact .of_agree (.refl s)
      · exact .placeCallback { msg with state := .pending } msg none rfl ⟨rfl, rfl, rfl⟩ (.refl s)
    | schedule msg score =>
      simp only [Op.run, Slot.chainSchedule]
      split
      · exact .of_agree (.refl s)
      · exact .placeCallback { msg with state := .scheduled } msg (some score) rfl ⟨rfl, rfl, rfl⟩
          (.refl s)
    | callback q r results =>
      rcases groupComplete_cases s r now with ⟨hsame, -⟩ | ⟨hok, -, heq⟩
      · exact .of_agree hsame
      · have hm := sameBudget_withResults r.callback (s.reportedFields r) r.size
        have ha : (Op.groupComplete q r).admits (s.groupComplete r now).2 = some r.callback := by
          rw [hok]
          rfl
        have hrun := TaskRun.placeCallback (s := s) (u := s.dropGroup r.groupID) _
          r.callback r.score ha
          hm ⟨rfl, rfl, rfl⟩
        rw [← heq, hm.1] at hrun
        exact hrun

/-- A request about another task leaves this one alone, except that an orphaned entry of it
may be dropped. -/
theorem taskRun_move (r : op.Reply) (hm : Move k op s t) (hone : s.OnePlace x)
    (hen : s.Entitled op) (hop : ¬ op.Batch) (hrun : ∀ q, op ≠ .runTask q x)
    (hne : ∀ msg, op.Enqueues k msg ∨ op.Schedules k msg ∨ op.Creates msg → msg.id ≠ x) :
    TaskRun op r s t x := by
  cases hm with
  | quiet ha => exact .of_agree ha
  | @enqueue _ msg _ ho => exact (only_enqueue s msg x (hne msg (.inl ho)).symm).fewer
  | @schedule _ msg _ at' ho =>
    exact (only_schedule s msg at' x (hne msg (.inr (.inl ho))).symm).fewer
  | @create _ msg _ score ho =>
    exact (only_placeCallback s msg score x (hne msg (.inr (.inr ho))).symm).fewer
  | read | claim =>
    refine Same.fewer ⟨rfl, fun p => ?_⟩
    cases p <;> rfl
  | ack _ q sids => exact .fewer (.inl rfl) fun p hp => ((at_ack ..).mp hp).1
  | mark _ q id =>
    exact .fewer (.inl (body_setState ..)) fun p hp => (at_setState ..).mp hp
  | requeue _ q sid id =>
    by_cases hx : x = id
    · subst hx
      unfold requeue
      dsimp only
      split
      · have hat : ∀ p, (((s.ack [sid]).setState x .pending).append x).At x p →
            p = .entry (s.stream.lastId + 1) := by
          intro p hp
          simp only [at_append, at_setState, at_ack, List.mem_singleton, forall_eq, true_and] at hp
          rcases hp with ⟨hp, hn⟩ | hp
          · exact absurd (hone p (.entry sid) hp hen) hn
          · exact hp
        exact .back ⟨.entry sid, hen⟩ (by simp) (fun p hp => ⟨_, hat p hp, Nat.lt_succ_self _⟩)
          fun p p' hp hp' => (hat p hp).trans (hat p' hp').symm
      · exact .fewer (.inl rfl) fun p hp => ((at_ack ..).mp hp).1
    · exact (only_requeue hen x hx).fewer
  | ackDelete _ q sid id =>
    by_cases hx : x = id
    · subst hx
      refine .gone rfl hen (fun p hp => ?_) (by simp)
      simp only [ackDelete, at_del, at_ack, List.mem_singleton, forall_eq] at hp
      exact hp.2 (hone p _ hp.1 hen)
    · exact (only_ackDelete hen x hx).fewer
  | move _ q sid msg z score =>
    by_cases hx : x = msg.id
    · subst hx
      refine .moved rfl rfl hen (fun p => ?_) (by simp)
      simp only [moveToZSet, at_zadd, at_put, at_ack, List.mem_singleton, forall_eq, true_and]
      constructor
      · rintro (⟨hp, hn⟩ | hp)
        · exact absurd (hone p (.entry sid) hp hen) hn
        · exact hp
      · exact Or.inr
    · exact (only_moveToZSet hen x hx).fewer
  | forward | trim => exact absurd trivial hop
  | run _ q id =>
    have hx : x ≠ id := fun h => hrun q (h ▸ rfl)
    exact (only_run s id x hx).fewer
  | forget _ q id =>
    have hx : x ≠ id := fun h => hrun q (h ▸ rfl)
    exact (only_zremAll s id x hx).fewer
  | delete _ q id =>
    by_cases hx : x = id
    · subst hx
      refine .fewer (.inr ⟨by simp, fun sid hs => ?_⟩) fun p hp => ?_
      · exact hs
      · simp only [deleteTask, at_del, at_zremAll] at hp
        exact hp.1
    · exact (only_deleteTask s id x hx).fewer

/-- During a pass of the forwarder that began in `s`: the task has been passed over, or it is at
the end of the stream. -/
structure Forwarding (u s : Slot) (x : String) : Prop where
  body : u.body x = s.body x
  grown : s.stream.lastId ≤ u.stream.lastId
  place : (∀ p, u.At x p → s.At x p) ∨ (∃ p, s.At x p) ∧
    (∀ p, u.At x p → ∃ sid, p = .entry sid ∧ s.stream.lastId < sid) ∧ u.OnePlace x

theorem Forwarding.move {q : String} {now : Int} (h : u.Forwarding s x) (hone : s.OnePlace x)
    (hm : Move k (.forward q z now max) u t) : t.Forwarding s x := by
  obtain ⟨hb, hle, hat⟩ := h
  cases hm with
  | quiet ha =>
    refine ⟨(ha.body x).trans hb, by rwa [ha.stream], ?_⟩
    have hiff (p : Place) : t.At x p ↔ u.At x p := ha.at_iff
    simpa only [OnePlace, hiff] using hat
  | enqueue _ ho | schedule _ _ ho | create _ _ ho => cases ho
  | forward _ _ _ _ _ id hid =>
    refine ⟨by simpa using hb, by simp [forwardOne]; omega, ?_⟩
    by_cases hx : x = id
    · subst hx
      have hwas : s.At x (.set z) := by
        rcases hat with hat | ⟨-, hat, -⟩
        · exact hat (.set z) hid
        · obtain ⟨sid, hsid, -⟩ := hat (.set z) hid
          cases hsid
      have hold : ∀ p, u.At x p → p = .set z := by
        intro p hp
        rcases hat with hat | ⟨-, hat, -⟩
        · exact hone p (.set z) (hat p hp) hwas
        · obtain ⟨sid, hsid, -⟩ := hat (.set z) hid
          cases hsid
      have hnew : ∀ p, (forwardOne z u x).At x p → p = .entry (u.stream.lastId + 1) := by
        intro p hp
        simp only [forwardOne, at_zrem, at_setState, at_append, true_and] at hp
        rcases hp.1 with hp' | hp'
        · exact absurd (hold p hp') hp.2
        · exact hp'
      exact .inr ⟨⟨_, hwas⟩, fun p hp => ⟨_, hnew p hp, by omega⟩,
        fun p p' hp hp' => (hnew p hp).trans (hnew p' hp').symm⟩
    · have hiff := (only_forwardOne u z id x hx).at_iff
      simpa only [OnePlace, hiff] using hat

/-- During a pass of the janitor that began in `s`. -/
structure Trimming (u s : Slot) (x : String) : Prop where
  body : u.body x = s.body x ∨ u.body x = none
  stream : u.stream = s.stream
  place : ∀ p, u.At x p → s.At x p

theorem Trimming.move {q : String} {cutoff maxSize : Int} {batch : Nat} (h : u.Trimming s x)
    (hm : Move k (.trim q z cutoff maxSize batch) u t) : t.Trimming s x := by
  obtain ⟨hb, hstream, hat⟩ := h
  cases hm with
  | quiet ha =>
    exact ⟨by rwa [ha.body x], ha.stream.trans hstream, fun p hp => hat p (ha.at_iff.mp hp)⟩
  | enqueue _ ho | schedule _ _ ho | create _ _ ho => cases ho
  | trim _ _ _ _ _ _ id =>
    refine ⟨?_, hstream, fun p hp => hat p ?_⟩
    · rw [body_trimOne]
      split
      · exact .inr rfl
      · exact hb
    · simp only [trimOne, at_zrem, at_del] at hp
      exact hp.1

/-- A pass of the forwarder or the janitor. -/
theorem taskRun_batch (r : op.Reply) (now : Int) (hone : s.OnePlace x) (hop : op.Batch) :
    TaskRun op r s (op.run k now s).1 x := by
  cases op with
  | forward q z t max =>
    have hkeep : ∀ u v, Move k (.forward q z t max) u v → u.Forwarding s x → v.Forwarding s x :=
      fun _ _ hm h => h.move hone hm
    obtain ⟨hb, -, hat | ⟨hwas, hat, hone'⟩⟩ :=
      run_invariant hkeep now ⟨rfl, Nat.le_refl _, .inl fun _ hp => hp⟩
    · exact .fewer (.inl hb) hat
    · exact .back hwas hb hat hone'
  | trim q z cutoff maxSize batch =>
    have hkeep : ∀ u v, Move k (.trim q z cutoff maxSize batch) u v → u.Trimming s x →
        v.Trimming s x := fun _ _ hm h => h.move hm
    obtain ⟨hb, hstream, hat⟩ := run_invariant hkeep now ⟨.inl rfl, rfl, fun _ hp => hp⟩
    refine .fewer (hb.imp id fun hb => ⟨hb, fun sid hs => ?_⟩) hat
    unfold At at hs ⊢
    rwa [hstream]
  | _ => exact hop.elim

theorem TaskRun.agree_left (hs : s.Agree u) (h : TaskRun op r u t x) : TaskRun op r s t x := by
  have hiff (p : Place) : u.At x p ↔ s.At x p := hs.at_iff
  cases h with
  | fewer hb hat =>
    refine .fewer (hb.imp (fun hb => hb.trans (hs.body x)) fun hb => ⟨hb.1, fun sid h => ?_⟩)
      fun p hp => (hiff p).mp (hat p hp)
    exact hb.2 sid ((hiff _).mpr h)
  | back hwas hb hat hone =>
    obtain ⟨p, hp⟩ := hwas
    exact .back ⟨p, (hiff p).mp hp⟩ (hb.trans (hs.body x)) (hs.stream ▸ hat) hone
  | moved ho hx hwas hat hb => exact .moved ho hx ((hiff _).mp hwas) hat hb
  | gone ho hwas hat hb => exact .gone ho ((hiff _).mp hwas) hat hb
  | new ha hx hb hone => exact .new ha hx hb fun hno => hone fun p hp => hno p ((hiff p).mp hp)

/-- **What a request does to one task** that is in at most one place. -/
theorem taskRun (now : Int) (hone : s.OnePlace x) (hen : s.Entitled op)
    (hrun : ∀ q, op ≠ .runTask q x) : TaskRun op (op.run k now s).2 s (op.run k now s).1 x := by
  by_cases hop : op.Batch
  · exact taskRun_batch _ now hone hop
  by_cases hnew : ∃ msg, (op.Enqueues k msg ∨ op.Schedules k msg ∨ op.Creates msg) ∧ msg.id = x
  · obtain ⟨msg, ho, hx⟩ := hnew
    exact taskRun_enqueue now ho hx
  obtain ⟨s₁, hagree, heq | hmove⟩ := run_once k now s hop
  · rw [heq]
    exact .of_agree hagree
  · have hone₁ : s₁.OnePlace x :=
      fun p p' hp hp' => hone p p' (hagree.at_iff.mp hp) (hagree.at_iff.mp hp')
    have hen₁ : s₁.Entitled op := by
      unfold Entitled at hen ⊢
      rwa [hagree.stream]
    exact .agree_left hagree (taskRun_move _ hmove hone₁ hen₁ hop hrun
      fun msg ho hx => hnew ⟨msg, ho, hx⟩)

end TaskRun
end Slot

/-! ## Deliveries and their ends -/

section Ends
variable (q x : String)

/-- The command has ended a delivery of the task: an entry of it is gone. -/
def Ends (μ : Happening) : Prop :=
  ∃ e ∈ (μ.before.slot q).stream.entries, e.2 = x ∧ e ∉ (μ.after.slot q).stream.entries

instance (μ : Happening) : Decidable (Ends q x μ) :=
  inferInstanceAs (Decidable (∃ e ∈ _, _))

/-- The command has ended a delivery of the task in this sorted set. -/
def EndsIn (z : ZKey) (μ : Happening) : Prop :=
  Ends q x μ ∧ x ∈ (μ.after.slot q).zset z

instance (z : ZKey) (μ : Happening) : Decidable (EndsIn q x z μ) :=
  inferInstanceAs (Decidable (_ ∧ _))

/-- How many deliveries of the task have ended in the retry set. -/
def retries (l : List Happening) : Nat := l.countP fun μ => EndsIn q x .retry μ

/-- Process `i` has run the task's handler, which ended so. -/
def HandledBy (l : List Happening) (i : Nat) (out : Outcome) : Prop :=
  ∃ msg : TaskMessage, msg.id = x ∧ msg.queue = q ∧ Happened l i (.handle msg) out

/-- Process `i` has reclaimed the task's entry. -/
def ReclaimedBy (l : List Happening) (i : Nat) : Prop :=
  ∃ consumer minIdle max entries, Happened l i (.redis (.xAutoClaim q consumer minIdle max))
    (some entries) ∧ ∃ sid, (sid, x) ∈ entries

/-- The delivery in the hands of process `i` has ended in `SkipRetry`, or it has failed or was
reclaimed after `max` retries. -/
def OutOfRetries (max : Nat) (l : List Happening) (i : Nat) : Prop :=
  (∃ err, HandledBy q x l i (.fail err true)) ∨ retries q x l = max ∧
    ((∃ err skip, HandledBy q x l i (.fail err skip)) ∨ ReclaimedBy q x l i)

/-- The command archives the task, or it ends a delivery that has not succeeded and deletes
the task. -/
def DeadLetters (l : List Happening) (μ : Happening) : Prop :=
  (x ∉ (μ.before.slot q).zset .archived ∧ x ∈ (μ.after.slot q).zset .archived) ∨
    Ends q x μ ∧ ((μ.before.slot q).body x).isSome ∧ (μ.after.slot q).body x = none ∧
      ∀ r, ¬ HandledBy q x l μ.who (.ok r)

end Ends

/-! ## Runs -/

/-- A body has been stored for this task before. -/
def World.Born (w : World) (q x : String) : Prop :=
  ∃ m : TaskMessage, .created m ∈ w.log ∧ m.id = x ∧ m.queue = q

/-- The task is enqueued at most once, with an unused budget of `max` retries. -/
def World.EnqueuesOnce (w : World) (k : Keys) (q x : String) (max : Nat) (op : Op) : Prop :=
  ∀ msg, op.admits (w.reply k op) = some msg → op.queue = q → msg.id = x →
    ¬ w.Born q x ∧ msg.retried = 0 ∧ msg.maxRetry = max

/-- Any run in which the task is enqueued once, with this budget, and never re-run by hand, and
every entry is acted on only by the process that was last given it. -/
def budgeted (k : Keys) (q x : String) (max : Nat) : Regime :=
  { anyRun with
    allow := fun i op w => w.Owns i op ∧ w.EnqueuesOnce k q x max op ∧ op ≠ .runTask q x }

/-- The process holds this copy of the task of the entry. -/
def HoldsCopy (p : Party) (q : String) (sid : Nat) (x : String)
    (c : TaskMessage) : Prop :=
  match p.job with
  | .work q' sid' c' => q' = q ∧ sid' = sid ∧ c' = c
  | .fetch .. | .recover .. => Did p.hist (.getTask q x) (some c)
  | _ => False

/-- `n` of the `max` retries of the task are used up. -/
structure World.Charged (w : World) (q x : String) (max n : Nat) : Prop where
  unborn : ¬ w.Born q x → n = 0 ∧ (w.slot q).body x = none ∧ ∀ p, ¬ (w.slot q).At x p
  onePlace : (w.slot q).OnePlace x
  stored : ∀ b, (w.slot q).body x = some b → b.retried = n ∧ b.maxRetry = max
  le : n ≤ max

/-- The invariant of the budget. -/
structure Budget (q x : String) (max : Nat) (l : List Happening)
    (t : Chronicle) : Prop extends Sane t where
  owned : t.world.OwnersHold
  /-- An owner has been started. -/
  live : ∀ q sid i, t.world.owner q sid = some i → i < t.procs.length
  charged : t.world.Charged q x max (retries q x l)
  /-- The copy of the owner of an entry is not out of date. -/
  copies : ∀ i p sid c, t.procs[i]? = some p → t.world.owner q sid = some i →
    (sid, x) ∈ (t.world.slot q).stream.entries → HoldsCopy p q sid x c →
    c.retried = retries q x l ∧ c.maxRetry = max

/-! ## The copies of the message -/

section Copies
variable {q x : String} {w w' : World} {i : Nat}

/-- The handler of a worker has run. -/
theorem Budget.handledBy (h : Budget q x max l ⟨w, ps⟩) (hrec : RecordedIn l ps) {hist : Hist}
    (hp : ps[i]? = some ⟨.work q sid m, hist⟩) (hid : m.id = x) {out : Outcome}
    (hran : Ran hist m out) : HandledBy q x l i out :=
  ⟨m, hid, (h.knows _ (List.mem_of_getElem? hp)).1.2, hrec i _ hp _ _ hran⟩

/-- What process `i` does with the entry of the task rests on a copy that is not out of date. -/
theorem Budget.moved (h : Budget q x max l ⟨w, ps⟩) (hrec : RecordedIn l ps)
    (hp : ps[i]? = some p) (hr : p.job.Request p.hist (.moveToZSet q sid msg z score))
    (hx : msg.id = x) (how : w.owner q sid = some i) (hsid : (sid, x) ∈ (w.slot q).stream.entries) :
    msg.maxRetry = max ∧
      (z = .retry ∧ msg.retried = retries q x l + 1 ∧ retries q x l < max ∨
        z ≠ .retry ∧ msg.retried = retries q x l ∧ (z = .archived → OutOfRetries q x max l i)) := by
  have hmem := List.mem_of_getElem? hp
  obtain ⟨job, hist⟩ := p
  cases job with
  | send | sendAll => cases h.traffic hmem trivial hr
  | deleteTask | fetch => cases hr
  | work q' sid' m =>
    cases hr with
    | @retain r now ok hd ht hu =>
      obtain ⟨hn, hm⟩ := h.copies i _ sid m hp how hsid ⟨rfl, rfl, rfl⟩
      have hsame : (withResult m r).retried = m.retried ∧
          (withResult m r).maxRetry = m.maxRetry := by
        cases r <;> exact ⟨rfl, rfl⟩
      exact ⟨hsame.2.trans hm, .inr ⟨by decide, hsame.1.trans hn, fun h => nomatch h⟩⟩
    | @archive err skip now bad hdead hn hu =>
      obtain ⟨hn, hm⟩ := h.copies i _ sid m hp how hsid ⟨rfl, rfl, rfl⟩
      refine ⟨hm, .inr ⟨by decide, hn, fun _ => ?_⟩⟩
      rcases hdead with rfl | hdead
      · exact .inl ⟨err, h.handledBy hrec hp hx bad⟩
      · exact .inr ⟨Nat.le_antisymm h.charged.le (by omega),
          .inl ⟨err, skip, h.handledBy hrec hp hx bad⟩⟩
    | @retry err skip at' bad hlive hu =>
      obtain ⟨hn, hm⟩ := h.copies i _ sid m hp how hsid ⟨rfl, rfl, rfl⟩
      have hlt : m.retried < m.maxRetry := Nat.lt_of_not_le fun hle => hlive (.inr hle)
      exact ⟨hm, .inl ⟨rfl, congrArg (· + 1) hn, by omega⟩⟩
    | link _ _ _ ho | member _ _ _ _ _ ho | drain _ _ ho | report _ _ _ ho => cases ho
  | recover q' consumer minIdle n =>
    cases hr with
    | archive hc hdead =>
      obtain ⟨id, hcl, hd⟩ := hc
      obtain ⟨rfl, -⟩ := h.loaded hmem hd
      subst hx
      obtain ⟨hn, hm⟩ := h.copies i _ sid msg hp how hsid hd
      refine ⟨hm, .inr ⟨by decide, hn, fun _ =>
        .inr ⟨Nat.le_antisymm h.charged.le (by omega), .inr ?_⟩⟩⟩
      obtain ⟨entries, hcl, hmem'⟩ := hcl
      exact ⟨consumer, minIdle, n, entries, hrec i _ hp _ _ hcl, sid, hmem'⟩
    | @retry _ m now hc hlive =>
      obtain ⟨id, hcl, hd⟩ := hc
      obtain ⟨rfl, -⟩ := h.loaded hmem hd
      subst hx
      obtain ⟨hn, hm⟩ := h.copies i _ sid m hp how hsid hd
      exact ⟨hm, .inl ⟨rfl, congrArg (· + 1) hn, by omega⟩⟩

/-- A delivery that deletes the task has succeeded, or it was the last one. -/
theorem Budget.gone (h : Budget q x max l ⟨w, ps⟩) (hrec : RecordedIn l ps) (hp : ps[i]? = some p)
    (hr : p.job.Request p.hist (.ackDelete q sid x)) (how : w.owner q sid = some i)
    (hsid : (sid, x) ∈ (w.slot q).stream.entries) :
    (∃ r, HandledBy q x l i (.ok r)) ∨ OutOfRetries q x max l i := by
  have hmem := List.mem_of_getElem? hp
  obtain ⟨job, hist⟩ := p
  cases job with
  | send | sendAll => cases h.traffic hmem trivial hr
  | deleteTask | fetch | recover => cases hr
  | work q' sid' m =>
    cases hr with
    | @delete r ok hd ht hu => exact .inl ⟨r, h.handledBy hrec hp rfl ok⟩
    | @discard err skip bad hdead hn hu =>
      rcases hdead with rfl | hdead
      · exact .inr (.inl ⟨err, h.handledBy hrec hp rfl bad⟩)
      · obtain ⟨hn, hm⟩ := h.copies i _ sid m hp how hsid ⟨rfl, rfl, rfl⟩
        exact .inr (.inr ⟨Nat.le_antisymm h.charged.le (by omega), .inl
          ⟨err, skip, h.handledBy hrec hp rfl bad⟩⟩)
    | link _ _ _ ho | member _ _ _ _ _ ho | drain _ _ ho | report _ _ _ ho => cases ho

end Copies

/-! ## One step -/

section Step
variable {q x : String} {w w' : World} {i : Nat}

theorem retries_cons_of_not (h : ¬ EndsIn q x .retry μ) :
    retries q x (μ :: l) = retries q x l :=
  List.countP_cons_of_neg (by simpa using h)

theorem retries_cons_of (h : EndsIn q x .retry μ) :
    retries q x (μ :: l) = retries q x l + 1 :=
  List.countP_cons_of_pos (by simpa using h)

/-- While an entry of the task is left, no delivery has ended in the retry set. -/
theorem not_endsIn_of_entry (hone : (μ.after.slot q).OnePlace x)
    (hsid : (sid, x) ∈ (μ.after.slot q).stream.entries) (z : ZKey) : ¬ EndsIn q x z μ :=
  fun h => nomatch hone (.entry sid) (.set z) hsid h.2

theorem Op.admits_target {r : op.Reply} (h : op.admits r = some msg) :
    op.target = some msg.id := by
  cases op with
  | enqueue | schedule =>
    cases h
    rfl
  | enqueueUnique | scheduleUnique | enqueuePeriodic | chainEnqueue | chainSchedule
  | groupComplete =>
    simp only [admits] at h
    split at h
    · cases h
      rfl
    · cases h
  | _ => cases h

/-- What the history of a process shows after a command. -/
theorem HoldsCopy.call {g : Regime} {r : c.Reply} (he : g.exec k i c w r w')
    (h : HoldsCopy ⟨p.job, p.hist ++ [.call c r]⟩ q sid x m) :
    HoldsCopy p q sid x m ∨ (w.slot q).body x = some m := by
  obtain ⟨job, hist⟩ := p
  have hdid : Did (hist ++ [.call c r]) (.getTask q x) (some m) →
      Did hist (.getTask q x) (some m) ∨ (w.slot q).body x = some m := by
    intro hd
    rcases List.mem_append.mp hd with hd | hd
    · exact .inl hd
    · cases List.mem_singleton.mp hd
      exact .inr (Regime.exec_answered he).2.2.symm
  cases job with
  | work => exact .inl h
  | fetch | recover => exact hdid h
  | _ => exact h.elim

theorem Budget.entitled (h : Budget q x max l ⟨w, ps⟩) (hp : p ∈ ps)
    (hr : p.job.Request p.hist op) (hown : w.Owns i op) : (w.slot op.queue).Entitled op := by
  have hj := h.request hp hr
  have hentry {q : String} {sid : Nat} {id : String} (hg : Given p q sid id)
      (how : w.owner q sid = some i) : (sid, id) ∈ (w.slot q).stream.entries :=
    h.entry_of_given h.owned hp hg how
  cases op with
  | requeue q sid | ackDelete q sid => exact hentry hj (hown sid (List.mem_singleton_self _))
  | moveToZSet q sid msg z score => exact hentry hj.1 (hown sid (List.mem_singleton_self _))
  | _ => trivial

/-- Nothing has happened to the task. -/
theorem World.Charged.same {n : Nat} (h : w.Charged q x max n) (ha : (w.slot q).Agree (w'.slot q))
    (hborn : w.Born q x → w'.Born q x) : w'.Charged q x max n where
  unborn := fun hb => by
    obtain ⟨hn, hbody, hat⟩ := h.unborn fun hb' => hb (hborn hb')
    exact ⟨hn, (ha.body x).trans hbody, fun p hp => hat p (ha.at_iff.mp hp)⟩
  onePlace := fun p p' hp hp' => h.onePlace p p' (ha.at_iff.mp hp) (ha.at_iff.mp hp')
  stored := fun b hb => h.stored b ((ha.body x).symm.trans hb)
  le := h.le

theorem not_ends_of_slot_eq (hslot : μ.after.slot q = μ.before.slot q) : ¬ Ends q x μ := by
  rintro ⟨e, he, -, hgone⟩
  rw [hslot] at hgone
  exact hgone he

theorem not_deadLetters_of_slot_eq (hslot : μ.after.slot q = μ.before.slot q) :
    ¬ DeadLetters q x l μ := by
  rintro (⟨hnot, harch⟩ | ⟨hends, -⟩)
  · exact hnot (hslot ▸ harch)
  · exact not_ends_of_slot_eq hslot hends

theorem World.Born.perform (h : w.Born q x) (k : Keys) (i : Nat) (op : Op) :
    (w.perform k i op).Born q x := by
  obtain ⟨m, hm, hid⟩ := h
  exact ⟨m, List.mem_append_right _ hm, hid⟩

/-- The command leaves the task charged as before, or with one retry more; and if it is a dead
letter, its budget is used up. -/
def Settles (q x : String) (max : Nat) (l : List Happening)
    (μ : Happening) : Prop :=
  μ.after.Charged q x max (retries q x (μ :: l)) ∧
    (DeadLetters q x l μ → OutOfRetries q x max l μ.who)

section Perform
variable (h : Budget op.queue x max l ⟨w, ps⟩) (r : Option op.Reply)
include h

theorem Budget.perform_fewer
    (hb : ((w.perform k i op).slot op.queue).body x = (w.slot op.queue).body x ∨
      ((w.perform k i op).slot op.queue).body x = none ∧
        ∀ sid, (w.slot op.queue).At x (.entry sid) →
          ((w.perform k i op).slot op.queue).At x (.entry sid))
    (hat : ∀ p, ((w.perform k i op).slot op.queue).At x p → (w.slot op.queue).At x p) :
    Settles op.queue x max l ⟨i, .redis op, r, w, w.perform k i op⟩ := by
  have hc := h.charged
  refine ⟨?_, ?_⟩
  · rw [retries_cons_of_not]
    · refine ⟨fun hnb => ?_, fun p p' hp hp' => hc.onePlace p p' (hat p hp) (hat p' hp'),
        fun b hbody => ?_, hc.le⟩
      · obtain ⟨h0, hnone, hno⟩ := hc.unborn fun hb' => hnb (hb'.perform k i op)
        exact ⟨h0, hb.elim (fun hb => hb.trans hnone) And.left, fun p hp => hno p (hat p hp)⟩
      · rcases hb with hb | ⟨hb, -⟩
        · exact hc.stored b (hb ▸ hbody)
        · cases hb.symm.trans hbody
    · rintro ⟨⟨e, he, rfl, -⟩, hz⟩
      exact nomatch hc.onePlace (.entry e.1) (.set .retry) he (hat (.set .retry) hz)
  · rintro (⟨hnot, harch⟩ | ⟨⟨e, he, rfl, hgone⟩, hsome, hnone, -⟩)
    · exact absurd (hat (.set .archived) harch) hnot
    · rcases hb with hb | ⟨-, hkeep⟩
      · have hsome' : ((w.slot op.queue).body e.2).isSome := hsome
        rw [← hb, show ((w.perform k i op).slot op.queue).body e.2 = none from hnone] at hsome'
        cases hsome'
      · exact absurd (hkeep e.1 he) hgone

theorem Budget.perform_back (hwas : ∃ p, (w.slot op.queue).At x p)
    (hb : ((w.perform k i op).slot op.queue).body x = (w.slot op.queue).body x)
    (hat : ∀ p, ((w.perform k i op).slot op.queue).At x p → ∃ sid, p = .entry sid ∧
      (w.slot op.queue).stream.lastId < sid)
    (hone : ((w.perform k i op).slot op.queue).OnePlace x) :
    Settles op.queue x max l ⟨i, .redis op, r, w, w.perform k i op⟩ := by
  have hc := h.charged
  -- the task is in none of the sets
  have hset (z : ZKey) : x ∉ ((w.perform k i op).slot op.queue).zset z := by
    intro hz
    obtain ⟨sid, hsid, -⟩ := hat (.set z) hz
    cases hsid
  have hretry : ¬ EndsIn op.queue x .retry ⟨i, .redis op, r, w, w.perform k i op⟩ :=
    fun he => hset .retry he.2
  refine ⟨?_, ?_⟩
  · rw [retries_cons_of_not hretry]
    refine ⟨fun hnb => ?_, hone, fun b hbody => hc.stored b (hb ▸ hbody), hc.le⟩
    obtain ⟨p, hp⟩ := hwas
    exact absurd hp ((hc.unborn fun hb' => hnb (hb'.perform k i op)).2.2 p)
  · rintro (⟨-, harch⟩ | ⟨-, hsome, hnone, -⟩)
    · exact absurd harch (hset .archived)
    · have hsome' : ((w.slot op.queue).body x).isSome := hsome
      rw [← hb, show ((w.perform k i op).slot op.queue).body x = none from hnone] at hsome'
      cases hsome'

theorem Budget.perform_new (hkept : ((w.perform k i op).slot op.queue).WellKept op.queue)
    (ha : op.admits (w.reply k op) = some msg)
    (honce : ¬ w.Born op.queue x ∧ msg.retried = 0 ∧ msg.maxRetry = max) (hx : msg.id = x)
    (hb : ∃ b, ((w.perform k i op).slot op.queue).body x = some b ∧ b.retried = msg.retried ∧
      b.maxRetry = msg.maxRetry)
    (hone : (∀ p, ¬ (w.slot op.queue).At x p) → ((w.perform k i op).slot op.queue).OneWaiting x) :
    Settles op.queue x max l ⟨i, .redis op, r, w, w.perform k i op⟩ := by
  obtain ⟨hnb, h0, hm⟩ := honce
  obtain ⟨hn, hnone, hno⟩ := h.charged.unborn hnb
  obtain ⟨b, hb, hretried, hmax⟩ := hb
  have hends : ¬ Ends op.queue x ⟨i, .redis op, r, w, w.perform k i op⟩ := by
    rintro ⟨e, he, rfl, -⟩
    exact hno (.entry e.1) he
  have hborn : (w.perform k i op).Born op.queue x := by
    have hcreated : op.creates (w.slot op.queue) (w.slotAfter k op) = some b := by
      rw [← World.slot_perform_self (i := i), Op.creates, op.admits_target ha, hx, Option.bind_some,
        hnone]
      exact hb
    refine ⟨b, List.mem_append_left _ ?_, hkept.keyed x b hb⟩
    rw [hcreated]
    exact List.mem_singleton_self _
  refine ⟨?_, ?_⟩
  · rw [retries_cons_of_not fun he => hends he.1, hn]
    refine ⟨fun hnb' => absurd hborn hnb', (hone hno).onePlace, fun b' hb' => ?_, Nat.zero_le _⟩
    cases hb.symm.trans hb'
    exact ⟨hretried.trans h0, hmax.trans hm⟩
  · rintro (⟨-, harch⟩ | ⟨he, -⟩)
    · obtain ⟨p, hwait, hat⟩ := hone hno
      cases hat (.set .archived) harch
      cases hwait
    · exact absurd he hends

end Perform

section
variable (h : Budget q x max l ⟨w, ps⟩)
include h

theorem Budget.perform_moved (hrec : RecordedIn l ps) (hp : ps[i]? = some p)
    (ho : op = .moveToZSet q sid msg z score) (hr : p.job.Request p.hist op) (hown : w.Owns i op)
    (r : Option op.Reply) (hx : msg.id = x) (hwas : (w.slot q).At x (.entry sid))
    (hat : ∀ p, ((w.perform k i op).slot q).At x p ↔ p = .set z)
    (hb : ((w.perform k i op).slot q).body x = some { msg with state := z.state }) :
    Settles q x max l ⟨i, .redis op, r, w, w.perform k i op⟩ := by
  subst ho
  obtain ⟨hmax, hcount⟩ := h.moved hrec hp hr hx (hown sid (List.mem_singleton_self _)) hwas
  have hends : Ends q x ⟨i, .redis (.moveToZSet q sid msg z score), r, w,
      w.perform k i (.moveToZSet q sid msg z score)⟩ :=
    ⟨(sid, x), hwas, rfl, fun hin => nomatch (hat (.entry sid)).mp hin⟩
  have hborn : ¬ (w.perform k i (.moveToZSet q sid msg z score)).Born q x → False :=
    fun hnb => (h.charged.unborn fun hb' => hnb (hb'.perform k i _)).2.2 _ hwas
  have hretry : z ≠ .retry → ¬ EndsIn q x .retry ⟨i, .redis (.moveToZSet q sid msg z score), r, w,
      w.perform k i (.moveToZSet q sid msg z score)⟩ :=
    fun hz he => hz (Place.set.inj ((hat (.set .retry)).mp he.2)).symm
  refine ⟨?_, ?_⟩
  · refine ⟨fun hnb => (hborn hnb).elim, fun p p' hp hp' => ?_, fun b hbody => ?_, ?_⟩
    · exact ((hat p).mp hp).trans ((hat p').mp hp').symm
    · cases hb.symm.trans hbody
      refine ⟨?_, hmax⟩
      rcases hcount with ⟨rfl, hretried, -⟩ | ⟨hz, hretried, -⟩
      · rw [retries_cons_of ⟨hends, (hat _).mpr rfl⟩]
        exact hretried
      · rw [retries_cons_of_not (hretry hz)]
        exact hretried
    · rcases hcount with ⟨rfl, -, hlt⟩ | ⟨hz, -⟩
      · rw [retries_cons_of ⟨hends, (hat _).mpr rfl⟩]
        exact hlt
      · rw [retries_cons_of_not (hretry hz)]
        exact h.charged.le
  · rintro (⟨-, harch⟩ | ⟨-, -, hnone, -⟩)
    · cases (hat (.set .archived)).mp harch
      rcases hcount with ⟨hz, -⟩ | ⟨-, -, hlast⟩
      · cases hz
      · exact hlast rfl
    · cases hb.symm.trans hnone

theorem Budget.perform_gone (hrec : RecordedIn l ps) (hp : ps[i]? = some p)
    (ho : op = .ackDelete q sid x) (hr : p.job.Request p.hist op) (hown : w.Owns i op)
    (r : Option op.Reply) (hwas : (w.slot q).At x (.entry sid))
    (hat : ∀ p, ¬ ((w.perform k i op).slot q).At x p)
    (hb : ((w.perform k i op).slot q).body x = none) :
    Settles q x max l ⟨i, .redis op, r, w, w.perform k i op⟩ := by
  subst ho
  have hretry : ¬ EndsIn q x .retry ⟨i, .redis (.ackDelete q sid x), r, w,
      w.perform k i (.ackDelete q sid x)⟩ := fun he => hat (.set .retry) he.2
  refine ⟨?_, ?_⟩
  · rw [retries_cons_of_not hretry]
    refine ⟨fun hnb => ?_, fun p _ hp => absurd hp (hat p), fun b hbody => ?_, h.charged.le⟩
    · exact absurd hwas ((h.charged.unborn fun hb' => hnb (hb'.perform k i _)).2.2 _)
    · cases hb.symm.trans hbody
  · rintro (⟨-, harch⟩ | ⟨-, -, -, hfailed⟩)
    · exact absurd harch (hat (.set .archived))
    · rcases h.gone hrec hp hr (hown sid (List.mem_singleton_self _)) hwas with ⟨out, hok⟩ | hlast
      · exact absurd hok (hfailed out)
      · exact hlast

/-- **One request against the budget.** -/
theorem Budget.perform (hrec : RecordedIn l ps) (hp : ps[i]? = some p)
    (hr : p.job.Request p.hist op) (hok : (budgeted k q x max).allow i op w)
    (hkept : (w.slotAfter k op).WellKept op.queue) (r : Option op.Reply) :
    Settles q x max l ⟨i, .redis op, r, w, w.perform k i op⟩ := by
  obtain ⟨hown, honce, hmanual⟩ := hok
  have hc := h.charged
  by_cases hq : q = op.queue
  · subst hq
    have hslot : (w.perform k i op).slot op.queue = w.slotAfter k op := World.slot_perform_self
    have hrun := Slot.taskRun (k := k) w.now hc.onePlace
      (h.entitled (List.mem_of_getElem? hp) hr hown)
      (fun q' heq => hmanual (by subst heq; rfl))
    change Slot.TaskRun op (w.reply k op) (w.slot op.queue) (w.slotAfter k op) x at hrun
    rw [← hslot] at hrun hkept
    cases hrun with
    | fewer hb hat => exact h.perform_fewer r hb hat
    | back hwas hb hat hone => exact h.perform_back r hwas hb hat hone
    | @moved q sid msg z score ho hx hwas hat hb =>
      have ho' : op = .moveToZSet op.queue sid msg z score := by
        rw [ho]
        rfl
      exact h.perform_moved hrec hp ho' hr hown r hx hwas hat hb
    | @gone q sid ho hwas hat hb =>
      have ho' : op = .ackDelete op.queue sid x := by
        rw [ho]
        rfl
      exact h.perform_gone hrec hp ho' hr hown r hwas hat hb
    | new ha hx hb hone => exact h.perform_new r hkept ha (honce _ ha rfl hx) hx hb hone
  · have hslot : (w.perform k i op).slot q = w.slot q := World.slot_perform_ne hq
    refine ⟨?_, fun hdead => absurd hdead (not_deadLetters_of_slot_eq hslot)⟩
    rw [retries_cons_of_not fun he => not_ends_of_slot_eq hslot he.1]
    exact hc.same (hslot ▸ .refl _) fun hb => hb.perform k i op

/-- A process that has just been given entries has not read any task. -/
theorem Budget.not_holdsCopy_of_delivers (hp : p ∈ ps) (hr : p.job.Request p.hist op)
    {e : Nat × String} (he : e ∈ op.delivers (w.reply k op)) {r : Option op.Reply} :
    ¬ HoldsCopy ⟨p.job, p.hist ++ [.call (.redis op) r]⟩ q sid x m := by
  obtain ⟨job, hist⟩ := p
  cases op with
  | xReadGroup q' consumer count =>
    cases job with
    | send | sendAll => cases h.traffic hp trivial hr
    | deleteTask | recover => cases hr
    | fetch =>
      cases hr with
      | read hh =>
        subst hh
        exact fun hm => nomatch List.mem_singleton.mp hm
    | work =>
      cases hr with
      | link _ _ _ ho | member _ _ _ _ _ ho | drain _ _ ho | report _ _ _ ho => cases ho
  | xAutoClaim q' consumer minIdle count =>
    cases job with
    | send | sendAll => cases h.traffic hp trivial hr
    | deleteTask | fetch => cases hr
    | recover =>
      cases hr with
      | claim hh =>
        subst hh
        exact fun hm => nomatch List.mem_singleton.mp hm
    | work =>
      cases hr with
      | link _ _ _ ho | member _ _ _ _ _ ho | drain _ _ ho | report _ _ _ ho => cases ho
  | _ => cases he

/-- What is true of the copies of the task after a command. -/
theorem Budget.copies_call (hp : ps[i]? = some p) {r : c.Reply}
    (hc : c.Permitted (p.job.Request p.hist) (p.job.Runs p.hist))
    (he : (budgeted k q x max).exec k i c w r w') (hone : (w'.slot q).OnePlace x)
    (hgrow : StreamsGrow w w') {j : Nat} {p' : Party}
    (hp' : (ps.set i ⟨p.job, p.hist ++ [.call c r]⟩)[j]? = some p')
    (how : w'.owner q sid = some j) (hsid : (sid, x) ∈ (w'.slot q).stream.entries)
    (hm : HoldsCopy p' q sid x m) :
    m.retried = retries q x (⟨i, c, r, w, w'⟩ :: l) ∧ m.maxRetry = max := by
  rw [retries_cons_of_not (not_endsIn_of_entry hone hsid _)]
  have hlt : i < ps.length := (List.getElem?_eq_some_iff.mp hp).1
  have hown : w.owner q sid = some j ∨
      j = i ∧ ∃ op, c = .redis op ∧ ∃ y, (sid, y) ∈ op.delivers (w.reply k op) := by
    rcases Regime.exec_cases he with rfl | ⟨msg, out, rfl, -, rfl⟩ | ⟨op, rfl, -, rfl⟩
    · exact .inl how
    · exact .inl how
    · rcases World.owner_perform how with ⟨-, hj, hy⟩ | ⟨hold, -⟩
      · exact .inr ⟨hj, op, rfl, hy⟩
      · exact .inl hold
  rcases hown with hold | ⟨rfl, op, rfl, y, hy⟩
  · -- the entry and its owner are old ones
    obtain ⟨y, hy⟩ := h.owned q sid j hold
    have hsid' : (sid, x) ∈ (w.slot q).stream.entries := by
      rcases (hgrow q).mem_or_newer _ hsid with hmem | hnew
      · exact hmem
      · exact absurd ((w.slot q).stream.entries_le _ hy) (Nat.not_le_of_lt hnew)
    by_cases hj : i = j
    · subst hj
      rw [List.getElem?_set_self hlt] at hp'
      cases hp'
      rcases hm.call he with hm | hbody
      · exact h.copies i p sid m hp hold hsid' hm
      · exact h.charged.stored m hbody
    · rw [List.getElem?_set_ne hj] at hp'
      exact h.copies j p' sid m hp' hold hsid' hm
  · rw [List.getElem?_set_self hlt] at hp'
    cases hp'
    exact absurd hm (h.not_holdsCopy_of_delivers (List.mem_of_getElem? hp) hc hy)

theorem Budget.call (hrec : RecordedIn l ps) (hp : ps[i]? = some p) {r : c.Reply}
    (hc : c.Permitted (p.job.Request p.hist) (p.job.Runs p.hist))
    (he : (budgeted k q x max).exec k i c w r w') :
    Budget q x max (⟨i, c, r, w, w'⟩ :: l) ⟨w', ps.set i ⟨p.job, p.hist ++ [.call c r]⟩⟩ ∧
      (DeadLetters q x l ⟨i, c, r, w, w'⟩ → OutOfRetries q x max l i) := by
  have ha : ((budgeted k q x max).machine k).Act protocol ⟨w, ps⟩
      ⟨w', ps.set i ⟨p.job, p.hist ++ [.call c r]⟩⟩ := .call hp hc he
  have hsane := sane_act (fun _ h => h) h.toSane ha
  have hsettles : Settles q x max l ⟨i, c, r, w, w'⟩ := by
    have hquiet (hslot : w'.slot q = w.slot q) (hlog : w.Born q x → w'.Born q x) :
        Settles q x max l ⟨i, c, r, w, w'⟩ := by
      refine ⟨?_, fun hd => absurd hd (not_deadLetters_of_slot_eq hslot)⟩
      rw [retries_cons_of_not fun hends => not_ends_of_slot_eq hslot hends.1]
      exact h.charged.same (hslot ▸ .refl _) hlog
    rcases Regime.exec_cases he with rfl | ⟨msg, out, rfl, -, rfl⟩ | ⟨op, rfl, hok, rfl⟩
    · exact hquiet rfl id
    · exact hquiet rfl fun ⟨m, hm, hid⟩ => ⟨m, List.mem_cons_of_mem _ hm, hid⟩
    · refine h.perform hrec hp hc hok ?_ r
      rw [← World.slot_perform_self (i := i)]
      exact hsane.wellKept op.queue
  refine ⟨⟨hsane, World.OwnersHold.act h.owned ha, fun q' sid j how => ?_, hsettles.1,
    fun j p' sid m hp' how hsid hm => h.copies_call hp hc he hsettles.1.onePlace
      (streamsGrow_act ha) hp' how hsid hm⟩, hsettles.2⟩
  rw [List.length_set]
  rcases Regime.exec_cases he with rfl | ⟨msg, out, rfl, -, rfl⟩ | ⟨op, rfl, -, rfl⟩
  · exact h.live q' sid j how
  · exact h.live q' sid j how
  · rcases World.owner_perform how with ⟨-, rfl, -⟩ | ⟨how, -⟩
    · exact (List.getElem?_eq_some_iff.mp hp).1
    · exact h.live q' sid j how

/-- A step that is no command changes neither the store nor, but for a worker that is
started, what the processes hold. -/
theorem Budget.calm {ps' : List Party} (hsane : Sane ⟨w', ps'⟩)
    (hslot : (w.slot q).Agree (w'.slot q)) (hlog : w'.log = w.log) (hown : w'.OwnersHold)
    (hlive : ∀ q sid j, w'.owner q sid = some j → j < ps'.length)
    (hcopy : ∀ j p' sid m, ps'[j]? = some p' → w'.owner q sid = some j →
      (sid, x) ∈ (w.slot q).stream.entries → HoldsCopy p' q sid x m → ∃ i p m', ps[i]? = some p ∧
      w.owner q sid = some i ∧ HoldsCopy p q sid x m' ∧ m.retried = m'.retried ∧
      m.maxRetry = m'.maxRetry) : Budget q x max l ⟨w', ps'⟩ := by
  refine ⟨hsane, hown, hlive, h.charged.same hslot fun ⟨m, hm, hid⟩ => ⟨m, hlog ▸ hm, hid⟩, ?_⟩
  intro j p' sid m hp' how hsid hm
  have hsid' : (sid, x) ∈ (w.slot q).stream.entries := hslot.stream ▸ hsid
  obtain ⟨i, p, m', hp, how', hm', hr, hx⟩ := hcopy j p' sid m hp' how hsid' hm
  rw [hr, hx]
  exact h.copies i p sid m' hp how' hsid' hm'

/-- The worker of an entry holds the copy that the fetch loop has read. -/
theorem Budget.forked_copy (hp : ps[i]? = some p) {a : TaskMessage}
    (hf : p.job.Forks p.hist (.work q sid a)) (hsid : (sid, x) ∈ (w.slot q).stream.entries)
    (hm : HoldsCopy ⟨.work q sid a, []⟩ q sid x m) :
    ∃ m', HoldsCopy p q sid x m' ∧ m.retried = m'.retried ∧ m.maxRetry = m'.maxRetry := by
  obtain ⟨job, hist⟩ := p
  have hmem := List.mem_of_getElem? hp
  obtain ⟨-, -, rfl⟩ := hm
  cases job with
  | fetch q' consumer count keep =>
    cases hf with
    | @work _ m' hl hmark hu =>
      obtain ⟨id, hfetched, hd⟩ := hl
      obtain ⟨-, hqueue⟩ := h.loaded hmem hd
      rw [hqueue] at hsid ⊢
      have hid : x = id := (h.given hmem ⟨rfl, hfetched⟩).2 x hsid
      subst hid
      exact ⟨m', hd, rfl, rfl⟩
  | _ => cases hf

end

theorem Budget.fork (k : Keys) (h : Budget q x max l ⟨w, ps⟩) (hp : ps[i]? = some p) {j : Job}
    (hf : p.job.Forks p.hist j) :
    Budget q x max l ⟨w.give i ps.length j, ps.set i ⟨p.job, p.hist ++ [.fork j]⟩ ++
      [⟨j, []⟩]⟩ := by
  have ha : ((budgeted k q x max).machine k).Act protocol ⟨w, ps⟩
      ⟨w.give i ps.length j, ps.set i ⟨p.job, p.hist ++ [.fork j]⟩ ++ [⟨j, []⟩]⟩ := .fork hp hf
  have hlen : (ps.set i ⟨p.job, p.hist ++ [.fork j]⟩).length = ps.length := List.length_set
  refine h.calm (sane_act (fun _ h => h) h.toSane ha) (World.slot_give _ _ ▸ .refl _)
    (by cases j <;> rfl)
    (World.OwnersHold.act h.owned ha) (fun q' sid n how => ?_) fun n p' sid m hp' how hsid hm => ?_
  · rw [List.length_append, hlen, List.length_singleton]
    rcases World.owner_give how with ⟨rfl, -, -⟩ | how
    · exact Nat.lt_succ_self _
    · exact Nat.lt_succ_of_lt (h.live q' sid n how)
  · rcases World.owner_give how with ⟨rfl, hwas, a, rfl⟩ | how
    · rw [List.getElem?_append_right (Nat.le_of_eq hlen), hlen, Nat.sub_self] at hp'
      cases hp'
      obtain ⟨m', hm', heq⟩ := h.forked_copy hp hf hsid hm
      exact ⟨i, p, m', hp, hwas, hm', heq⟩
    · have hn : n < ps.length := h.live q sid n how
      rw [List.getElem?_append_left (hlen ▸ hn)] at hp'
      by_cases hin : i = n
      · subst hin
        rw [List.getElem?_set_self hn] at hp'
        cases hp'
        refine ⟨i, p, m, hp, how, ?_, rfl, rfl⟩
        obtain ⟨job, hist⟩ := p
        cases job with
        | fetch | recover => exact did_fork hm
        | _ => exact hm
      · rw [List.getElem?_set_ne hin] at hp'
        exact ⟨n, p', m, hp', how, hm, rfl, rfl⟩

theorem Budget.spawn (h : Budget q x max l ⟨w, ps⟩) {j : Job} (hj : (budgeted k q x max).spawn j) :
    Budget q x max l ⟨w, ps ++ [⟨j, []⟩]⟩ := by
  have ha : ((budgeted k q x max).machine k).Act protocol ⟨w, ps⟩ ⟨w, ps ++ [⟨j, []⟩]⟩ := .spawn hj
  refine h.calm (sane_act (fun _ h => h) h.toSane ha) (.refl _) rfl h.owned (fun q' sid n how => ?_)
    fun n p' sid m hp' how hsid hm => ?_
  · rw [List.length_append]
    exact Nat.lt_add_right _ (h.live q' sid n how)
  · rw [List.getElem?_append_left (h.live q sid n how)] at hp'
    exact ⟨n, p', m, hp', how, hm, rfl, rfl⟩

theorem Budget.env (h : Budget q x max l ⟨w, ps⟩)
    (he : ((budgeted k q x max).machine k).env w w') : Budget q x max l ⟨w', ps⟩ := by
  have ha : ((budgeted k q x max).machine k).Act protocol ⟨w, ps⟩ ⟨w', ps⟩ := .env he
  have hsane := sane_act (fun _ h => h) h.toSane ha
  have hown := World.OwnersHold.act h.owned ha
  obtain ⟨now, -, -, rfl⟩ := he
  exact h.calm hsane ⟨rfl, rfl, rfl⟩ rfl hown h.live
    fun n p' sid m hp' how hsid hm => ⟨n, p', m, hp', how, hm, rfl, rfl⟩

theorem Budget.init : Budget q x max [] ⟨World.init, []⟩ where
  toSane := Sane.init
  owned := fun _ _ _ h => nomatch h
  live := fun _ _ _ h => nomatch h
  charged :=
    have hat : ∀ p, ¬ (World.init.slot q).At x p := fun p hp => by
      cases p with
      | entry => exact absurd hp List.not_mem_nil
      | set => exact absurd hp ZSet.not_mem_empty
    { unborn := fun _ => ⟨rfl, rfl, hat⟩
      onePlace := fun p _ hp => absurd hp (hat p)
      stored := fun _ h => nomatch h
      le := Nat.zero_le _ }
  copies := fun _ _ _ _ h => nomatch h

end Step

/-! ## The budget -/

/-- The requests of `Dequeue`, `ForwardDue` and `Requeue`. -/
def Op.Shifts : Op → Prop
  | .xReadGroup .. | .getTask .. | .ackOrphans .. | .markActive .. | .forward ..
  | .requeue .. => True
  | _ => False

/-- They leave all bodies as they are. -/
theorem Slot.body_shifts (h : op.Shifts) (k : Keys) (now : Int) (s : Slot) (y : String) :
    (op.run k now s).1.body y = s.body y := by
  refine run_invariant (I := fun t => t.body y = s.body y) (fun t u hm hbody => ?_) now rfl
  cases hm with
  | quiet ha => rw [ha.body, hbody]
  | enqueue _ ho | schedule _ _ ho | create _ _ ho => cases op <;> first | exact h.elim | cases ho
  | read | ack => exact hbody
  | mark | requeue | forward => simpa using hbody
  | _ => exact h.elim

/-- **The retry budget is exact.**  The task is enqueued once, with a budget of `max` retries, and
not re-run by hand.  What it has stored as used up is the number of its deliveries that have
ended in the retry set, and never more than `max`.  Fetching it, forwarding it and giving
it back leave the number alone.  It becomes a dead letter only by a delivery that ended in
`SkipRetry`, or by one that failed or was reclaimed after exactly `max` retries. -/
theorem retry_budget_exact (k : Keys) (q x : String) (max : Nat)
    {l : List Happening} {c : Deployment}
    (hr : ((budgeted k q x max).machine k).Run World.init l c) :
    (∀ b, (c.world.slot q).body x = some b → b.retried = retries q x l) ∧
      retries q x l ≤ max ∧
      (∀ op : Op, op.Shifts → ∀ now s y, (op.run k now s).1.body y = s.body y) ∧
      ∀ μ l', l = μ :: l' → DeadLetters q x l' μ → OutOfRetries q x max l' μ.who := by
  obtain ⟨hs, ⟨h, hdead⟩, -⟩ := Discipline.run_invariant (obeys_protocol (budgeted k q x max) k)
    (I := fun l t => Budget q x max l t ∧
      ∀ μ l', l = μ :: l' → DeadLetters q x l' μ → OutOfRetries q x max l' μ.who)
    ⟨Budget.init, fun _ _ h => nomatch h⟩
    (fun l w w' ps i p c r h hrec hp hc he => by
      obtain ⟨hb, hdead⟩ := h.1.call hrec hp hc he
      refine ⟨hb, ?_⟩
      rintro _ _ ⟨⟩
      exact hdead)
    (fun l w ps i p j h hp hf => ⟨h.1.fork k hp hf, h.2⟩)
    (fun l w ps j h hj => ⟨h.1.spawn (k := k) hj, h.2⟩)
    (fun l w w' ps h he => ⟨h.1.env he, h.2⟩) hr
  exact ⟨fun b hb => (h.charged.stored b hb).1, h.charged.le,
    fun op hop now s y => Slot.body_shifts hop k now s y, hdead⟩

/-- A task with one retry fails twice: it is archived, and its retry is counted. -/
theorem failed_twice_counted :
    ∃ (l : List Happening) (c : Deployment),
      ((budgeted sampleKeys "q" "x" 1).machine sampleKeys).Run World.init l c ∧
        "x" ∈ (c.world.slot "q").zset .archived ∧ retries "q" "x" l = 1 := by
  have hlets : (budgeted sampleKeys "q" "x" 1).Lets fun i op w => decide (w.Owns i op) &&
      !(op matches .runTask ..) && match op.admits (w.reply sampleKeys op) with
      | none => true
      | some msg => w.log.isEmpty && msg.retried == 0 && msg.maxRetry == 1 := by
    refine ⟨fun i op w h => ?_, fun _ _ _ => trivial⟩
    simp only [Bool.and_eq_true, decide_eq_true_eq] at h
    obtain ⟨⟨hown, hrun⟩, honce⟩ := h
    refine ⟨hown, fun msg ha _ _ => ?_, ?_⟩
    · rw [ha] at honce
      simp only [Bool.and_eq_true, beq_iff_eq, List.isEmpty_iff] at honce
      obtain ⟨⟨hlog, hretried⟩, hmax⟩ := honce
      refine ⟨?_, hretried, hmax⟩
      rintro ⟨m, hm, -⟩
      rw [hlog] at hm
      cases hm
    · rintro rfl
      cases hrun
  obtain ⟨c, hr, hw⟩ := (player_sound (k := sampleKeys) hlets).exists_reaches
    [.spawn (.send (.enqueue { sampleTask "x" with maxRetry := 1 })), Choice.go 0,
      .spawn (.fetch "q" "c" 1 0), Choice.go 1, Choice.go 1, Choice.go 1, Choice.go 1,
      .step 2 (.fail "bad" false), Choice.go 2, Choice.go 2, Choice.go 2,
      .spawn (.send (.forward "q" .retry 0 1)), Choice.go 3,
      .spawn (.fetch "q" "c" 1 0), Choice.go 4, Choice.go 4, Choice.go 4, Choice.go 4,
      .step 5 (.fail "bad" false), Choice.go 5, Choice.go 5]
    (And.intro (Traffic.enqueue _) (And.intro trivial (And.intro (Traffic.forwardRetry "q" 0 1)
      (And.intro trivial trivial))))
    World.init []
    (fun w => decide ("x" ∈ (w.slot "q").zset .archived ∧
      ((w.slot "q").body "x").map TaskMessage.retried = some 1)) (by decide +kernel)
  obtain ⟨harch, hretried⟩ := of_decide_eq_true hw
  obtain ⟨b, hb, hone⟩ := Option.map_eq_some_iff.mp hretried
  obtain ⟨l, hl⟩ := Machine.exists_run hr
  exact ⟨l, c, hl, harch, ((retry_budget_exact sampleKeys "q" "x" 1 hl).1 b hb).symm.trans hone⟩

end ChronosGo
