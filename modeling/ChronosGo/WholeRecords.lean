import ChronosGo.StrandedBody

/-! # Records without a body

A task is a hash with two fields, its message and its state.  Most requests write
both or delete the hash; `Requeue` and `RunTask` write the state after they have
checked that the hash exists, in the same script.  The second pipeline of a fetch
round and the forwarders write the state without looking.  If the task was deleted
in the meantime they leave a hash that has a state and no message (`state_outlives_task`),
and the scripts that create a task only if it is absent take it for the task.

These are the only two places: in runs in which they find the hash, every hash has
its message (`every_record_whole`).
-/
namespace ChronosGo
open Interleaving

namespace Slot

/-- Every task hash that exists has its message. -/
def Whole (s : Slot) : Prop := ∀ x, (s.task x).present = true → (s.body x).isSome

/-- The request writes the state of a task without looking only where there is a
hash. -/
def Guarded (s : Slot) : Op → Prop
  | .markActive _ id => (s.task id).present = true
  | .forward _ z now max => ∀ id ∈ (s.zset z).zrangebyscore now max, (s.task id).present = true
  | _ => True

section Whole
variable {s t : Slot} {id : String}

theorem Whole.of_task (h : s.Whole) (ht : t.task = s.task) : t.Whole := by
  intro x hx
  rw [ht] at hx
  rw [body, ht]
  exact h x hx

/-- A change to one hash, after which it has a message or is gone. -/
theorem Whole.update (h : s.Whole) {u : TaskHash} (ht : t.task = Function.update s.task id u)
    (hu : u.present = true → u.msg.isSome) : t.Whole := by
  intro x hx
  rw [body]
  rw [ht] at hx ⊢
  by_cases hid : x = id
  · subst hid
    rw [Function.update_self] at hx ⊢
    exact hu hx
  · rw [Function.update_of_ne hid] at hx ⊢
    exact h x hx

theorem Whole.put (h : s.Whole) {msg : TaskMessage} {st : TaskState}
    (ht : t.task = (s.put msg st).task) : t.Whole := h.update ht fun _ => rfl

theorem Whole.del (h : s.Whole) (ht : t.task = (s.del id).task) : t.Whole :=
  h.update ht fun hp => nomatch hp

/-- A state may be written where there is a hash. -/
theorem Whole.setState (h : s.Whole) {st : TaskState} (ht : t.task = (s.setState id st).task)
    (hp : (s.task id).present = true) : t.Whole := h.update ht fun _ => h id hp

theorem present_setState (s : Slot) (id x : String) (st : TaskState)
    (h : (s.task x).present = true) : ((s.setState id st).task x).present = true := by
  by_cases hid : x = id
  · subst hid
    simp [Slot.setState, TaskHash.present]
  · simpa [Slot.setState, Function.update_of_ne hid] using h

theorem Whole.forwardAll (h : s.Whole) (z : ZKey) {ids : List String}
    (hids : ∀ id ∈ ids, (s.task id).present = true) : (ids.foldl (forwardOne z) s).Whole := by
  induction ids generalizing s with
  | nil => exact h
  | cons a ids ih =>
    refine ih (h.setState rfl (hids a List.mem_cons_self)) fun id hid => ?_
    exact present_setState (s.append a) a id .pending (hids id (List.mem_cons_of_mem a hid))

end Whole

/-- One move of a request other than forwarding. -/
theorem whole_move {k : Keys} {op : Op} {s t : Slot} (hm : Move k op s t)
    (hop : ∀ q z now max, op ≠ .forward q z now max) (hg : s.Guarded op) (h : s.Whole) :
    t.Whole := by
  cases hm with
  | quiet ha => exact h.of_task ha.task
  | enqueue | schedule | move => exact h.put rfl
  | create _ score =>
    cases score with
    | none | some => exact h.put rfl
  | read | claim | ack | forget => exact h.of_task rfl
  | mark => exact h.setState rfl hg
  | requeue _ q sid id =>
    unfold requeue
    dsimp only
    split
    · rename_i hp
      have hs : (s.ack [sid]).Whole := h.of_task rfl
      exact hs.setState rfl hp
    · exact h.of_task rfl
  | ackDelete | trim | delete => exact h.del rfl
  | forward => exact absurd rfl (hop _ _ _ _)
  | run _ q id _ hp => exact h.setState rfl hp

theorem Guarded.agree {op : Op} {s t : Slot} (h : s.Guarded op) (ha : s.Agree t) :
    t.Guarded op := by
  unfold Guarded at h ⊢
  rw [ha.task, ha.zset]
  exact h

/-- **A guarded request leaves no hash without a message.** -/
theorem whole_run (k : Keys) (now : Int) {op : Op} {s : Slot} (hg : s.Guarded op) (h : s.Whole) :
    (op.run k now s).1.Whole := by
  by_cases hb : op.Batch
  · cases op with
    | forward q z at' max => exact h.forwardAll z hg
    | trim q z cutoff maxSize batch =>
      have hkeep : ∀ s t, Move k (.trim q z cutoff maxSize batch) s t → s.Whole → t.Whole :=
        fun s t hm hs => whole_move hm (fun _ _ _ _ ho => nomatch ho) trivial hs
      exact run_invariant hkeep now h
    | _ => exact hb.elim
  · obtain ⟨s₁, ha, ht | hm⟩ := run_once k now s hb
    · rw [ht]
      exact h.of_task ha.task
    · refine whole_move hm (fun q z at' max ho => ?_) (hg.agree ha) (h.of_task ha.task)
      subst ho
      exact hb trivial

end Slot

/-- All runs in which a state is written without looking only where there is a hash. -/
def guarded : Regime := { anyRun with allow := fun _ op w => (w.slot op.queue).Guarded op }

/-- **No record without a body.**  In every state of every run in which fetch rounds and
forwarders find the hashes they write to, every task hash that exists has its
message. -/
theorem every_record_whole (k : Keys) {c : Deployment}
    (hr : (guarded.machine k).Reaches World.init [] c) {q x : String}
    (hx : ((c.world.slot q).task x).present = true) : ((c.world.slot q).task x).msg.isSome := by
  obtain ⟨hs, hinv, -⟩ := Discipline.invariant (obeys_protocol guarded k)
    (I := fun t => ∀ q, (t.world.slot q).Whole) (fun _ _ hx => Bool.noConfusion hx)
    (fun s _ h ha => slots_act (I := fun _ u => u.Whole) ha h
      (fun _ _ _ _ _ hok => Slot.whole_run k s.world.now hok (h _)) (fun q _ _ => h q)) hr
  exact hinv q x hx

/-- A task that a fetch round has marked. -/
theorem marked_record_whole : ∃ c : Deployment,
    (guarded.machine sampleKeys).Reaches World.init [] c ∧
      ((c.world.slot "q").task "x").state = some .active ∧
      ((c.world.slot "q").task "x").msg.isSome := by
  have hlets : guarded.Lets fun _ op w => match op with
      | .enqueue _ | .xReadGroup .. | .getTask .. => true
      | .markActive q id => ((w.slot q).task id).present
      | _ => false := by
    refine ⟨fun i op w h => ?_, fun _ _ _ => trivial⟩
    cases op with
    | markActive q id => exact h
    | enqueue | xReadGroup | getTask => trivial
    | _ => cases h
  obtain ⟨c, hr, hw⟩ := (player_sound (k := sampleKeys) hlets).exists_reaches
    [.spawn (.send (.enqueue (sampleTask "x"))), Choice.go 0,
      .spawn (.fetch "q" "c" 1 0), Choice.go 1, Choice.go 1, Choice.go 1]
    ⟨Traffic.enqueue _, trivial, trivial⟩ World.init []
    (fun w => decide (((w.slot "q").task "x").state = some .active ∧
      ((w.slot "q").task "x").present = true)) (by decide +kernel)
  obtain ⟨hst, hp⟩ := of_decide_eq_true hw
  exact ⟨c, hr, hst, every_record_whole sampleKeys hr hp⟩

/-- A fetch round has read the body of a task; the task is deleted; the fetch round
marks it active. -/
theorem state_outlives_task : ∃ c : Deployment,
    (anyRun.machine sampleKeys).Reaches World.init [] c ∧
      (c.world.slot "q").task "x" = ⟨none, some .active⟩ := by
  have hlets : anyRun.Lets fun _ _ _ => true := ⟨fun _ _ _ _ => trivial, fun _ _ _ => trivial⟩
  obtain ⟨c, hr, hw⟩ := (player_sound (k := sampleKeys) hlets).exists_reaches
    [.spawn (.send (.enqueue (sampleTask "x"))), Choice.go 0,
      .spawn (.fetch "q" "c" 1 0), Choice.go 1, Choice.go 1,
      .spawn (.deleteTask "q" "x"), Choice.go 2, Choice.go 2, Choice.go 1]
    ⟨Traffic.enqueue _, trivial, trivial, trivial⟩
    World.init []
    (fun w => decide ((w.slot "q").task "x" = ⟨none, some .active⟩)) (by decide +kernel)
  exact ⟨c, hr, of_decide_eq_true hw⟩

end ChronosGo
