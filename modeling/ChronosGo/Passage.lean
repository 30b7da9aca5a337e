import ChronosGo.Exclusive

/-! # The passage of a task through its queue

A task that is created waits in the stream or in the set of scheduled tasks, with
the message it was created with, until it is acknowledged; then it is gone, or kept
among the completed ones.  This module says what the requests of a run without
failures do to it on its way: all but its own leave it alone (`Slot.same_run`), and
those on its way leave it waiting (`Slot.Waits`) or settle it (`Slot.Settled`).
-/
namespace ChronosGo
open Redis

/-- The task whose keys a request may change. -/
def Op.subject : Op → Option String
  | markActive _ id | requeue _ _ id | ackDelete _ _ id | runTask _ id | deleteTask _ id => some id
  | op => op.target

namespace Slot
variable {k : Keys} {op : Op} {s t : Slot} {x : String} {m : TaskMessage}

/-- One move leaves other tasks alone. -/
theorem same_move (hr : s.Ready op) (hm : Move k op s t) (hb : ¬ op.Batch)
    (hx : op.subject ≠ some x) : s.Same x t := by
  have hne : ∀ id, op.subject = some id → x ≠ id := fun _ h he => hx (he ▸ h)
  cases hm with
  | quiet ha => exact ha.same
  | @enqueue _ msg _ ho => cases ho <;> exact only_enqueue s _ x (hne _ rfl)
  | @schedule _ msg _ at' ho => cases ho <;> exact only_schedule s _ at' x (hne _ rfl)
  | @create _ msg _ score ho hp => cases ho <;> exact only_placeCallback s _ score x (hne _ rfl)
  | read | claim =>
    refine ⟨rfl, fun p => ?_⟩
    cases p <;> rfl
  | ack _ q sids =>
    refine ⟨rfl, fun p => ?_⟩
    rw [at_ack]
    refine and_iff_left_of_imp fun hp n hn hpn => ?_
    subst hpn
    exact hr n hn x hp
  | mark _ q id => exact only_setState s id _ x (hne _ rfl)
  | requeue _ q sid id => exact only_requeue hr x (hne _ rfl)
  | ackDelete _ q sid id => exact only_ackDelete hr x (hne _ rfl)
  | move _ q sid msg z score => exact only_moveToZSet hr x (hne _ rfl)
  | forward | trim => exact absurd trivial hb
  | run _ q id => exact only_run s id x (hne _ rfl)
  | forget _ q id => exact only_zremAll s id x (hne _ rfl)
  | delete _ q id => exact only_deleteTask s id x (hne _ rfl)

/-- **A request leaves other tasks alone**, unless it is made to move many. -/
theorem same_run (now : Int) (hr : s.Ready op) (hb : ¬ op.Batch) (hx : op.subject ≠ some x) :
    s.Same x (op.run k now s).1 := by
  obtain ⟨s₁, ha, ht | hm⟩ := run_once k now s hb
  · rw [ht]
    exact ha.same
  · have h₁ : s.Same x s₁ := ha.same
    have h₂ := same_move (hr.agree ha) hm hb hx
    exact ⟨h₂.task.trans h₁.task, fun p => (h₂.at_iff p).trans (h₁.at_iff p)⟩

end Slot

/-! ## Waiting tasks -/

/-- The places of a task that has not been acknowledged. -/
def Place.Waiting : Place → Prop
  | entry _ => True
  | set z => z = .scheduled

namespace Slot

/-- The task waits, with this message. -/
structure Waits (s : Slot) (m : TaskMessage) : Prop where
  place : ∃ p : Place, p.Waiting ∧ s.Sits m.id p
  body : ∃ st, s.body m.id = some { m with state := st }

/-- The task is gone, or kept among the completed ones. -/
def Settled (s : Slot) (x : String) : Prop := s.Absent x ∨ s.Sits x (.set .completed)

variable {k : Keys} {op : Op} {s t : Slot} {x : String} {m : TaskMessage} {sid : Nat}
variable {q : String} {z : ZKey} {now' : Int} {max : Nat}

theorem Same.body (h : s.Same x t) : t.body x = s.body x := by
  unfold Slot.body
  rw [h.task]

theorem Same.absent (h : s.Same x t) (ha : s.Absent x) : t.Absent x :=
  ⟨h.task.trans ha.task, fun p hp => ha.nowhere p ((h.at_iff p).mp hp)⟩

theorem Same.sits (h : s.Same x t) {p : Place} (hs : s.Sits x p) : t.Sits x p := by
  refine ⟨?_, fun p' => (h.at_iff p').trans (hs.at_iff p'), ?_⟩
  · rw [h.body]
    exact hs.body
  · rw [h.task]
    exact hs.shows

theorem Same.waits (h : s.Same m.id t) (hw : s.Waits m) : t.Waits m := by
  obtain ⟨⟨p, hp, hs⟩, st, hb⟩ := hw
  exact ⟨⟨p, hp, h.sits hs⟩, st, h.body.trans hb⟩

theorem Same.settled (h : s.Same x t) (hs : s.Settled x) : t.Settled x :=
  hs.imp h.absent h.sits

theorem Waits.sits (h : s.Waits m) (hsid : (sid, m.id) ∈ s.stream.entries) :
    s.Sits m.id (.entry sid) := by
  obtain ⟨⟨p, -, hs⟩, -⟩ := h
  obtain rfl := (hs.at_iff (.entry sid)).mp hsid
  exact hs

theorem Waits.not_settled (h : s.Waits m) (hs : s.Settled m.id) : False := by
  obtain ⟨⟨p, hp, hsit⟩, -⟩ := h
  rcases hs with ha | hs
  · exact ha.nowhere p ((hsit.at_iff p).mpr rfl)
  · obtain rfl := (hsit.at_iff (.set .completed)).mp ((hs.at_iff _).mpr rfl)
    cases hp

theorem Waits.setState (h : s.Waits m) (hsid : (sid, m.id) ∈ s.stream.entries) :
    (s.setState m.id .active).Waits m := by
  obtain ⟨st, hb⟩ := h.body
  exact ⟨⟨.entry _, trivial, (h.sits hsid).setState⟩, st, by simpa using hb⟩

theorem Waits.requeue (h : s.Waits m) (hsid : (sid, m.id) ∈ s.stream.entries) :
    (s.requeue sid m.id).Waits m := by
  obtain ⟨st, hb⟩ := h.body
  exact ⟨⟨.entry _, trivial, (h.sits hsid).requeue⟩, st, by simpa using hb⟩

theorem Absent.waits_enqueue (h : s.Absent m.id) : (s.enqueue m).Waits m :=
  ⟨⟨.entry _, trivial, h.enqueue⟩, .pending, by simp⟩

theorem Absent.waits_schedule (h : s.Absent m.id) (score : Int) : (s.schedule m score).Waits m :=
  ⟨⟨.set .scheduled, rfl, h.schedule⟩, .scheduled, by simp⟩

theorem Absent.waits_placeCallback (h : s.Absent m.id) (st : TaskState) (score : Option Int) :
    (s.placeCallback { m with state := st } score).Waits m := by
  have habs : s.Absent ({ m with state := st } : TaskMessage).id := h
  refine ⟨⟨s.newPlace score, ?_, habs.placeCallback score⟩, st, by simp⟩
  cases score with
  | none => trivial
  | some => rfl

theorem Absent.not_present (h : s.Absent x) : (s.task x).present = false := by
  rw [h.task]
  rfl

/-- A successor that does not exist is created. -/
theorem Absent.chainEnqueue (h : s.Absent m.id) :
    s.chainEnqueue m = (s.placeCallback { m with state := .pending } none, true) := by
  unfold Slot.chainEnqueue
  rw [h.not_present]
  rfl

theorem Absent.chainSchedule (h : s.Absent m.id) (score : Int) :
    s.chainSchedule m score = (s.placeCallback { m with state := .scheduled }
      (some score), true) := by
  unfold Slot.chainSchedule
  rw [h.not_present]
  rfl

theorem Absent.waits_link (h : s.Absent m.id) {delay : Int} (ho : LinkOp m delay op) (now : Int) :
    (op.run k now s).1.Waits m := by
  cases ho with
  | enqueue =>
    change (s.chainEnqueue m).1.Waits m
    rw [h.chainEnqueue]
    exact h.waits_placeCallback .pending none
  | schedule t =>
    change (s.chainSchedule m _).1.Waits m
    rw [h.chainSchedule]
    exact h.waits_placeCallback .scheduled (some _)

/-- What forwarding does to a task that waits or has settled. -/
theorem waits_forward (now : Int) (h : s.Waits m) :
    ((Op.forward q z now' max).run k now s).1.Waits m := by
  refine run_invariant (I := fun u => u.Waits m) (fun u v hm hw => ?_) now h
  cases hm with
  | quiet ha => exact ha.same.waits hw
  | forward _ _ _ _ _ id hz =>
    by_cases hid : m.id = id
    · subst hid
      obtain ⟨⟨p, -, hs⟩, st, hb⟩ := hw
      obtain rfl := (hs.at_iff (.set z)).mp hz
      exact ⟨⟨.entry _, trivial, hs.forwardOne⟩, st, by simpa using hb⟩
    · exact (only_forwardOne u z id m.id hid).waits hw
  | enqueue _ ho | schedule _ _ ho | create _ _ ho => cases ho

theorem settled_forward (now : Int) (hz : z ≠ .completed) (h : s.Settled x) :
    ((Op.forward q z now' max).run k now s).1.Settled x := by
  refine run_invariant (I := fun u => u.Settled x) (fun u v hm hw => ?_) now h
  cases hm with
  | quiet ha => exact ha.same.settled hw
  | forward _ _ _ _ _ id hid =>
    have hne : x ≠ id := by
      rintro rfl
      rcases hw with ha | hs
      · exact ha.nowhere (.set z) hid
      · cases (hs.at_iff (.set z)).mp hid
        exact hz rfl
    exact (only_forwardOne u z id x hne).settled hw
  | enqueue _ ho | schedule _ _ ho | create _ _ ho => cases ho

theorem absent_forward (now : Int) (h : s.Absent x) :
    ((Op.forward q z now' max).run k now s).1.Absent x := by
  refine run_invariant (I := fun u => u.Absent x) (fun u v hm hw => ?_) now h
  cases hm with
  | quiet ha => exact ha.same.absent hw
  | forward _ _ _ _ _ id hid =>
    have hne : x ≠ id := by
      rintro rfl
      exact hw.nowhere (.set z) hid
    exact (only_forwardOne u z id x hne).absent hw
  | enqueue _ ho | schedule _ _ ho | create _ _ ho => cases ho

/-- A report changes nothing about tasks, or it creates the callback. -/
theorem groupComplete_cases (s : Slot) (r : Report) (now : Int) :
    s.Agree (s.groupComplete r now).1 ∧ (s.groupComplete r now).2 = false ∨
      (s.groupComplete r now).2 = true ∧ (s.task r.callback.id).present = false ∧
        (s.groupComplete r now).1 = (s.dropGroup r.groupID).placeCallback
          (withResults r.callback (s.reportedFields r) r.size) r.score := by
  unfold groupComplete
  split
  · exact Or.inl ⟨.refl s, rfl⟩
  · dsimp only
    split
    · exact Or.inl ⟨⟨rfl, rfl, rfl⟩, rfl⟩
    · split
      · exact Or.inl ⟨⟨rfl, rfl, rfl⟩, rfl⟩
      · rename_i hp
        exact Or.inr ⟨rfl, Bool.eq_false_iff.mpr hp, rfl⟩

/-! ## Delivery -/

theorem lastDelivered_run (k : Keys) (now : Int) (s : Slot) (op : Op) :
    s.stream.lastDelivered ≤ (op.run k now s).1.stream.lastDelivered := by
  refine run_invariant (I := fun u => s.stream.lastDelivered ≤ u.stream.lastDelivered)
    (fun u v hm h => ?_) now (Nat.le_refl _)
  cases hm with
  | quiet ha =>
    rw [ha.stream]
    exact h
  | read _ q consumer count now => exact Nat.le_trans h (u.stream.nextDelivered_bounds count).1
  | create _ score => cases score <;> exact h
  | requeue =>
    unfold Slot.requeue
    dsimp only
    split <;> exact h
  | _ => exact h

end Slot
end ChronosGo
