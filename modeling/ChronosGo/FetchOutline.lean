import ChronosGo.FetchLoop
import ChronosGo.ViewTriples

/-! # A proof outline of the fetch loop

What is proved of the fetch loop, about its slots as well as about the order of its
queries, is a condition for each place in its code, on a view of what the loop has seen,
and the fact that each instruction leads from the condition before it to the one after
it.  An `Outline` has the conditions and these facts.  The code itself is gone through
once, for every outline (`Outline.fetchLoop`).
-/
namespace ChronosGo.FetchLoop
open Interleaving

/-- The queues that a round asks: `st` is the state that the round began with, `st'` has
the paused queues that are known by then. -/
def roundOf (s : Server) (st st' : LoopState) : List String :=
  keptOrder st'.paused (s.nextOrder st.picker).1

/-- The conditions at the places of the loop, and the steps between them. -/
structure Outline {V : Type} (s : Server) (see : V → Event Instr Instr.Reply Goroutine → V) (v₀ : V)
    (A : V → Instr → Prop) (F : V → Goroutine → Prop) where
  /-- Between two rounds. -/
  Idle : LoopState → V → Prop
  /-- With the slot of a round. -/
  Begun : LoopState → V → Prop
  /-- With the slot of a round, and the paused queues known. -/
  Ready : LoopState → LoopState → V → Prop
  /-- Looking for a batch in the queues of `order`, of which `rest` are still to be asked. -/
  Asking (st : LoopState) (batch : Int) (order rest : List String) : V → Prop
  /-- With a slot that is not needed. -/
  Holding : LoopState → V → Prop
  /-- With a slot for the first of the tasks. -/
  Carries : LoopState → List Dequeued → V → Prop
  /-- Without a slot for the first of the tasks. -/
  Rest : LoopState → List Dequeued → V → Prop
  /-- Where no slot was free for the first of the tasks. -/
  Short : LoopState → List Dequeued → V → Prop
  ctxDone (st : LoopState) : Triple see v₀ A F (Idle st) (exec .ctxDone) fun _ => Idle st
  acquire (st : LoopState) : Triple see v₀ A F (Idle st) (exec .acquire)
    fun taken v => if taken then Begun st v else Idle st v
  refresh (st : LoopState) : Triple see v₀ A F (Begun st)
    (refreshPaused { st with picker := (s.nextOrder st.picker).2 }) fun st' => Ready st st'
  paused {st st' : LoopState} {v : V} : Ready st st' v → st'.paused ≠ [] → Holding st' v
  pauseWait (st : LoopState) : Triple see v₀ A F (Idle st) (exec .pauseWait) fun _ => Idle st
  semLen (st st' : LoopState) : Triple see v₀ A F (Ready st st') (exec .semLen)
    fun len => Asking st' (s.batchSize len) (roundOf s st st') (roundOf s st st')
  ask (st : LoopState) (batch : Int) (order rest : List String) (q : String) :
    Triple see v₀ A F (Asking st batch order (q :: rest)) (exec (.dequeueBatch (-1) q batch))
      fun r v => match r with
        | .noTask => Asking st batch order rest v
        | .failed => Asking st batch order rest v ∧ Holding st v
        | .tasks [] => Asking st batch order [] v
        | .tasks (t :: ts) => Carries st (t :: ts) v
  ctxErr {st : LoopState} {v : V} : Holding st v →
    A v .ctxErr ∧ ∀ r, see v (.call .ctxErr r) = v
  asked {st : LoopState} {batch : Int} {order : List String} {v : V} :
    Asking st batch order [] v → Holding st v
  await (st : LoopState) (batch : Int) (order : List String) : order.headD "" ≠ "" →
    Triple see v₀ A F (Asking st batch order [])
      (exec (.dequeueBatch pollBlock (order.headD "") batch)) fun r v => match r.claimed with
        | [] => Holding st v
        | t :: ts => Carries st (t :: ts) v
  release (st : LoopState) : Triple see v₀ A F (Holding st) (exec .release) fun _ => Idle st
  sleep (st : LoopState) : Triple see v₀ A F (Idle st) (exec .sleep) fun _ => Idle st
  start (st : LoopState) (dt : Dequeued) (ts : List Dequeued) :
    Triple see v₀ A F (Carries st (dt :: ts)) (Prog.go (.worker dt)) fun _ => Rest st ts
  slotFor (st : LoopState) (dt : Dequeued) (ts : List Dequeued) :
    Triple see v₀ A F (Rest st (dt :: ts)) (exec (.slotFor dt))
      fun taken v => if taken then Carries st (dt :: ts) v else Short st (dt :: ts) v
  waitSlotFor (st : LoopState) (dt : Dequeued) (ts : List Dequeued) :
    Triple see v₀ A F (Short st (dt :: ts)) (exec (.waitSlotFor dt))
      fun taken v => if taken then Carries st (dt :: ts) v else Short st (dt :: ts) v
  requeue (st : LoopState) (dt : Dequeued) (ts : List Dequeued) :
    Triple see v₀ A F (Short st (dt :: ts)) (exec (.requeue dt)) fun _ => Short st ts
  dispatched {st : LoopState} {v : V} : Rest st [] v → Idle st v
  requeued {st : LoopState} {v : V} : Short st [] v → Idle st v

namespace Outline
variable {V : Type} {s : Server} {see : V → Event Instr Instr.Reply Goroutine → V} {v₀ : V}
  {A : V → Instr → Prop} {F : V → Goroutine → Prop} (o : Outline s see v₀ A F) {st : LoopState}

/-- Release the slot, and return. -/
theorem release_return {α : Type} {a : α} {P : V → Prop} {Q : α → V → Prop}
    (hP : ∀ v, P v → o.Holding st v) (hQ : ∀ v, o.Idle st v → Q a v) :
    Triple see v₀ A F P (do exec .release; return a) Q :=
  .bind ((o.release st).mono hP fun _ _ h => h) fun _ => .pure hQ

/-- A look at the context changes nothing. -/
theorem keeps_ctxErr {P : V → Prop} (hP : ∀ v, P v → o.Holding st v) :
    Triple see v₀ A F P (exec .ctxErr) fun _ => P := by
  refine .cmd (fun v hv => (o.ctxErr (hP v hv)).1) fun v r hv => ?_
  rw [(o.ctxErr (hP v hv)).2]
  exact hv

/-- What the queries that do not block leave. -/
def Swept (st : LoopState) (batch : Int) (order : List String) : Found → V → Prop
  | .batch [], v => o.Asking st batch order [] v
  | .batch (t :: ts), v => o.Carries st (t :: ts) v
  | .again, v | .stop, v => o.Idle st v

theorem sweep (batch : Int) (order rest : List String) :
    Triple see v₀ A F (o.Asking st batch order rest) (FetchLoop.sweep batch rest)
      (o.Swept st batch order) := by
  induction rest with
  | nil => exact .pure fun _ hv => hv
  | cons q rest ih =>
    refine .bind (o.ask st batch order rest q) fun r => ?_
    match r with
    | .noTask => exact ih
    | .failed =>
      refine .bind (o.keeps_ctxErr fun _ hv => hv.2) fun err => .ite (fun _ => ?_) fun _ => ?_
      · exact o.release_return (fun _ hv => hv.2) fun _ hv => hv
      · exact ih.mono (fun _ hv => hv.1) fun _ _ h => h
    | .tasks [] => exact .pure fun _ hv => hv
    | .tasks (t :: ts) => exact .pure fun _ hv => hv

/-- What all queries leave. -/
def Leaves (st : LoopState) : Found → V → Prop
  | .batch [], v => o.Holding st v
  | .batch (t :: ts), v => o.Carries st (t :: ts) v
  | .again, v | .stop, v => o.Idle st v

theorem awaits (batch : Int) (order : List String) :
    Triple see v₀ A F (o.Asking st batch order []) (FetchLoop.await batch order) (o.Leaves st) := by
  refine .ite (fun _ => o.release_return (fun _ => o.asked) fun _ hv => hv) fun hhead => ?_
  refine .bind (o.await st batch order hhead) fun r => ?_
  match r with
  | .noTask => exact o.release_return (fun _ hv => hv) fun _ hv => hv
  | .failed =>
    refine .bind (o.keeps_ctxErr fun _ hv => hv) fun err => .ite (fun _ => ?_) fun _ => ?_
    · exact o.release_return (fun _ hv => hv) fun _ hv => hv
    · exact .bind (o.release st) fun _ => .bind (o.sleep st) fun _ => .pure fun _ hv => hv
  | .tasks [] => exact .pure fun _ hv => hv
  | .tasks (t :: ts) => exact .pure fun _ hv => hv

theorem query (batch : Int) (order : List String) :
    Triple see v₀ A F (o.Asking st batch order order) (FetchLoop.query batch order)
      (o.Leaves st) := by
  refine .bind (o.sweep batch order order) fun found => ?_
  rcases found with (_ | ⟨t, ts⟩) | _ | _
  · exact o.awaits batch order
  all_goals exact .pure fun _ hv => hv

theorem requeueRest (ts : List Dequeued) :
    Triple see v₀ A F (o.Short st ts) (FetchLoop.requeueRest ts) fun _ => o.Idle st := by
  induction ts with
  | nil => exact .pure fun _ => o.requeued
  | cons dt ts ih => exact .bind (o.requeue st dt ts) fun _ => ih

theorem dispatchRest (ts : List Dequeued) :
    Triple see v₀ A F (o.Rest st ts) (FetchLoop.dispatchRest ts) fun _ => o.Idle st := by
  induction ts with
  | nil => exact .pure fun _ => o.dispatched
  | cons dt ts ih =>
    refine .bind (o.slotFor st dt ts) fun taken => ?_
    cases taken with
    | true => exact .bind (o.start st dt ts) fun _ => ih
    | false =>
      refine .bind (o.waitSlotFor st dt ts) fun taken => ?_
      cases taken with
      | true => exact .bind (o.start st dt ts) fun _ => ih
      | false => exact .bind (o.requeueRest (dt :: ts)) fun _ => .pure fun _ hv => hv

/-- What a round leaves for the next one. -/
def Continues : Option LoopState → V → Prop
  | none, v => ∃ st, o.Idle st v
  | some st, v => o.Idle st v

theorem round : Triple see v₀ A F (o.Idle st) (FetchLoop.round s st) o.Continues := by
  have hstop : ∀ {st : LoopState} v, o.Idle st v → o.Continues none v := fun _ hv => ⟨_, hv⟩
  refine .bind (o.ctxDone st) fun done => .ite (fun _ => .pure hstop) fun _ => ?_
  refine .bind (o.acquire st) fun taken => ?_
  cases taken with
  | false => exact .pure hstop
  | true =>
    refine .bind (o.refresh st) fun st' => .ite (fun hall => ?_) fun _ => ?_
    · -- every queue is paused
      refine .bind ((o.release st').mono (fun _ hv => o.paused hv hall.1) fun _ _ h => h)
        fun _ => ?_
      exact .bind (o.pauseWait st') fun waited =>
        .ite (fun _ => .pure fun _ hv => hv) fun _ => .pure hstop
    · refine .bind (o.semLen st st') fun len => .bind (o.query _ _) fun found => ?_
      rcases found with (_ | ⟨dt, ts⟩) | _ | _
      · exact o.release_return (fun _ hv => hv) fun _ hv => hv
      · refine .bind (.bind (o.start st' dt ts) fun _ => o.dispatchRest ts) fun ok => ?_
        exact .ite (fun _ => .pure fun _ hv => hv) fun _ => .pure hstop
      · exact .pure fun _ hv => hv
      · exact .pure hstop

/-- **The loop follows every outline**, on every path of every round. -/
theorem fetchLoop (rounds : Nat) (st : LoopState) :
    Triple see v₀ A F (o.Idle st) (FetchLoop.fetchLoop s rounds st) fun _ v =>
      ∃ st, o.Idle st v := by
  induction rounds generalizing st with
  | zero => exact .pure fun _ hv => ⟨st, hv⟩
  | succ rounds ih =>
    refine .bind o.round fun next => ?_
    cases next with
    | none => exact .pure fun _ hv => hv
    | some st' => exact ih st'

end Outline

end ChronosGo.FetchLoop
