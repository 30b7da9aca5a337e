import ChronosGo.Erasure
import ChronosGo.Exclusive
import Mathlib.Data.Finset.Insert

/-! # How a queue comes into being

Two things are done for a queue that the other modules leave out.  Before a request makes
a task available, its queue is entered in the index of all queues (`registerQueue`); that
is a command of its own, which each process skips for names that it remembers.  And the
consumer group of a stream is created when a server starts (`EnsureGroup`), which may be
after tasks were enqueued.  Here the routines do both, and what they do to the store is
still what the other modules say (`setup_refines_store`).
-/
namespace ChronosGo.Setup
open Interleaving

/-! ## The routines -/

/-- The name that a function registers before it sends a request. -/
def indexed : Op → Option String
  | .enqueue msg | .schedule msg _ | .enqueueUnique msg _ | .scheduleUnique msg _ _
  | .enqueuePeriodic msg _ _ | .chainEnqueue msg | .chainSchedule msg _ => some msg.queue
  | .groupComplete _ r => some r.callback.queue
  | .createGroup .. | .createGroupIfAbsent .. | .groupMembers .. | .taskState .. | .getTask ..
  | .xReadGroup .. | .xAutoClaim .. | .ackOrphans .. | .markActive .. | .requeue ..
  | .ackDelete .. | .moveToZSet .. | .releaseUnique .. | .forward .. | .trim .. | .runTask ..
  | .deleteTask .. => none

/-- What a goroutine of a client or of a server does, besides computing. -/
inductive Instr where
  /-- A command of the routines. -/
  | store (c : Cmd)
  /-- `knownQueues.Load`, of one `RDB`. -/
  | load (rdb : Nat) (q : String)
  /-- `SADD` to the index. -/
  | sAdd (q : String)
  /-- `knownQueues.Store`. -/
  | remember (rdb : Nat) (q : String)
  /-- The queue could not be registered: the request is not sent. -/
  | giveUp (op : Op)
  /-- `XGROUP CREATE key group 0 MKSTREAM`, where an existing group is no error. -/
  | ensureGroup (q : String)

/-- Answers; `false` from Redis is an error. -/
@[reducible] def Instr.Reply : Instr → Type
  | store c => c.Reply
  | load .. | sAdd _ | ensureGroup _ => Bool
  | remember .. | giveUp _ => Unit

inductive Job where
  /-- A routine of a process, with the process's `RDB`. -/
  | routine (rdb : Nat) (j : ChronosGo.Job)
  /-- The beginning of `Start`. -/
  | start (queues : List String)

abbrev Thread (α : Type) : Type := Prog Instr Instr.Reply Job α

abbrev exec (c : Instr) : Thread c.Reply := Prog.cmd c

/-- `registerQueue`. -/
def registerQueue (rdb : Nat) (q : String) : Thread Bool := do
  if ← exec (.load rdb q) then return true
  else if ← exec (.sAdd q) then do
    exec (.remember rdb q)
    return true
  else return false

/-- A request whose queue was registered, or could not be. -/
def finish (registered : Bool) (op : Op) : Thread (Option op.Reply) :=
  if registered then exec (.store (.redis op))
  else do
    exec (.giveUp op)
    return none

/-- A request, with what its function does before it. -/
def send (rdb : Nat) (op : Op) : Thread (Option op.Reply) :=
  match indexed op with
  | some q => do finish (← registerQueue rdb q) op
  | none => exec (.store (.redis op))

/-- The name that `EnqueueChainLink` and `CompleteGroupMember` register before they read the
clock for their request, which comes next. -/
def ahead {α : Type} : Routine α → Option String
  | .call (.redis (.chainSchedule msg _)) _ => some msg.queue
  | .call (.redis (.groupComplete _ r)) _ => some r.callback.queue
  | _ => none

/-- A routine of the other modules, in full.  The name that was registered ahead of the
clock is kept, with the outcome; if it could not be, the source does not read the clock,
which makes no difference. -/
def run {α : Type} (rdb : Nat) : Option (String × Bool) → Routine α → Thread α
  | _, .pure a => .pure a
  | _, .fork j p => .fork (.routine rdb j) (run rdb none p)
  | _, .call .now k =>
    match ahead (k 0) with
    | some q => registerQueue rdb q >>= fun ok =>
      .call (.store .now) fun now => run rdb (some (q, ok)) (k now)
    | none => .call (.store .now) fun now => run rdb none (k now)
  | early, .call (.redis op) k =>
    (match early with
      | some (q, ok) => if indexed op = some q then finish ok op else send rdb op
      | none => send rdb op) >>= fun r => run rdb none (k r)
  | _, .call c k => .call (.store c) fun r => run rdb none (k r)

/-- Where `EnqueueChainLink` registers its queue. -/
example (rdb : Nat) (msg : TaskMessage) {delay : Int} (h : 0 < delay) :
    run rdb none (enqueueChainLink msg delay) = (do
      let ok ← registerQueue rdb msg.queue
      let now ← exec (.store .now)
      finish ok (.chainSchedule msg (unix (now + delay) * second))) := by
  have hfinish : ∀ (ok : Bool) (op : Op), (finish ok op >>= fun r => .pure r) = finish ok op := by
    intro ok op
    cases ok <;> rfl
  unfold enqueueChainLink
  rw [if_pos h]
  simp [timeNow, redis, Prog.cmd, run, ahead, indexed, hfinish]

/-- The loop of `Start` over the queues of the server. -/
def ensureGroups : List String → Thread Unit
  | [] => return ()
  | q :: qs => do
    if ← exec (.ensureGroup q) then ensureGroups qs
    else return ()

def Job.code : Job → Thread Unit
  | .routine rdb j => run rdb none j.start
  | .start queues => ensureGroups queues

/-! ## The machine -/

/-- `XGROUP CREATE key group 0`: nothing is delivered, nothing is pending. -/
def xgroupCreate (s : Redis.Stream String String) : Redis.Stream String String :=
  { s with
    lastDelivered := 0
    pel := []
    pel_sorted := .nil
    pel_le := by simp
    delivered_le := Nat.zero_le _ }

/-- The store, with the index, what each `RDB` remembers, and which streams have their
group. -/
structure World where
  base : ChronosGo.World := .init
  index : Finset String := ∅
  known : Nat → Finset String := fun _ => ∅
  group : String → Bool := fun _ => false

namespace World

def ensureGroup (w : World) (q : String) : World :=
  if w.group q then w
  else
    { w with
      base := { w.base with
        slot := Function.update w.base.slot q
          { w.base.slot q with stream := xgroupCreate (w.base.slot q).stream } }
      group := Function.update w.group q true }

end World

/-- The requests that fail without a group. -/
def readsGroup : Op → Bool
  | .xReadGroup .. | .xAutoClaim .. => true
  | _ => false

/-- An answer of Redis to a command: it was carried out, or there was an error, before or
after. -/
def Answered (faults : Prop) (w after : World) (ok : Bool) (w' : World) : Prop :=
  w' = after ∧ (ok = true ∨ faults) ∨ faults ∧ ok = false ∧ w' = w

/-- What a command of the routines may answer, and do. -/
def ExecStore (g : Regime) (k : Keys) (i : Nat) (w : World) : (c : Cmd) → c.Reply → World → Prop
  | .redis op, r, w' =>
    if readsGroup op = true ∧ w.group op.queue = false then r = none ∧ w' = w
    else ∃ b, g.exec k i (.redis op) w.base r b ∧ w' = { w with base := b }
  | .now, r, w' => ∃ b, g.exec k i .now w.base r b ∧ w' = { w with base := b }
  | .retryDelay n err, r, w' =>
    ∃ b, g.exec k i (.retryDelay n err) w.base r b ∧ w' = { w with base := b }
  | .ctxDone, r, w' => ∃ b, g.exec k i .ctxDone w.base r b ∧ w' = { w with base := b }
  | .handle msg, r, w' => ∃ b, g.exec k i (.handle msg) w.base r b ∧ w' = { w with base := b }

def Exec (g : Regime) (k : Keys) (i : Nat) (w : World) : (c : Instr) → c.Reply → World → Prop
  | .store c, r, w' => ExecStore g k i w c r w'
  | .load rdb q, known, w' => known = decide (q ∈ w.known rdb) ∧ w' = w
  | .sAdd q, ok, w' => Answered g.faults w { w with index := insert q w.index } ok w'
  | .remember rdb q, _, w' =>
    w' = { w with known := Function.update w.known rdb (insert q (w.known rdb)) }
  | .giveUp _, _, w' => w' = w
  | .ensureGroup q, ok, w' => Answered g.faults w (w.ensureGroup q) ok w'

def World.give (w : World) (i n : Nat) : Job → World
  | .routine _ j => { w with base := w.base.give i n j }
  | .start _ => w

/-- The runs of a regime, with servers that start at any time. -/
def machine (g : Regime) (k : Keys) : Machine Instr Instr.Reply Job World where
  start := Job.code
  spawn := fun j => ∀ rdb j₀, j = .routine rdb j₀ → g.spawn j₀
  exec := fun i c w r w' => Exec g k i w c r w'
  give := fun i n j w => w.give i n j
  env := fun w w' => ∃ t, w.base.now ≤ t ∧ g.tick w.base t ∧ w' = { w with base := w.base.tick t }
  crash := g.crash

/-! ## Refinement -/

/-- What an answer means for the routine: a failure to register is one of the request. -/
def counts : (c : Instr) → c.Reply → Option (Sigma Cmd.Reply)
  | .store c, r => some ⟨c, r⟩
  | .giveUp op, _ => some ⟨.redis op, none⟩
  | .sAdd _, _ | .load .., _ | .remember .., _ | .ensureGroup _, _ => none

/-- The routine of a job; the beginning of `Start` sends no request of the routines. -/
def Job.routineOf : Job → ChronosGo.Job
  | .routine _ j => j
  | .start _ => .sendAll []

def erasure : Erasure Cmd Cmd.Reply ChronosGo.Job Instr Instr.Reply Job where
  event := counts
  job := Job.routineOf

section Programs
variable {α : Type} {rdb : Nat}

theorem refines_store {c : Cmd} {k : c.Reply → Thread α} {k₀ : c.Reply → Routine α}
    (hk : ∀ r, erasure.Refines (k r) (k₀ r)) :
    erasure.Refines (.call (.store c) k) (.call c k₀) :=
  Erasure.refines_call (e := erasure) (c := .store c) (fun _ => rfl) hk

/-- To register a queue is silent. -/
theorem refines_registerQueue {q : String} {k : Bool → Thread α} {p : Routine α}
    (hk : ∀ ok, erasure.Refines (k ok) p) : erasure.Refines (registerQueue rdb q >>= k) p := by
  refine Erasure.refines_silent (c := Instr.load rdb q) (fun _ => rfl) fun known => ?_
  cases known with
  | true => exact hk true
  | false =>
    refine Erasure.refines_silent (c := Instr.sAdd q) (fun _ => rfl) fun ok => ?_
    cases ok with
    | true =>
      exact Erasure.refines_silent (c := Instr.remember rdb q) (fun _ => rfl) fun _ => hk true
    | false => exact hk false

variable {op : Op} {k : Option op.Reply → Thread α} {k₀ : Option op.Reply → Routine α}

theorem refines_finish (ok : Bool) (hk : ∀ r, erasure.Refines (k r) (k₀ r)) :
    erasure.Refines (finish ok op >>= k) (.call (.redis op) k₀) := by
  cases ok with
  | true => exact refines_store hk
  | false =>
    refine fun _ => ⟨fun h => absurd h (Option.some_ne_none _), fun x hx => ?_⟩
    obtain rfl := Option.some.inj hx
    exact ⟨k₀, rfl, hk none⟩

theorem refines_send (hk : ∀ r, erasure.Refines (k r) (k₀ r)) :
    erasure.Refines (send rdb op >>= k) (.call (.redis op) k₀) := by
  unfold send
  split
  · rw [Prog.bind_assoc]
    exact refines_registerQueue fun ok => refines_finish ok hk
  · exact refines_store hk

theorem refines_run (early : Option (String × Bool)) (p : Routine α) :
    erasure.Refines (run rdb early p) p := by
  induction p generalizing early with
  | pure a => rfl
  | fork j p ih => exact ⟨p, rfl, ih none⟩
  | call c k ih =>
    cases c with
    | now =>
      unfold run
      split
      · exact refines_registerQueue fun ok => refines_store fun now => ih now _
      · exact refines_store fun now => ih now none
    | redis op =>
      unfold run
      split
      · split
        · exact refines_finish _ fun r => ih r none
        · exact refines_send fun r => ih r none
      · exact refines_send fun r => ih r none
    | retryDelay | ctxDone | handle => exact refines_store fun r => ih r none

theorem refines_ensureGroups (qs : List String) :
    erasure.Refines (ensureGroups qs) (.pure ()) := by
  induction qs with
  | nil => rfl
  | cons q qs ih =>
    refine Erasure.refines_silent (c := Instr.ensureGroup q) (fun _ => rfl) fun ok => ?_
    cases ok with
    | true => exact ih
    | false => rfl

theorem refines_code (j : Job) : erasure.Refines j.code (erasure.job j).start := by
  cases j with
  | routine rdb j => exact refines_run none j.start
  | start queues => exact refines_ensureGroups queues

end Programs

/-! A stream without its group is as a group at the beginning would have left it. -/

/-- Nothing was delivered. -/
def Fresh (s : Redis.Stream String String) : Prop := s.lastDelivered = 0 ∧ s.pel = []

theorem xgroupCreate_of_fresh {s : Redis.Stream String String} (h : Fresh s) :
    xgroupCreate s = s := by
  obtain ⟨entries, lastId, lastDelivered, pel, _, _, _, _, _⟩ := s
  obtain ⟨rfl, rfl⟩ := h
  rfl

theorem fresh_move {k : Keys} {op : Op} {s t : Slot} (hm : Move k op s t)
    (hop : readsGroup op = false)
    (h : Fresh s.stream) : Fresh t.stream := by
  have hack : ∀ sids, Fresh ((s.stream.xack sids).xdel sids) := by
    intro sids
    refine ⟨h.1, ?_⟩
    change s.stream.pel.filter _ = []
    rw [h.2]
    rfl
  cases hm with
  | quiet h' =>
    rw [h'.stream]
    exact h
  | create s score =>
    cases score with
    | none => exact h
    | some => exact h
  | read | claim => cases hop
  | ack | ackDelete | move => exact hack _
  | requeue _ _ sid =>
    simp only [Slot.requeue]
    split
    · exact ⟨(hack [sid]).1, (hack [sid]).2⟩
    · exact hack [sid]
  | _ => exact h

/-- Streams without a group have delivered nothing. -/
def Awaiting (w : World) : Prop := ∀ q, w.group q = false → Fresh (w.base.slot q).stream

section Machine
variable {g : Regime} {k : Keys} {i : Nat} {w w' : World}

theorem base_ensureGroup (hw : Awaiting w) (q : String) : (w.ensureGroup q).base = w.base := by
  unfold World.ensureGroup
  split
  · rfl
  · rename_i hq
    have hslot : Function.update w.base.slot q
        { w.base.slot q with stream := xgroupCreate (w.base.slot q).stream } = w.base.slot := by
      rw [xgroupCreate_of_fresh (hw q (Bool.eq_false_iff.mpr hq))]
      exact Function.update_eq_self q w.base.slot
    exact congrArg (fun slot => { w.base with slot := slot }) hslot

/-- A command of the routines leaves the index and the groups alone, and is one of the
machine of the regime. -/
theorem exec_store (hf : g.faults) {c : Cmd} {r : c.Reply} (he : ExecStore g k i w c r w') :
    g.exec k i c w.base r w'.base ∧ w' = { w with base := w'.base } := by
  cases c with
  | redis op =>
    simp only [ExecStore] at he
    split at he
    · obtain ⟨rfl, rfl⟩ := he
      exact ⟨Or.inr ⟨hf, rfl, rfl⟩, rfl⟩
    · obtain ⟨b, he, rfl⟩ := he
      exact ⟨he, rfl⟩
  | now | retryDelay | ctxDone | handle =>
    obtain ⟨b, he, rfl⟩ := he
    exact ⟨he, rfl⟩

theorem awaiting_perform {b : ChronosGo.World} {op : Op} {q : String}
    (hop : q = op.queue → readsGroup op = false) (h : Fresh (b.slot q).stream) :
    Fresh ((b.perform k i op).slot q).stream := by
  by_cases hq : q = op.queue
  · subst hq
    rw [World.slot_perform_self]
    exact run_invariant (I := fun t => Fresh t.stream) (fun _ _ hm => fresh_move hm (hop rfl)) _ h
  · rw [World.slot_perform_ne hq]
    exact h

theorem awaiting_store {c : Cmd} {r : c.Reply} (hw : Awaiting w) (he : ExecStore g k i w c r w') :
    Awaiting w' := by
  cases c with
  | redis op =>
    simp only [ExecStore] at he
    split at he
    · obtain ⟨-, rfl⟩ := he
      exact hw
    · rename_i hop
      obtain ⟨b, he, rfl⟩ := he
      intro q hq
      rcases Regime.exec_cases he with rfl | ⟨_, _, hc, -⟩ | ⟨_, hc, -, rfl⟩
      · exact hw q hq
      · cases hc
      · obtain rfl := Cmd.redis.inj hc
        refine awaiting_perform (fun hqueue => ?_) (hw q hq)
        subst hqueue
        exact Bool.eq_false_iff.mpr fun hread => hop ⟨hread, hq⟩
  | now | retryDelay | ctxDone | handle =>
    obtain ⟨b, he, rfl⟩ := he
    intro q hq
    rcases Regime.exec_cases he with rfl | ⟨_, _, -, -, rfl⟩ | ⟨_, hc, -⟩
    · exact hw q hq
    · exact hw q hq
    · cases hc

theorem awaiting_ensureGroup (hw : Awaiting w) (q : String) : Awaiting (w.ensureGroup q) := by
  intro q' hq'
  rw [base_ensureGroup hw]
  refine hw q' ?_
  unfold World.ensureGroup at hq'
  split at hq'
  · exact hq'
  · by_cases hqq : q' = q
    · subst hqq
      change Function.update w.group q' true q' = false at hq'
      rw [Function.update_self] at hq'
      cases hq'
    · change Function.update w.group q true q' = false at hq'
      rwa [Function.update_of_ne hqq] at hq'

theorem awaiting_exec {c : Instr} {r : c.Reply} (hw : Awaiting w) (he : Exec g k i w c r w') :
    Awaiting w' := by
  cases c with
  | store c => exact awaiting_store hw he
  | load =>
    obtain ⟨-, rfl⟩ := he
    exact hw
  | sAdd =>
    obtain ⟨rfl, -⟩ | ⟨-, -, rfl⟩ := he
    · exact hw
    · exact hw
  | remember | giveUp =>
    obtain rfl := he
    exact hw
  | ensureGroup q =>
    obtain ⟨rfl, -⟩ | ⟨-, -, rfl⟩ := he
    · exact awaiting_ensureGroup hw q
    · exact hw

/-- What is not a command of the routines does nothing to the store. -/
theorem base_silent {c : Instr} {r : c.Reply} (hw : Awaiting w) (he : Exec g k i w c r w')
    (hr : counts c r = none) : w'.base = w.base := by
  cases c with
  | store | giveUp => cases hr
  | load =>
    obtain ⟨-, rfl⟩ := he
    rfl
  | sAdd =>
    obtain ⟨rfl, -⟩ | ⟨-, -, rfl⟩ := he
    · rfl
    · rfl
  | remember =>
    obtain rfl := he
    rfl
  | ensureGroup q =>
    obtain ⟨rfl, -⟩ | ⟨-, -, rfl⟩ := he
    · exact base_ensureGroup hw q
    · rfl

theorem base_counts (hf : g.faults) {c : Instr} {r : c.Reply} {x : Sigma Cmd.Reply}
    (he : Exec g k i w c r w') (hr : counts c r = some x) : g.exec k i x.1 w.base x.2 w'.base := by
  cases c with
  | store c =>
    obtain rfl := Option.some.inj hr
    exact (exec_store hf he).1
  | giveUp op =>
    obtain rfl := Option.some.inj hr
    obtain rfl := he
    exact Or.inr ⟨hf, rfl, rfl⟩
  | load | sAdd | remember | ensureGroup => cases hr

theorem simulates (hf : g.faults) (hs : g.spawn (.sendAll [])) :
    erasure.Simulates (machine g k) (g.machine k) World.base Awaiting where
  start := refines_code
  spawn := by
    intro j hj
    cases j with
    | routine rdb j => exact hj rdb j rfl
    | start => exact hs
  silent := fun _ _ _ _ _ hw he hr => base_silent hw he hr
  counts := fun _ _ _ _ _ _ _ he hr => base_counts hf he hr
  give := by
    intro i n j w
    cases j with
    | routine => rfl
    | start => rfl
  env := by
    rintro w _ - ⟨t, hle, ht, rfl⟩
    exact ⟨t, hle, ht, rfl⟩
  crash := fun h => h
  exec_kept := fun _ _ _ _ _ hw he => awaiting_exec hw he
  give_kept := by
    intro i n j w hw q hq
    cases j with
    | routine rdb j =>
      change Fresh ((w.base.give i n j).slot q).stream
      rw [World.slot_give]
      exact hw q hq
    | start => exact hw q hq
  env_kept := by
    rintro w _ hw ⟨t, -, -, rfl⟩ q hq
    exact hw q hq

end Machine

/-- A store to which nothing was done. -/
def boot (g : Regime) (k : Keys) : Config Instr Instr.Reply Job World := (machine g k).boot {} []

/-- **The set-up of queues changes nothing for the routines.**  Whatever servers start when,
whatever the processes remember and whichever commands fail: the store is one that the
routines alone could have reached, with a group on every stream from the beginning, and
each process is where one of the routines could be.  So a task that was enqueued before
there was a group is delivered like any other. -/
theorem setup_refines_store {g : Regime} {k : Keys} (hf : g.faults) (hs : g.spawn (.sendAll []))
    {d : Config Instr Instr.Reply Job World} (hr : (machine g k).Reachable (boot g k) d) :
    ∃ d₀, (g.machine k).Reaches .init [] d₀ ∧ d₀.world = d.world.base ∧
      List.Forall₂ (Option.Rel erasure.Refines) d.procs d₀.procs := by
  have hfresh : Awaiting {} := fun _ _ => ⟨rfl, rfl⟩
  obtain ⟨d₀, hr₀, hrel⟩ := (simulates hf hs).reachable hfresh hr
  exact ⟨d₀, hr₀, hrel.world, hrel.procs⟩

/-! ## A queue that is set up late -/

/-- The answer to a command of process `i`, when nothing fails; a handler ends with `out`. -/
def answerStore (k : Keys) (out : Outcome) (i : Nat) : (c : Cmd) → World → Option (c.Reply × World)
  | .redis op, w =>
    if readsGroup op = true ∧ w.group op.queue = false then some (none, w)
    else some (some (w.base.reply k op), { w with base := w.base.perform k i op })
  | .now, w => some (w.base.now, w)
  | .retryDelay _ _, w => some (0, w)
  | .ctxDone, w => some (false, w)
  | .handle msg, w => some (out, { w with base := w.base.handled msg out })

def answer (k : Keys) (out : Outcome) (i : Nat) : (c : Instr) → World → Option (c.Reply × World)
  | .store c, w => answerStore k out i c w
  | .load rdb q, w => some (decide (q ∈ w.known rdb), w)
  | .sAdd q, w => some (true, { w with index := insert q w.index })
  | .remember rdb q, w =>
    some ((), { w with known := Function.update w.known rdb (insert q (w.known rdb)) })
  | .giveUp _, w => some ((), w)
  | .ensureGroup q, w => some (true, w.ensureGroup q)

def player (k : Keys) : Player Instr Instr.Reply Job World Outcome Empty where
  start := Job.code
  give := fun i n j w => w.give i n j
  answer := answer k
  env := fun e _ => e.elim

theorem exec_answerStore {k : Keys} {out : Outcome} {i : Nat} {c : Cmd} {w : World}
    {a : c.Reply × World} (h : answerStore k out i c w = some a) :
    ExecStore anyRun k i w c a.1 a.2 := by
  cases c with
  | redis op =>
    simp only [answerStore] at h
    simp only [ExecStore]
    split at h
    · rename_i hop
      cases h
      rw [if_pos hop]
      exact ⟨rfl, rfl⟩
    · rename_i hop
      cases h
      rw [if_neg hop]
      exact ⟨_, Or.inl ⟨trivial, rfl, Or.inl rfl⟩, rfl⟩
  | now =>
    cases h
    exact ⟨w.base, ⟨rfl, rfl⟩, rfl⟩
  | retryDelay | ctxDone =>
    cases h
    exact ⟨w.base, rfl, rfl⟩
  | handle =>
    cases h
    exact ⟨_, ⟨trivial, rfl⟩, rfl⟩

theorem player_sound (k : Keys) : (player k).Sound (machine anyRun k) where
  start := rfl
  give := rfl
  answer := by
    intro out i c w a h
    cases c with
    | store c => exact exec_answerStore h
    | load =>
      cases h
      exact ⟨rfl, rfl⟩
    | sAdd | ensureGroup =>
      cases h
      exact Or.inl ⟨rfl, Or.inl rfl⟩
    | remember | giveUp =>
      cases h
      rfl
  env := fun e => e.elim

/-- A client enqueues two tasks and a server fetches, before another server has started and
created the group; then the fetch is repeated. -/
def lateGroup : List (Choice Outcome Empty Job) :=
  [.spawn (.routine 0 (.send (.enqueue (sampleTask "a")))),
    .spawn (.routine 0 (.send (.enqueue (sampleTask "b")))),
    .spawn (.routine 1 (.fetch "q" "c" 2 1)), .spawn (.start ["q"]),
    .spawn (.routine 1 (.fetch "q" "c" 2 1))] ++
    List.replicate 4 (.step 0 (.ok none)) ++ List.replicate 2 (.step 1 (.ok none)) ++
    [.step 2 (.ok none), .step 3 (.ok none)] ++ List.replicate 3 (.step 4 (.ok none))

theorem lateGroup_admitted (k : Keys) : Player.Admits (machine anyRun k) lateGroup := by
  have hroutine : ∀ rdb j, j.External → (machine anyRun k).spawn (.routine rdb j) := by
    rintro rdb j hj _ _ heq
    obtain ⟨-, rfl⟩ := Job.routine.inj heq
    exact hj
  refine ⟨hroutine _ _ (Traffic.enqueue _), hroutine _ _ (Traffic.enqueue _),
    hroutine _ _ trivial, ?_, hroutine _ _ trivial, trivial⟩
  rintro _ _ heq
  cases heq

theorem anyRun_idle : anyRun.spawn (.sendAll []) :=
  fun _ hop => absurd hop List.not_mem_nil

/-- Both tasks are delivered. -/
theorem lateGroup_reached :
    ∃ d, (machine anyRun sampleKeys).Reachable (boot anyRun sampleKeys) d ∧
      (d.world.base.slot "q").queueStats.active = 2 ∧ "q" ∈ d.world.index := by
  obtain ⟨d, hr, hd⟩ := (player_sound sampleKeys).exists_reachable lateGroup
    (lateGroup_admitted sampleKeys) (boot anyRun sampleKeys)
    (fun w => decide ((w.base.slot "q").queueStats.active = 2 ∧ "q" ∈ w.index)) (by decide +kernel)
  exact ⟨d, hr, of_decide_eq_true hd⟩

/-- Both tasks are delivered, as the routines alone would have it. -/
theorem delivered_after_late_group :
    ∃ d, (machine anyRun sampleKeys).Reachable (boot anyRun sampleKeys) d ∧
      (d.world.base.slot "q").queueStats.active = 2 ∧
      ∃ d₀, (anyRun.machine sampleKeys).Reaches .init [] d₀ ∧ d₀.world = d.world.base ∧
        List.Forall₂ (Option.Rel erasure.Refines) d.procs d₀.procs := by
  obtain ⟨d, hr, hactive, -⟩ := lateGroup_reached
  exact ⟨d, hr, hactive, setup_refines_store trivial anyRun_idle hr⟩

end ChronosGo.Setup
