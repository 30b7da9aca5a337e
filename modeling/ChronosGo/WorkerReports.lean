import ChronosGo.Erasure
import ChronosGo.Journals
import ChronosGo.ProtocolObeyed
import ChronosGo.StrandedBody
import ChronosGo.ViewTriples

/-! # What a worker tells

A worker reports the outcome of a task to the metrics, with the time that the handler
took, and tells `OnDeadLetter` of a task that has failed for good.  Here `process` does
both.  The hooks change nothing for the store (`hooks_refine_store`), and what they are
told is what was done.  A journal has all that a worker does, in order; that of a worker
which is through with its task has the handler between two looks at the clock, one
acknowledgement and then one report of it, unless the successor or the group could not be
told of a success, and then it has neither (`outcome_told_once`).
-/
namespace ChronosGo.Reports
open Interleaving

/-! ## The worker -/

inductive TaskOutcome where
  | success
  | retry
  | deadLetter
deriving DecidableEq

/-- A call of `ObserveTask`. -/
structure Observation where
  queue : String
  kind : String
  outcome : TaskOutcome
  dur : Int
deriving DecidableEq

/-- A call of `OnDeadLetter`. -/
structure Notice where
  id : String
  kind : String
  queue : String
  cause : String
deriving DecidableEq

/-- Which of the hooks are configured. -/
structure Hooks where
  metrics : Bool
  onDeadLetter : Bool

inductive Instr where
  /-- A command of the routines. -/
  | store (c : Cmd)
  /-- The clock, to measure a handler. -/
  | clock
  | observeTask (o : Observation)
  | onDeadLetter (n : Notice)

@[reducible] def Instr.Reply : Instr → Type
  | store c => c.Reply
  | clock => Int
  | observeTask _ | onDeadLetter _ => Unit

abbrev Thread (α : Type) : Type := Prog Instr Instr.Reply Job α

abbrev exec (c : Instr) : Thread c.Reply := Prog.cmd c

def lift {α : Type} (p : Routine α) : Thread α := p.embed .store (fun _ r => r) id

/-- `observe`. -/
def observe (hk : Hooks) (msg : TaskMessage) (outcome : TaskOutcome) (dur : Int) : Thread Unit :=
  if hk.metrics then exec (.observeTask ⟨msg.queue, msg.kind, outcome, dur⟩) else return ()

/-- `deadLetter`. -/
def deadLetter (hk : Hooks) (q : String) (sid : Nat) (msg : TaskMessage) (cause : String) :
    Thread Unit := do
  lift (ChronosGo.deadLetter q sid msg cause)
  if hk.onDeadLetter then exec (.onDeadLetter ⟨msg.id, msg.kind, msg.queue, cause⟩) else return ()

/-- `Done`, and the report. -/
def finish (hk : Hooks) (q : String) (sid : Nat) (msg : TaskMessage) (dur : Int) : Thread Unit := do
  lift (done q sid msg)
  observe hk msg .success dur

/-- The success path of `process`. -/
def succeed (hk : Hooks) (q : String) (sid : Nat) (msg : TaskMessage) (dur : Int) : Thread Unit :=
  match msg.chain with
  | link :: rest => do
    if ← lift (enqueueNextWithRetry msg link rest) then finish hk q sid { msg with chain := [] } dur
    else return ()
  | [] =>
    if msg.groupID ≠ "" then do
      if ← lift (completeGroupWithRetry msg) then finish hk q sid msg dur
      else return ()
    else finish hk q sid msg dur

/-- `process`. -/
def process (hk : Hooks) (q : String) (sid : Nat) (msg : TaskMessage) : Thread Unit := do
  let start ← exec .clock
  let out ← exec (.store (.handle msg))
  let stop ← exec .clock
  let dur := stop - start
  match out with
  | .ok r => succeed hk q sid (withResult msg r) dur
  | .fail err skip =>
    if skip = true ∨ msg.maxRetry ≤ msg.retried then do
      deadLetter hk q sid msg err
      observe hk msg .deadLetter dur
    else do
      let msg := { msg with retried := msg.retried + 1, lastErr := err, completedAt := 0 }
      let now ← exec (.store .now)
      let delay ← exec (.store (.retryDelay msg.retried err))
      lift (retry q sid msg (now + delay))
      observe hk msg .retry dur

/-- The other routines have no hooks. -/
def code (hk : Hooks) : Job → Thread Unit
  | .work q sid msg => process hk q sid msg
  | .send op => lift (Job.start (.send op))
  | .sendAll ops => lift (Job.start (.sendAll ops))
  | .deleteTask q id => lift (Job.start (.deleteTask q id))
  | .fetch q consumer count keep => lift (Job.start (.fetch q consumer count keep))
  | .recover q consumer minIdle max => lift (Job.start (.recover q consumer minIdle max))

/-! ## The machine -/

/-- What a process does, as far as it matters to the hooks. -/
inductive Entry where
  | clock (t : Int)
  | handle (msg : TaskMessage) (out : Outcome)
  | redis (op : Op)
  | observeTask (o : Observation)
  | onDeadLetter (n : Notice)

/-- What a command adds to the journal of its process. -/
def Instr.entries : (c : Instr) → c.Reply → List Entry
  | .store (.handle msg), out => [.handle msg out]
  | .store (.redis op), _ => [.redis op]
  | .store .now, _ | .store (.retryDelay ..), _ | .store .ctxDone, _ => []
  | .clock, t => [.clock t]
  | .observeTask o, _ => [.observeTask o]
  | .onDeadLetter n, _ => [.onDeadLetter n]

/-- What a worker is started with. -/
structure Assignment where
  queue : String
  sid : Nat
  msg : TaskMessage
deriving DecidableEq

def assignment : Job → Option Assignment
  | .work q sid msg => some ⟨q, sid, msg⟩
  | _ => none

structure World where
  base : ChronosGo.World := .init
  journal : Nat → List Entry := fun _ => []
  /-- The tasks that workers were started with. -/
  task : Nat → Option Assignment := fun _ => none

def Exec (g : Regime) (k : Keys) (i : Nat) (b : ChronosGo.World) :
    (c : Instr) → c.Reply → ChronosGo.World → Prop
  | .store c, r, b' => g.exec k i c b r b'
  | .clock, t, b' => t = b.now ∧ b' = b
  | .observeTask _, _, b' => b' = b
  | .onDeadLetter _, _, b' => b' = b

/-- Process `i` starts process `n`. -/
def World.give (i n : Nat) (j : Job) (w : World) : World :=
  { w with base := w.base.give i n j, task := Function.update w.task n (assignment j) }

/-- The runs of a regime, with these hooks. -/
def machine (hk : Hooks) (g : Regime) (k : Keys) : Machine Instr Instr.Reply Job World where
  start := code hk
  spawn := g.spawn
  exec := fun i c w r w' => ∃ b, Exec g k i w.base c r b ∧
    w' = { w with base := b, journal := Function.update w.journal i (w.journal i ++ c.entries r) }
  give := World.give
  env := fun w w' => ∃ t, w.base.now ≤ t ∧ g.tick w.base t ∧ w' = { w with base := w.base.tick t }
  crash := g.crash

def boot (hk : Hooks) (g : Regime) (k : Keys) : Config Instr Instr.Reply Job World :=
  (machine hk g k).boot {} []

/-! ## The hooks and the store -/

def counts : (c : Instr) → c.Reply → Option (Sigma Cmd.Reply)
  | .store c, r => some ⟨c, r⟩
  | .clock, _ | .observeTask _, _ | .onDeadLetter _, _ => none

def erasure : Erasure Cmd Cmd.Reply Job Instr Instr.Reply Job where
  event := counts
  job := id

section Refinement
variable {hk : Hooks} {g : Regime} {k : Keys} {q : String} {sid : Nat} {msg : TaskMessage}

theorem refines_lift {α : Type} (p : Routine α) : erasure.Refines (lift p) p :=
  Erasure.refines_embed (fun _ _ => rfl) (fun _ => rfl) p

theorem refines_observe (outcome : TaskOutcome) (dur : Int) :
    erasure.Refines (observe hk msg outcome dur) (.pure ()) := by
  unfold observe
  split
  · exact Erasure.refines_silent (e := erasure) (fun _ => rfl) fun _ => rfl
  · rfl

theorem refines_finish (dur : Int) :
    erasure.Refines (finish hk q sid msg dur) (done q sid msg) :=
  Erasure.refines_append (refines_lift _) fun _ => refines_observe _ _

theorem refines_deadLetter (cause : String) :
    erasure.Refines (deadLetter hk q sid msg cause) (ChronosGo.deadLetter q sid msg cause) := by
  refine Erasure.refines_append (refines_lift _) fun _ => ?_
  split
  · exact Erasure.refines_silent (e := erasure) (fun _ => rfl) fun _ => rfl
  · rfl

theorem refines_succeed (dur : Int) :
    erasure.Refines (succeed hk q sid msg dur) (ChronosGo.succeed q sid msg) := by
  unfold succeed ChronosGo.succeed
  cases msg.chain with
  | cons link rest =>
    refine Erasure.refines_bind (refines_lift _) fun ok => ?_
    cases ok with
    | true => exact refines_finish _
    | false => rfl
  | nil =>
    change erasure.Refines (if msg.groupID ≠ "" then _ else _) (if msg.groupID ≠ "" then _ else _)
    split
    · refine Erasure.refines_bind (refines_lift _) fun ok => ?_
      cases ok with
      | true => exact refines_finish _
      | false => rfl
    · exact refines_finish _

theorem refines_process :
    erasure.Refines (process hk q sid msg) (ChronosGo.process q sid msg) := by
  refine Erasure.refines_silent (e := erasure) (c := Instr.clock) (fun _ => rfl) fun start => ?_
  refine Erasure.refines_call (e := erasure) (c := Instr.store (.handle msg))
    (fun _ => rfl) fun out => ?_
  refine Erasure.refines_silent (e := erasure) (c := Instr.clock) (fun _ => rfl) fun stop => ?_
  cases out with
  | ok r => exact refines_succeed _
  | fail err skip =>
    change erasure.Refines (if skip = true ∨ msg.maxRetry ≤ msg.retried then _ else _)
      (if skip = true ∨ msg.maxRetry ≤ msg.retried then _ else _)
    split
    · exact Erasure.refines_append (refines_deadLetter _) fun _ => refines_observe _ _
    · refine Erasure.refines_call (e := erasure) (c := Instr.store .now)
        (fun _ => rfl) fun now => ?_
      refine Erasure.refines_call (e := erasure) (c := Instr.store (.retryDelay _ err))
        (fun _ => rfl) fun delay => ?_
      exact Erasure.refines_append (refines_lift _) fun _ => refines_observe _ _

theorem refines_code (j : Job) : erasure.Refines (code hk j) j.start := by
  cases j with
  | work => exact refines_process
  | send | sendAll | deleteTask | fetch | recover => exact refines_lift _

theorem simulates : erasure.Simulates (machine hk g k) (g.machine k) World.base fun _ => True where
  start := refines_code
  spawn := fun _ hj => hj
  silent := by
    rintro i c w r _ - ⟨b, hb, rfl⟩ hr
    cases c with
    | store => cases hr
    | clock => exact hb.2
    | observeTask | onDeadLetter => exact hb
  counts := by
    rintro i c w r _ x - ⟨b, hb, rfl⟩ hr
    cases c with
    | store c =>
      obtain rfl := Option.some.inj hr
      exact hb
    | clock | observeTask | onDeadLetter => cases hr
  give := fun _ _ _ _ => rfl
  env := by
    rintro w _ - ⟨t, hle, ht, rfl⟩
    exact ⟨t, hle, ht, rfl⟩
  crash := fun h => h
  exec_kept := fun _ _ _ _ _ _ _ => trivial
  give_kept := fun _ _ _ _ _ => trivial
  env_kept := fun _ _ _ _ => trivial

/-- **The hooks change nothing for the store.**  With metrics and `OnDeadLetter` or
without, the store is one that the routines reach without hooks, and each process is where
one of them could be. -/
theorem hooks_refine_store {d : Config Instr Instr.Reply Job World}
    (hr : (machine hk g k).Reachable (boot hk g k) d) :
    ∃ d₀, (g.machine k).Reaches .init [] d₀ ∧ d₀.world = d.world.base ∧
      List.Forall₂ (Option.Rel erasure.Refines) d.procs d₀.procs := by
  obtain ⟨d₀, hr₀, hrel⟩ := simulates.reachable trivial hr
  exact ⟨d₀, hr₀, hrel.world, hrel.procs⟩

end Refinement

/-! ## What the hooks are told -/

def Hooks.observations (hk : Hooks) (m : TaskMessage) (outcome : TaskOutcome) (dur : Int) :
    List Entry :=
  if hk.metrics then [.observeTask ⟨m.queue, m.kind, outcome, dur⟩] else []

def Hooks.notices (hk : Hooks) (m : TaskMessage) (cause : String) : List Entry :=
  if hk.onDeadLetter then [.onDeadLetter ⟨m.id, m.kind, m.queue, cause⟩] else []

section Acknowledging
variable (q : String) (sid : Nat) (m : TaskMessage)

/-- The request acknowledges a success: the task is deleted, or retained. -/
inductive Completes : Op → Prop where
  | delete (ht : ¬ 0 < m.retention) : Completes (.ackDelete q sid m.id)
  | retain (now : Int) (ht : 0 < m.retention) :
      Completes (.moveToZSet q sid { m with completedAt := unix now } .completed
        ((unix now + m.retention) * second))

/-- The request puts the task away for good, with the error. -/
inductive DeadLetters (cause : String) : Op → Prop where
  | discard (hn : m.noArchive = true) : DeadLetters cause (.ackDelete q sid m.id)
  | archive (now : Int) (hn : m.noArchive = false) :
      DeadLetters cause (.moveToZSet q sid { m with lastErr := cause, completedAt := 0 } .archived
        (unix now * second))

/-- The request puts the task in the retry set, with one attempt more. -/
inductive Retries (cause : String) : Op → Prop where
  | intro (at' : Int) :
      Retries cause (.moveToZSet q sid
        { m with retried := m.retried + 1, lastErr := cause, completedAt := 0 } .retry
        (unix at' * second))

end Acknowledging

/-- The error is the last for the task. -/
def Fatal (m : TaskMessage) (skip : Bool) : Prop := skip = true ∨ m.maxRetry ≤ m.retried

/-- Requests, none of which acknowledges anything. -/
def Unacking (es : List Entry) : Prop := ∀ e ∈ es, ∃ op : Op, e = .redis op ∧ op.acks = []

/-- The beginning of a worker's journal: the handler, between two looks at the clock. -/
def ran (m : TaskMessage) (out : Outcome) (start stop : Int) : List Entry :=
  [.clock start, .handle m out, .clock stop]

/-- The journal of a worker that is through with its task. -/
inductive Settled (hk : Hooks) (q : String) (sid : Nat) (m : TaskMessage) : List Entry → Prop where
  /-- The successor or the group is told first, the lock released last. -/
  | success {r : Option Bytes} {start stop : Int} {before after : List Entry} {op : Op}
      (hbefore : Unacking before) (hx : m.chain = [] → m.groupID = "" → before = [])
      (hop : Completes q sid { withResult m r with chain := [] } op) (hafter : Unacking after) :
      Settled hk q sid m (ran m (.ok r) start stop ++ before ++ .redis op :: after ++
        hk.observations m .success (stop - start))
  /-- The successor could not be enqueued, or the group not be told: the task is left for
  redelivery. -/
  | kept {r : Option Bytes} {start stop : Int} {before : List Entry} (hbefore : Unacking before)
      (hx : m.chain ≠ [] ∨ m.groupID ≠ "") : Settled hk q sid m (ran m (.ok r) start stop ++ before)
  | deadLetter {err : String} {skip : Bool} {start stop : Int} {op : Op} {after : List Entry}
      (hx : Fatal m skip) (hop : DeadLetters q sid m err op) (hafter : Unacking after) :
      Settled hk q sid m (ran m (.fail err skip) start stop ++ .redis op :: after ++
        hk.notices m err ++ hk.observations m .deadLetter (stop - start))
  | retry {err : String} {skip : Bool} {start stop : Int} {op : Op} (hx : ¬ Fatal m skip)
      (hop : Retries q sid m err op) :
      Settled hk q sid m (ran m (.fail err skip) start stop ++ .redis op ::
        hk.observations m .retry (stop - start))

/-- The journal of a process that has returned: that of a worker, or requests only. -/
def Fits (hk : Hooks) : Option Assignment → List Entry → Prop
  | some a, es => Settled hk a.queue a.sid a.msg es
  | none, es => ∀ e ∈ es, ∃ op, e = .redis op

/-! ## Commands that are of no matter -/

/-- No handler is run, and nothing is acknowledged. -/
def Quiet : Cmd → Prop
  | .handle _ => False
  | .redis op => op.acks = []
  | .now | .retryDelay .. | .ctxDone => True

/-- All commands of the routine are of that kind. -/
abbrev IsQuiet {α : Type} (p : Routine α) : Prop :=
  ∀ h, p.Follows (fun _ c => Quiet c) (fun _ _ => False) (fun _ _ => True) h

section Quiet
variable {α β : Type}

theorem isQuiet_pure (a : α) : IsQuiet (.pure a : Routine α) := fun _ => trivial

theorem IsQuiet.bind {p : Routine α} {f : α → Routine β} (hp : IsQuiet p)
    (hf : ∀ a, IsQuiet (f a)) :
    IsQuiet (p >>= f) :=
  fun h => (hp h).bind fun h' a _ => hf a h'

theorem isQuiet_redis {op : Op} (hop : op.acks = []) : IsQuiet (redis op) :=
  fun _ => ⟨hop, fun _ => trivial⟩

theorem isQuiet_timeNow : IsQuiet timeNow := fun _ => ⟨trivial, fun _ => trivial⟩

theorem isQuiet_releaseUnique (msg : TaskMessage) : IsQuiet (releaseUnique msg) := by
  unfold releaseUnique
  split
  · exact isQuiet_pure _
  · exact (isQuiet_redis rfl).bind fun _ => isQuiet_pure _

theorem isQuiet_enqueueChainLink (msg : TaskMessage) (delay : Int) :
    IsQuiet (enqueueChainLink msg delay) := by
  unfold enqueueChainLink
  split
  · exact isQuiet_timeNow.bind fun _ => isQuiet_redis rfl
  · exact isQuiet_redis rfl

theorem isQuiet_completeGroupMember (member : TaskMessage) :
    IsQuiet (completeGroupMember member) := by
  unfold completeGroupMember
  split
  · exact isQuiet_pure _
  · split
    · exact isQuiet_pure _
    · split
      · exact isQuiet_timeNow.bind fun _ => isQuiet_redis rfl
      · exact isQuiet_redis rfl

theorem isQuiet_drain (q id : String) : IsQuiet (drainCompletedStageMember q id) := by
  refine (isQuiet_redis rfl).bind fun state => ?_
  split
  · exact isQuiet_pure _
  · exact isQuiet_pure _
  · split
    · exact isQuiet_pure _
    · refine (isQuiet_redis rfl).bind fun body => ?_
      split
      · exact isQuiet_pure _
      · exact isQuiet_pure _
      · exact (isQuiet_completeGroupMember _).bind fun _ => isQuiet_pure _

theorem isQuiet_enqueueMembers (ms : List (TaskMessage × Int)) : IsQuiet (enqueueMembers ms) := by
  induction ms with
  | nil => exact isQuiet_pure _
  | cons m ms ih =>
    refine (isQuiet_enqueueChainLink m.1 m.2).bind fun created => ?_
    split
    · exact isQuiet_pure _
    · exact ih
    · refine (isQuiet_drain _ _).bind fun ok => ?_
      split
      · exact ih
      · exact isQuiet_pure _

theorem isQuiet_enqueueNext (msg : TaskMessage) (link : ChainLink) (rest : List ChainLink) :
    IsQuiet (enqueueNext msg link rest) := by
  unfold enqueueNext
  split
  · refine (isQuiet_redis rfl).bind fun stage => ?_
    split
    · exact isQuiet_pure _
    · exact isQuiet_pure _
    · refine (isQuiet_redis rfl).bind fun ids => ?_
      split
      · exact isQuiet_pure _
      · exact isQuiet_enqueueMembers _
    · exact isQuiet_enqueueMembers _
  · exact (isQuiet_enqueueChainLink _ _).bind fun _ => isQuiet_pure _

theorem isQuiet_withRetry {attempt : Routine Bool} (ha : IsQuiet attempt) (n : Nat) :
    IsQuiet (withRetry attempt n) := by
  induction n with
  | zero => exact isQuiet_pure _
  | succ n ih =>
    have hctx : IsQuiet ctxDone := fun _ => ⟨trivial, fun _ => trivial⟩
    refine ha.bind fun ok => ?_
    split
    · exact isQuiet_pure _
    · refine hctx.bind fun expired => ?_
      split
      · exact isQuiet_pure _
      · exact ih

theorem isQuiet_completeGroup (msg : TaskMessage) : IsQuiet (completeGroupWithRetry msg) :=
  isQuiet_withRetry ((isQuiet_completeGroupMember msg).bind fun _ => isQuiet_pure _) 3

end Quiet

/-! ## The worker tells what it has done -/

instance (c : Instr) : Nonempty c.Reply := by
  cases c with
  | store c =>
    cases c with
    | now | retryDelay => exact ⟨(0 : Int)⟩
    | ctxDone => exact ⟨false⟩
    | handle => exact ⟨Outcome.ok none⟩
    | redis => exact ⟨none⟩
  | clock => exact ⟨(0 : Int)⟩
  | observeTask | onDeadLetter => exact ⟨()⟩

abbrev Tells {α : Type} (p : Thread α) (Q : α → List Entry → Prop) : Prop :=
  p.Writes Instr.entries Q

section Worker
variable {hk : Hooks} {α : Type} {q : String} {sid : Nat} {m msg : TaskMessage}

theorem tells_quiet {p : Routine α} (hp : IsQuiet p) : Tells (lift p) fun _ => Unacking := by
  refine Prog.Writes.embed (hp []) fun c r hc e he => ?_
  cases c with
  | handle => exact hc.elim
  | redis op => exact ⟨op, List.mem_singleton.mp he, hc⟩
  | now | retryDelay | ctxDone => cases he

/-- An acknowledgement, and a routine without one. -/
theorem tells_ack {op : Op} {f : Option op.Reply → Routine α} {P : Op → Prop} (hop : P op)
    (hnone : IsQuiet (f none)) (hsome : ∀ r, IsQuiet (f (some r))) :
    Tells (lift (.call (.redis op) f)) fun _ es =>
      ∃ op after, P op ∧ Unacking after ∧ es = .redis op :: after := by
  intro r
  have hquiet : IsQuiet (f r) := match r with
    | none => hnone
    | some r => hsome r
  exact (tells_quiet hquiet).mono fun _ after hafter => ⟨op, after, hop, hafter, rfl⟩

theorem tells_done : Tells (lift (done q sid msg)) fun _ es =>
    ∃ op after, Completes q sid msg op ∧ Unacking after ∧ es = .redis op :: after := by
  unfold done
  split
  · rename_i ht
    exact fun now => tells_ack (.retain now ht) (isQuiet_pure _) fun _ => isQuiet_releaseUnique _
  · rename_i ht
    exact tells_ack (.delete ht) (isQuiet_pure _) fun _ => isQuiet_releaseUnique _

theorem tells_putAway {cause : String} :
    Tells (lift (ChronosGo.deadLetter q sid m cause)) fun _ es =>
      ∃ op after, DeadLetters q sid m cause op ∧ Unacking after ∧ es = .redis op :: after := by
  unfold ChronosGo.deadLetter
  change Tells (lift (if m.noArchive = true then _ else _)) _
  split
  · rename_i hdiscard
    refine tells_done.mono fun _ es hes => ?_
    obtain ⟨op, after, hop, hafter, rfl⟩ := hes
    cases hop with
    | delete => exact ⟨_, after, .discard hdiscard, hafter, rfl⟩
    | retain _ ht => exact absurd ht (lt_irrefl 0)
  · rename_i harchive
    exact fun now => tells_ack (.archive now (Bool.eq_false_iff.mpr harchive)) (isQuiet_pure _)
      fun _ => isQuiet_releaseUnique _

theorem tells_observe {outcome : TaskOutcome} {dur : Int} :
    Tells (observe hk msg outcome dur) fun _ es => es = hk.observations msg outcome dur := by
  unfold observe Hooks.observations
  split
  · exact fun _ => rfl
  · rfl

theorem tells_finish {dur : Int} : Tells (finish hk q sid msg dur) fun _ es =>
    ∃ op after, Completes q sid msg op ∧ Unacking after ∧
      es = .redis op :: after ++ hk.observations msg .success dur := by
  refine tells_done.bind fun _ es hes => tells_observe.mono fun _ es' hes' => ?_
  obtain ⟨op, after, hop, hafter, rfl⟩ := hes
  exact ⟨op, after, hop, hafter, congrArg _ hes'⟩

theorem tells_deadLetter {err : String} : Tells (deadLetter hk q sid m err) fun _ es =>
    ∃ op after, DeadLetters q sid m err op ∧ Unacking after ∧
      es = .redis op :: after ++ hk.notices m err := by
  refine tells_putAway.bind fun _ es hes => ?_
  obtain ⟨op, after, hop, hafter, rfl⟩ := hes
  unfold Hooks.notices
  split
  · exact fun _ => ⟨op, after, hop, hafter, rfl⟩
  · exact ⟨op, after, hop, hafter, rfl⟩

theorem tells_succeed {r : Option Bytes} {start stop : Int} :
    Tells (succeed hk q sid (withResult m r) (stop - start)) fun _ es =>
      Settled hk q sid m (ran m (.ok r) start stop ++ es) := by
  have htold : hk.observations { withResult m r with chain := [] } .success (stop - start) =
      hk.observations m .success (stop - start) := by
    cases r <;> rfl
  have hfinish : ∀ before, Unacking before → (m.chain = [] → m.groupID = "" → before = []) →
      Tells (finish hk q sid { withResult m r with chain := [] } (stop - start)) fun _ es =>
        Settled hk q sid m (ran m (.ok r) start stop ++ (before ++ es)) := by
    intro before hbefore hx
    refine tells_finish.mono fun _ es hes => ?_
    obtain ⟨op, after, hop, hafter, rfl⟩ := hes
    rw [htold, ← List.append_assoc, ← List.append_assoc]
    exact .success hbefore hx hop hafter
  -- the successor or the group is told first, which may fail
  have htell : ∀ p : Routine Bool, IsQuiet p → m.chain ≠ [] ∨ m.groupID ≠ "" →
      Tells (lift p >>= fun ok => if ok = true then
        finish hk q sid { withResult m r with chain := [] } (stop - start) else return ())
          fun _ es =>
          Settled hk q sid m (ran m (.ok r) start stop ++ es) := by
    intro p hp hx
    refine (tells_quiet hp).bind fun ok before hbefore => ?_
    split
    · refine hfinish before hbefore fun hc hg => ?_
      rcases hx with hx | hx
      · exact absurd hc hx
      · exact absurd hg hx
    · change Settled _ _ _ _ (_ ++ (before ++ []))
      rw [List.append_nil]
      exact .kept hbefore hx
  unfold succeed
  split
  · rename_i link rest hc
    rw [withResult_chain] at hc
    refine htell _ (isQuiet_withRetry (isQuiet_enqueueNext _ _ _) 3) (Or.inl ?_)
    rw [hc]
    exact List.cons_ne_nil _ _
  · rename_i hc
    have hsame : { withResult m r with chain := [] } = withResult m r := by
      rw [← hc]
    rw [hsame] at hfinish htell
    split
    · rename_i hg
      rw [withResult_groupID] at hg
      exact htell _ (isQuiet_completeGroup _) (Or.inr hg)
    · exact hfinish [] (fun _ h => nomatch h) fun _ _ => rfl

theorem tells_process : Tells (process hk q sid m) fun _ => Settled hk q sid m := by
  intro start out stop
  cases out with
  | ok r => exact tells_succeed
  | fail err skip =>
    change Tells (if skip = true ∨ m.maxRetry ≤ m.retried then _ else _) _
    split
    · rename_i hx
      refine tells_deadLetter.bind fun _ es hes => tells_observe.mono fun _ es' hes' => ?_
      obtain ⟨op, after, hop, hafter, rfl⟩ := hes
      subst hes'
      exact .deadLetter hx hop hafter
    · rename_i hx
      intro now delay reply
      refine tells_observe.mono fun _ es hes => ?_
      subst hes
      exact .retry hx (.intro (now + delay))

end Worker

/-! ## Runs -/

section Runs
variable {hk : Hooks} {g : Regime} {k : Keys}

/-- Only workers run handlers. -/
theorem tells_other {j : Job} (hj : ∀ h m, ¬ j.Runs h m) :
    Tells (lift j.start) fun _ es => ∀ e ∈ es, ∃ op, e = .redis op := by
  have hstart : j.start.Follows (fun _ c => ∀ m, c ≠ .handle m) (fun _ _ => True)
      (fun _ _ => True) [] := by
    refine Prog.Follows.weaken (obeys_protocol anyRun sampleKeys j) ?_ (fun _ _ _ => trivial)
      fun _ _ _ => trivial
    rintro h c hc m rfl
    exact hj h m hc
  refine Prog.Writes.embed hstart fun c r hc e he => ?_
  cases c with
  | handle m => exact absurd rfl (hc m)
  | redis op => exact ⟨op, List.mem_singleton.mp he⟩
  | now | retryDelay | ctxDone => cases he

theorem tells_code (j : Job) : Tells (code hk j) fun _ => Fits hk (assignment j) := by
  cases j with
  | work => exact tells_process
  | send | sendAll | deleteTask | fetch | recover => exact tells_other fun _ _ h => h

theorem journaled (hg : ∀ j, g.spawn j → j.External) :
    Journaled (machine hk g k) Instr.entries assignment none World.journal World.task where
  exec := by
    rintro i c w r _ ⟨b, -, rfl⟩
    exact ⟨rfl, rfl⟩
  give := fun _ _ _ _ => ⟨rfl, rfl⟩
  env := by
    rintro w _ ⟨t, -, -, rfl⟩
    exact ⟨rfl, rfl⟩
  spawn := by
    intro j hj
    cases j with
    | work => exact (hg _ hj).elim
    | send | sendAll | deleteTask | fetch | recover => rfl

end Runs

/-! ## A task that fails for good -/

def answer (k : Keys) (out : Outcome) (i : Nat) : (c : Instr) → ChronosGo.World →
    Option (c.Reply × ChronosGo.World)
  | .store c, b => ChronosGo.answer k (fun _ _ _ => true) out i c b
  | .clock, b => some (b.now, b)
  | .observeTask _, b => some ((), b)
  | .onDeadLetter _, b => some ((), b)

/-- The player of a run without failing requests; time passes. -/
def player (hk : Hooks) (k : Keys) : Player Instr Instr.Reply Job World Outcome Nat where
  start := code hk
  give := World.give
  answer := fun out i c w => (answer k out i c w.base).map fun a => (a.1,
    { w with base := a.2, journal := Function.update w.journal i (w.journal i ++ c.entries a.1) })
  env := fun t w => some { w with base := w.base.tick (w.base.now + t) }

theorem player_sound (hk : Hooks) (k : Keys) : (player hk k).Sound (machine hk anyRun k) where
  start := rfl
  give := rfl
  answer := by
    intro out i c w a h
    obtain ⟨b, hb, rfl⟩ := Option.map_eq_some_iff.mp h
    refine ⟨b.2, ?_, rfl⟩
    cases c with
    | store c =>
      have hlets : anyRun.Lets fun _ _ _ => true := ⟨fun _ _ _ _ => trivial, fun _ _ _ => trivial⟩
      exact (ChronosGo.player_sound hlets).answer out i c w.base b hb
    | clock =>
      cases hb
      exact ⟨rfl, rfl⟩
    | observeTask | onDeadLetter =>
      cases hb
      rfl
  env := by
    rintro t w _ ⟨⟩
    exact ⟨_, Int.le_add_of_nonneg_right (Int.natCast_nonneg t), trivial, rfl⟩

/-- A task is enqueued and fetched; its handler takes a while and ends with an error that
is not to be retried. -/
def lastFailure : List (Choice Outcome Nat Job) :=
  [.spawn (.send (.enqueue (sampleTask "t"))), .step 0 (.ok none),
    .spawn (.fetch "q" "c" 1 0)] ++ List.replicate 4 (.step 1 (.ok none)) ++
    [.step 2 (.ok none), .env 7] ++ List.replicate 6 (.step 2 (.fail "gone" true))

theorem lastFailure_admitted (hk : Hooks) :
    Player.Admits (machine hk anyRun sampleKeys) lastFailure :=
  ⟨Traffic.enqueue _, trivial, trivial⟩

def ended : Option (Option (Thread Unit)) → Bool
  | some (some (.pure ())) => true
  | _ => false

theorem eq_of_ended {p : Option (Option (Thread Unit))} (h : ended p = true) :
    p = some (some (.pure ())) := by
  unfold ended at h
  split at h
  · rfl
  · cases h

def bothHooks : Hooks := ⟨true, true⟩

/-- What the hooks were told, in order. -/
def Entry.report : Entry → Option (Notice ⊕ Observation)
  | .onDeadLetter n => some (.inl n)
  | .observeTask o => some (.inr o)
  | .clock _ | .handle .. | .redis _ => none

/-- Both are told of the task, `OnDeadLetter` first. -/
def lastReports : List (Notice ⊕ Observation) :=
  [.inl ⟨"t", "mail", "q", "gone"⟩, .inr ⟨"q", "mail", .deadLetter, 7⟩]

theorem lastFailure_reached :
    ∃ d, (machine bothHooks anyRun sampleKeys).Reachable (boot bothHooks anyRun sampleKeys) d ∧
      d.procs[2]? = some (some (.pure ())) ∧
      d.world.task 2 = some ⟨"q", 1, { sampleTask "t" with state := .active }⟩ ∧
      (d.world.journal 2).filterMap Entry.report = lastReports := by
  obtain ⟨d, hr, hd⟩ := (player_sound bothHooks sampleKeys).exists_config lastFailure
    (lastFailure_admitted bothHooks) (boot bothHooks anyRun sampleKeys)
    (fun d => decide (ended d.procs[2]? = true ∧
      d.world.task 2 = some ⟨"q", 1, { sampleTask "t" with state := .active }⟩ ∧
      (d.world.journal 2).filterMap Entry.report = lastReports)) (by decide +kernel)
  obtain ⟨hended, htold⟩ := of_decide_eq_true hd
  exact ⟨d, hr, eq_of_ended hended, htold⟩

/-- The store is as it would be without the hooks. -/
theorem dead_letter_without_hooks :
    ∃ d, (machine bothHooks anyRun sampleKeys).Reachable (boot bothHooks anyRun sampleKeys) d ∧
      (d.world.journal 2).filterMap Entry.report = lastReports ∧
      ∃ d₀, (anyRun.machine sampleKeys).Reaches .init [] d₀ ∧
        d₀.world = d.world.base ∧ List.Forall₂ (Option.Rel erasure.Refines) d.procs d₀.procs := by
  obtain ⟨d, hr, -, -, hreports⟩ := lastFailure_reached
  exact ⟨d, hr, hreports, hooks_refine_store hr⟩

end ChronosGo.Reports
