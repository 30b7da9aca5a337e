import ChronosGo.ProtocolObeyed
import ChronosGo.Schedule
import ChronosGo.ServerConfig
import Mathlib.Data.List.AList

/-! # The fetch loop and its semaphore

`fetchLoop` and the workers it starts, with the channel `sem` that bounds them
(`server.go`).  The loop takes one slot before it looks for work, sizes its batch by
the slots that are free at that moment, and takes one more slot for each further task
of the batch; a worker returns a slot when it finishes.

The loop and the workers are programs over `Instr`: what they do to the channel, the
context, the clock and Redis.  Every interleaving is a run of `machine`.
`DequeueBatch` is one instruction of the loop, which answers what the routine can
return when `XREADGROUP` honours its `COUNT` (`length_claimed_le`).  `for` without an end
is a loop of any number of rounds.
-/
namespace ChronosGo.FetchLoop
open Interleaving

/-! ## `DequeueBatch` -/

/-- `Dequeued`: a stream entry and the task claimed with it. -/
abbrev Dequeued : Type := Nat × TaskMessage

/-- What `DequeueBatch` returns: tasks, `ErrNoTask` or another error. -/
inductive Fetched where
  | tasks (ts : List Dequeued)
  | noTask
  | failed
deriving DecidableEq

/-- The tasks returned. -/
def Fetched.claimed : Fetched → List Dequeued
  | tasks ts => ts
  | noTask | failed => []

/-- `DequeueBatch`; how long `XREADGROUP` blocks makes no difference to what it can
answer.  A stored body is a message here, so the branch that skips a body that does not
decode is not there; it could only shorten the batch. -/
def dequeueBatch (consumer q : String) (count : Int) : Routine Fetched := do
  let count := if count < 1 then 1 else count
  match ← redis (.xReadGroup q consumer count.toNat) with
  | none => return .failed
  | some entries =>
    if entries = [] then return .noTask
    else do
      match ← loadBodies q entries with
      | none => return .failed
      | some bodies => do
        dropOrphans q (orphanEntries bodies)
        if dequeued bodies = [] then return .noTask
        else if ← markAll q (dequeued bodies) then return .tasks (dequeued bodies)
        else return .failed

/-- The tasks are those of the routine that does not tell its errors apart. -/
theorem claimed_dequeueBatch (consumer q : String) (n : Nat) :
    (do let r ← dequeueBatch consumer q n; return r.claimed) =
      ChronosGo.dequeueBatch q consumer n := by
  have hcount : (if (n : Int) < 1 then 1 else (n : Int)).toNat = max n 1 := by
    split <;> omega
  unfold dequeueBatch ChronosGo.dequeueBatch
  dsimp only
  rw [hcount]
  refine congrArg (Prog.call _) (funext fun r => ?_)
  rcases r with _ | _ | ⟨e, entries⟩
  · rfl
  · rfl
  · change (loadBodies q (e :: entries) >>= _) >>= _ = loadBodies q (e :: entries) >>= _
    rw [Prog.bind_assoc]
    refine congrArg _ (funext fun bodies => ?_)
    rcases bodies with _ | bodies
    · rfl
    · dsimp only
      rw [Prog.bind_assoc]
      refine congrArg _ (funext fun _ => ?_)
      by_cases hd : dequeued bodies = []
      · rw [if_pos hd, hd]
        rfl
      · rw [if_neg hd, Prog.bind_assoc]
        refine congrArg _ (funext fun ok => ?_)
        cases ok <;> rfl

/-- Redis delivers at most `COUNT` entries; nothing is assumed of its other answers. -/
def HonoursCount : (c : ChronosGo.Cmd) → c.Reply → Prop
  | .redis (.xReadGroup _ _ n), some entries => entries.length ≤ n
  | _, _ => True

/-- So does the model of `XREADGROUP`. -/
theorem honoursCount_run (k : Keys) (now : Int) (s : Slot) (q consumer : String) (n : Nat) :
    HonoursCount (.redis (.xReadGroup q consumer n))
      (some ((Op.xReadGroup q consumer n).run k now s).2) :=
  List.length_take_le n _

theorem length_of_yields_loadBodies {q : String} {entries : List (Nat × String)}
    {bodies : List (Nat × Option TaskMessage)}
    (h : (loadBodies q entries).Yields HonoursCount (some bodies)) :
    bodies.length = entries.length := by
  induction entries generalizing bodies with
  | nil =>
    cases h
    rfl
  | cons e entries ih =>
    obtain ⟨body, -, h⟩ := Prog.yields_bind.mp h
    obtain ⟨loaded, hl, h⟩ := Prog.yields_bind.mp h
    rcases body with _ | body
    · cases h
    · rcases loaded with _ | loaded
      · cases h
      · cases h
        rw [List.length_cons, List.length_cons, ih hl]

/-- **`DequeueBatch` returns at most the requested count.** -/
theorem length_claimed_le {consumer q : String} {count : Int} {r : Fetched}
    (h : (dequeueBatch consumer q count).Yields HonoursCount r) :
    (r.claimed.length : Int) ≤ max count 1 := by
  have hnone : r.claimed = [] → (r.claimed.length : Int) ≤ max count 1 := by
    intro hr
    rw [hr]
    exact Int.le_trans Int.one_nonneg (Int.le_max_right _ _)
  obtain ⟨entries, hcount, h⟩ := Prog.yields_bind.mp h
  rcases entries with _ | entries
  · cases h
    exact hnone rfl
  dsimp only at h
  split at h
  · cases h
    exact hnone rfl
  obtain ⟨bodies, hb, h⟩ := Prog.yields_bind.mp h
  rcases bodies with _ | bodies
  · cases h
    exact hnone rfl
  obtain ⟨-, -, h⟩ := Prog.yields_bind.mp h
  split at h
  · cases h
    exact hnone rfl
  obtain ⟨ok, -, h⟩ := Prog.yields_bind.mp h
  cases ok with
  | false =>
    cases h
    exact hnone rfl
  | true =>
    cases h
    -- the tasks are the entries whose body was found
    have hfound : (dequeued bodies).length ≤ entries.length :=
      length_of_yields_loadBodies hb ▸ List.length_filterMap_le _ _
    have hentries : entries.length ≤ (if count < 1 then 1 else count).toNat :=
      Prog.yields_cmd.mp hcount
    change ((dequeued bodies).length : Int) ≤ max count 1
    split at hentries <;> omega

theorem yields_loadBodies (q : String) (ts : List Dequeued) :
    (loadBodies q (ts.map fun t => (t.1, t.2.id))).Yields HonoursCount
      (some (ts.map fun t => (t.1, some t.2))) := by
  induction ts with
  | nil => exact rfl
  | cons t ts ih =>
    refine Prog.yields_bind.mpr ⟨some (some t.2), Prog.yields_cmd.mpr trivial, ?_⟩
    exact Prog.yields_bind.mpr ⟨_, ih, rfl⟩

theorem yields_markAll (q : String) (ts : List Dequeued) :
    (markAll q ts).Yields HonoursCount true := by
  induction ts with
  | nil => exact rfl
  | cons t ts ih =>
    refine Prog.yields_bind.mpr ⟨some (), Prog.yields_cmd.mpr trivial, ?_⟩
    exact Prog.yields_bind.mpr ⟨true, ih, rfl⟩

/-- Nothing more is known of what it returns: every batch of active tasks that is no
larger than requested is possible. -/
theorem yields_dequeueBatch (consumer q : String) {count : Int} {ts : List Dequeued} (hne : ts ≠ [])
    (hlen : (ts.length : Int) ≤ max count 1) (hactive : ∀ t ∈ ts, t.2.state = .active) :
    (dequeueBatch consumer q count).Yields HonoursCount (.tasks ts) := by
  have hentries : ts.map (fun t => (t.1, t.2.id)) ≠ [] := mt List.map_eq_nil_iff.mp hne
  have horphans : orphanEntries (ts.map fun t => (t.1, some t.2)) = [] := by
    unfold orphanEntries
    rw [List.filter_map, List.filter_eq_nil_iff.mpr]
    · rfl
    · intro t _
      exact Bool.false_ne_true
  have hdequeued : dequeued (ts.map fun t => (t.1, some t.2)) = ts := by
    unfold dequeued
    rw [List.filterMap_map]
    refine (List.filterMap_congr fun t ht => ?_).trans List.filterMap_some
    change some (t.1, { t.2 with state := TaskState.active }) = some t
    rw [← hactive t ht]
  refine Prog.yields_bind.mpr ⟨some (ts.map fun t => (t.1, t.2.id)), Prog.yields_cmd.mpr ?_, ?_⟩
  · change (ts.map fun t => (t.1, t.2.id)).length ≤ (if count < 1 then 1 else count).toNat
    rw [List.length_map]
    split <;> omega
  · dsimp only
    rw [if_neg hentries]
    refine Prog.yields_bind.mpr ⟨_, yields_loadBodies q ts, ?_⟩
    dsimp only
    rw [horphans, hdequeued, if_neg hne]
    exact Prog.yields_bind.mpr ⟨(), rfl, Prog.yields_bind.mpr ⟨true, yields_markAll q ts, rfl⟩⟩

/-! ## Instructions -/

/-- What the loop and the workers do, besides computing. -/
inductive Instr where
  /-- The first `select` of a round: whether the context is done. -/
  | ctxDone
  /-- Whether `ctx.Err()` is not `nil`. -/
  | ctxErr
  /-- The second `select` of a round: take a slot, or see that the context is done. -/
  | acquire
  /-- The outer `select` of a later task: take a slot if one is free. -/
  | slotFor (dt : Dequeued)
  /-- The inner `select` of a later task: wait for a slot, or see that the context is
  done. -/
  | waitSlotFor (dt : Dequeued)
  /-- `<-s.sem`. -/
  | release
  /-- `len(s.sem)`. -/
  | semLen
  | now
  | pausedQueues
  /-- Wait for `pauseCheckInterval`, or see that the context is done. -/
  | pauseWait
  | sleep
  | dequeueBatch (block : Int) (q : String) (count : Int)
  | requeue (dt : Dequeued)
  | trackInflight (id : String) (e : InflightEntry)
  | untrackInflight (id : String)
  /-- A command of `process`. -/
  | routine (c : ChronosGo.Cmd)

/-- Answers; a `select` answers whether it has not seen the end of the context. -/
@[reducible] def Instr.Reply : Instr → Type
  | ctxDone | ctxErr | acquire | slotFor _ | waitSlotFor _ | pauseWait | requeue _ => Bool
  | semLen => Nat
  | now => Int
  | pausedQueues => Option (List String)
  | dequeueBatch .. => Fetched
  | routine c => c.Reply
  | _ => Unit

/-- What is left of the loop's variables between two rounds. -/
structure LoopState where
  picker : WRRPicker
  paused : List String := []
  pausedChecked : Int := zeroTime

/-- What a goroutine is started for. -/
inductive Goroutine where
  /-- The fetch loop, stopped after some number of rounds. -/
  | fetchLoop (rounds : Nat)
  | worker (dt : Dequeued)
  | routine (j : ChronosGo.Job)

/-- The code of a goroutine. -/
abbrev Thread (α : Type) : Type := Prog Instr Instr.Reply Goroutine α

/-- An instruction. -/
abbrev exec (c : Instr) : Thread c.Reply := Prog.cmd c

/-! ## The loop -/

/-- `pollBlock`. -/
def pollBlock : Int := second

/-- `pauseCheckInterval`. -/
def pauseCheckInterval : Int := second

/-- `refreshPaused`. -/
def refreshPaused (st : LoopState) : Thread LoopState := do
  let now ← exec .now
  if now - st.pausedChecked < pauseCheckInterval then return st
  else do
    let checked ← exec .now
    match ← exec .pausedQueues with
    | none => return { st with pausedChecked := checked }
    | some names => return { st with pausedChecked := checked, paused := names }

/-- The queues of a round that are not paused. -/
def keptOrder (paused order : List String) : List String :=
  if paused = [] then order else order.filter (· ∉ paused)

/-- What the queries of a round come to: a batch to dispatch, or the slot is released
and there is another round, or the loop returns. -/
inductive Found where
  | batch (tasks : List Dequeued)
  | again
  | stop

/-- The queries that do not block, one queue after the other. -/
def sweep (batch : Int) : List String → Thread Found
  | [] => return .batch []
  | q :: order => do
    match ← exec (.dequeueBatch (-1) q batch) with
    | .noTask => sweep batch order
    | .failed =>
      if ← exec .ctxErr then do
        exec .release
        return .stop
      else sweep batch order
    | .tasks ts => return .batch ts

/-- The query that blocks, on the first queue of the round. -/
def await (batch : Int) (order : List String) : Thread Found :=
  if order.headD "" = "" then do
    exec .release
    return .stop
  else do
    match ← exec (.dequeueBatch pollBlock (order.headD "") batch) with
    | .noTask => do
      exec .release
      return .again
    | .failed =>
      if ← exec .ctxErr then do
        exec .release
        return .stop
      else do
        exec .release
        exec .sleep
        return .again
    | .tasks ts => return .batch ts

/-- Both kinds of queries. -/
def query (batch : Int) (order : List String) : Thread Found := do
  match ← sweep batch order with
  | .batch [] => await batch order
  | found => return found

/-- Return what is left of a batch to the stream. -/
def requeueRest : List Dequeued → Thread Unit
  | [] => return ()
  | dt :: rest => do
    let _ ← exec (.requeue dt)
    requeueRest rest

/-- Dispatch the tasks of a batch after the first, each with a slot of its own; `false`
if the loop returns. -/
def dispatchRest : List Dequeued → Thread Bool
  | [] => return true
  | dt :: rest => do
    if ← exec (.slotFor dt) then do
      Prog.go (.worker dt)
      dispatchRest rest
    else if ← exec (.waitSlotFor dt) then do
      Prog.go (.worker dt)
      dispatchRest rest
    else do
      requeueRest (dt :: rest)
      return false

/-- Dispatch a batch: its first task has the slot that the round began with. -/
def dispatch : List Dequeued → Thread Bool
  | [] => return true
  | dt :: rest => do
    Prog.go (.worker dt)
    dispatchRest rest

/-- One round; `none` if the loop returns. -/
def round (s : Server) (st : LoopState) : Thread (Option LoopState) := do
  if ← exec .ctxDone then return none
  else if ← exec .acquire then do
    let st' ← refreshPaused { st with picker := (s.nextOrder st.picker).2 }
    let order := keptOrder st'.paused (s.nextOrder st.picker).1
    if st'.paused ≠ [] ∧ order = [] then do
      exec .release
      if ← exec .pauseWait then return some st'
      else return none
    else do
      let len ← exec .semLen
      match ← query (s.batchSize len) order with
      | .stop => return none
      | .again => return some st'
      | .batch [] => do
        exec .release
        return some st'
      | .batch tasks =>
        if ← dispatch tasks then return some st'
        else return none
  else return none

/-- `fetchLoop`, for some number of rounds. -/
def fetchLoop (s : Server) : Nat → LoopState → Thread Unit
  | 0, _ => return ()
  | rounds + 1, st => do
    match ← round s st with
    | none => return ()
    | some st' => fetchLoop s rounds st'

/-- A routine as a part of a goroutine. -/
def run (p : Routine Unit) : Thread Unit := p.embed Instr.routine (fun _ r => r) Goroutine.routine

/-- The goroutine of a task, with its deferred calls. -/
def worker (dt : Dequeued) : Thread Unit := do
  exec (.trackInflight dt.2.id ⟨dt.1, dt.2.queue, dt.2.uniqueKey⟩)
  run (process dt.2.queue dt.1 dt.2)
  exec (.untrackInflight dt.2.id)
  exec .release

/-- The code of a goroutine. -/
def Goroutine.start (s : Server) : Goroutine → Thread Unit
  | fetchLoop rounds => FetchLoop.fetchLoop s rounds { picker := newWRRPicker s.cfg.queues }
  | worker dt => FetchLoop.worker dt
  | routine j => run j.start

/-! ## The machine -/

/-- The state that the goroutines share.  `claimed` and `started` are a record: the
tasks that `DequeueBatch` has returned and the tasks that have a worker, in order. -/
structure World where
  sem : Nat := 0
  cancelled : Bool := false
  inflight : AList (fun _ : String => InflightEntry) := ∅
  claimed : List Dequeued := []
  started : List Dequeued := []

namespace World

/-- A send on the channel among other cases of a `select`: it takes a slot if one is
free; the other case is open if `other` holds. -/
def Send (w : World) (cap : Nat) (other : Prop) (sent : Bool) (w' : World) : Prop :=
  (sent = true ∧ w.sem < cap ∧ w' = { w with sem := w.sem + 1 }) ∨ (sent = false ∧ other ∧ w' = w)

/-- What an instruction may answer, and do. -/
def Exec (s : Server) (w : World) : (c : Instr) → c.Reply → World → Prop
  | .ctxDone, done, w' => done = w.cancelled ∧ w' = w
  | .ctxErr, err, w' => err = w.cancelled ∧ w' = w
  | .acquire, sent, w' => w.Send s.cap (w.cancelled = true) sent w'
  | .slotFor _, sent, w' => w.Send s.cap (w.sem = s.cap) sent w'
  | .waitSlotFor _, sent, w' => w.Send s.cap (w.cancelled = true) sent w'
  | .release, _, w' => 0 < w.sem ∧ w' = { w with sem := w.sem - 1 }
  | .semLen, len, w' => len = w.sem ∧ w' = w
  | .pauseWait, waited, w' => (waited = false → w.cancelled = true) ∧ w' = w
  | .dequeueBatch _ q count, r, w' =>
    (dequeueBatch s.consumer q count).Yields HonoursCount r ∧
      w' = { w with claimed := w.claimed ++ r.claimed }
  | .trackInflight id e, _, w' => w' = { w with inflight := w.inflight.insert id e }
  | .untrackInflight id, _, w' => w' = { w with inflight := w.inflight.erase id }
  | .now, _, w' | .pausedQueues, _, w' | .sleep, _, w' | .requeue _, _, w' | .routine _, _, w' =>
    w' = w

/-- The record of a goroutine that is started. -/
def give (w : World) : Goroutine → World
  | .worker dt => { w with started := w.started ++ [dt] }
  | _ => w

end World

/-- A server at work: any interleaving of its loop and its workers, with a shutdown at
any time. -/
def machine (s : Server) : Machine Instr Instr.Reply Goroutine World where
  start := Goroutine.start s
  spawn := fun _ => False
  exec := fun _ c w r w' => w.Exec s c r w'
  give := fun _ _ j w => w.give j
  env := fun w w' => w' = { w with cancelled := true }
  crash := False

/-- A server that starts its loop. -/
def boot (s : Server) (rounds : Nat) : Config Instr Instr.Reply Goroutine World :=
  (machine s).boot {} [.fetchLoop rounds]

end ChronosGo.FetchLoop
