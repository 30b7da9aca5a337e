import ChronosGo.Interleaving
import ChronosGo.Schedule
import ChronosGo.Slot

/-! # The scheduler

Every instance registers schedules and, while it leads, makes a `fireDue` pass
each second (`scheduler.go`).  A pass reads the clock once and then handles the
entries one after the other, each with up to three requests: `GetLastFired`,
`EnqueuePeriodic`, `SetLastFired`.  Leadership is not exclusive, so passes of
several instances may interleave in any way.

`Cluster` is the part of the store the scheduler uses, with what no instance can
see: what each process last saw, which triggers have been enqueued, and how the
last fired times have moved.
-/
namespace ChronosGo.Scheduler
open Interleaving

/-- One registered job. -/
structure ScheduleEntry where
  id : String
  kind : String
  payload : Bytes
  queue : String
  maxRetry : Nat
  noArch : Bool := false
  misfire : MisfirePolicy := .skip
  retention : Int := 0
  schedule : CronSchedule

/-- `"<schedule>:<unix>"`. -/
def triggerID (id : String) (trigger : Int) : String := id ++ ":" ++ toString (unix trigger)

/-- The task of a trigger. -/
def ScheduleEntry.message (e : ScheduleEntry) (trigger : Int) : TaskMessage where
  id := triggerID e.id trigger
  kind := e.kind
  payload := e.payload
  queue := e.queue
  maxRetry := e.maxRetry
  noArchive := e.noArch
  retention := e.retention.tdiv second

theorem colon_not_mem_int (z : Int) : ':' ∉ (toString z).toList := by
  intro h
  cases z with
  | ofNat n => exact colon_not_mem_nat n h
  | negSucc n =>
    change ':' ∈ ("-" ++ toString (n + 1)).toList at h
    rw [String.toList_append] at h
    rcases List.mem_append.mp h with h | h
    · revert h
      decide
    · exact colon_not_mem_nat _ h

theorem toString_int_injective {y z : Int} (h : toString y = toString z) : y = z := by
  have hminus : ∀ m n : Nat, toString m ≠ "-" ++ toString n := by
    intro m n h
    have hmem : '-' ∈ (toString m).toList := by
      rw [h, String.toList_append]
      exact List.mem_append_left _ (by decide)
    exact absurd (isDigit_of_mem_toString hmem) (by decide)
  cases y with
  | ofNat m =>
    cases z with
    | ofNat n => exact congrArg Int.ofNat (toString_nat_injective h)
    | negSucc n => exact absurd h (hminus m (n + 1))
  | negSucc m =>
    cases z with
    | ofNat n => exact absurd h.symm (hminus n (m + 1))
    | negSucc n =>
      have hsucc : m + 1 = n + 1 := toString_nat_injective (string_append_left_cancel h)
      rw [Nat.succ.inj hsucc]

theorem toList_triggerID (id : String) (t : Int) :
    (triggerID id t).toList = id.toList ++ ':' :: (toString (unix t)).toList := by
  simp [triggerID, String.toList_append]

/-- A trigger's identifier determines its schedule and its second. -/
theorem triggerID_injective {id id' : String} {t t' : Int}
    (h : triggerID id t = triggerID id' t') : id = id' ∧ unix t = unix t' := by
  obtain ⟨hid, ht⟩ := split_last (colon_not_mem_int _) (colon_not_mem_int _)
    ((toList_triggerID id t).symm.trans ((congrArg String.toList h).trans
      (toList_triggerID id' t')))
  exact ⟨String.toList_inj.mp hid, toString_int_injective (String.toList_inj.mp ht)⟩

/-- The requests of a pass, and its look at the clock. -/
inductive Cmd where
  | now
  | getLastFired (id : String)
  | setLastFired (id : String) (time : Int)
  | enqueuePeriodic (msg : TaskMessage) (triggerID : String) (dedupTTL : Int)

/-- `none` is an error.  A last fired time may be unset; `false` answers an enqueue
that was a duplicate. -/
@[reducible] def Cmd.Reply : Cmd → Type
  | .now => Int
  | .getLastFired _ => Option (Option Int)
  | .setLastFired _ _ => Option Unit
  | .enqueuePeriodic _ _ _ => Option Bool

/-- An instance that makes a number of passes in a row. -/
structure Job where
  leaderTTL : Int
  entries : List ScheduleEntry
  passes : Nat

abbrev Routine := Prog Cmd Cmd.Reply Job

/-! ## A pass -/

def lastFiredOrInit (e : ScheduleEntry) (now : Int) : Routine Int := do
  match ← (Prog.cmd (Cmd.getLastFired e.id) : Routine (Option (Option Int))) with
  | some (some last) => return last
  | _ =>
    let _ ← Prog.cmd (.setLastFired e.id now)
    return now

def enqueueTrigger (leaderTTL : Int) (e : ScheduleEntry) (trigger : Int) :
    Routine (Option Bool) :=
  Prog.cmd (Cmd.enqueuePeriodic (e.message trigger) (triggerID e.id trigger)
    (wrap64 (10 * leaderTTL)))

/-- The loop over the triggers of an entry: whether one of them has failed. -/
def enqueueAll (leaderTTL : Int) (e : ScheduleEntry) : List Int → Bool → Routine Bool
  | [], failed => return failed
  | trigger :: fires, failed => do
    match ← enqueueTrigger leaderTTL e trigger with
    | some _ => enqueueAll leaderTTL e fires failed
    | none => enqueueAll leaderTTL e fires true

/-- The body of the loop of `fireDue`. -/
def fireEntry (leaderTTL now : Int) (e : ScheduleEntry) : Routine Unit := do
  let last ← lastFiredOrInit e now
  let due := computeFires e.schedule last now e.misfire
  let failed ← enqueueAll leaderTTL e due.1 false
  if failed = false ∧ due.2 ≠ last then
    let _ ← Prog.cmd (.setLastFired e.id due.2)
    return ()

def fireEntries (leaderTTL now : Int) : List ScheduleEntry → Routine Unit
  | [] => return ()
  | e :: es => do
    fireEntry leaderTTL now e
    fireEntries leaderTTL now es

def fireDue (leaderTTL : Int) (entries : List ScheduleEntry) : Routine Unit := do
  let now ← (Prog.cmd Cmd.now : Routine Int)
  fireEntries leaderTTL now entries

/-- Passes in a row. -/
def run (leaderTTL : Int) (entries : List ScheduleEntry) : Nat → Routine Unit
  | 0 => return ()
  | n + 1 => do
    fireDue leaderTTL entries
    run leaderTTL entries n

def Job.start (j : Job) : Routine Unit := run j.leaderTTL j.entries j.passes

/-! ## What a process has seen -/

/-- The clock of the pass, and the last fired time it works with: the schedule and
the answer of the last read that no write has followed. -/
structure View where
  now : Int := 0
  read : Option (String × Option (Option Int)) := none

def View.see (v : View) : (c : Cmd) → c.Reply → View
  | .now, t => { v with now := t }
  | .getLastFired id, r => { v with read := some (id, r) }
  | .setLastFired _ _, _ => { v with read := none }
  | .enqueuePeriodic _ _ _, _ => v

/-- The view after a history. -/
def viewOf (h : List (Event Cmd Cmd.Reply Job)) : View :=
  h.foldl (fun v e => match e with
    | .call c r => v.see c r
    | .fork _ => v) {}

@[simp] theorem viewOf_call (h : List (Event Cmd Cmd.Reply Job)) (c : Cmd) (r : c.Reply) :
    viewOf (h ++ [.call c r]) = (viewOf h).see c r := by
  simp [viewOf]

/-! ## The store -/

/-- A write of a last fired time: what was persisted before, what the writer had
read, and the clock of its pass. -/
structure LastFiredWrite where
  schedule : String
  persisted : Option Int
  read : Option (Option Int)
  now : Int

structure Cluster where
  slot : String → Slot
  /-- In whole seconds. -/
  lastFired : String → Option Int
  now : Int
  view : Nat → View
  /-- The triggers that were enqueued, by queue and trigger; newest first. -/
  enqueued : List (String × String)
  /-- The triggers whose deduplication key had expired when a process last read a last
  fired time. -/
  lapsedAtRead : Nat → List (String × String)
  /-- The first last fired time that was persisted. -/
  baseline : String → Option Int
  /-- Newest first. -/
  writes : List LastFiredWrite

namespace Cluster

def init : Cluster where
  slot := fun _ => Slot.empty
  lastFired := fun _ => none
  now := 0
  view := fun _ => {}
  enqueued := []
  lapsedAtRead := fun _ => []
  baseline := fun _ => none
  writes := []

/-- The triggers that were enqueued and whose deduplication key has expired. -/
def lapsed (w : Cluster) : List (String × String) :=
  w.enqueued.filter fun d => ((w.slot d.1).dedup d.2).isNone

/-- What a successful command of process `i` answers and does. -/
def perform (w : Cluster) (i : Nat) : (c : Cmd) → c.Reply × Cluster
  | .now => (w.now, w)
  | .getLastFired id =>
    (some ((w.lastFired id).map (· * second)),
      { w with lapsedAtRead := Function.update w.lapsedAtRead i w.lapsed })
  | .setLastFired id time =>
    (some (), { w with
      lastFired := Function.update w.lastFired id (some (unix time))
      baseline := Function.update w.baseline id ((w.baseline id).or (some (unix time)))
      writes := ⟨id, w.lastFired id, (w.view i).read.bind (fun r => r.2), (w.view i).now⟩ ::
        w.writes })
  | .enqueuePeriodic msg triggerID ttl =>
    let s := (w.slot msg.queue).enqueuePeriodic msg triggerID ttl w.now
    (some s.2, { w with
      slot := Function.update w.slot msg.queue s.1
      enqueued := if s.2 then (msg.queue, triggerID) :: w.enqueued else w.enqueued })

/-- A process has been answered. -/
def see (w : Cluster) (i : Nat) (c : Cmd) (r : c.Reply) : Cluster :=
  { w with view := Function.update w.view i ((w.view i).see c r) }

/-- Time passes, and keys expire. -/
def tick (w : Cluster) (t : Int) : Cluster :=
  { w with slot := fun q => (w.slot q).purge t, now := t }

end Cluster

/-- The answer of a command that fails; a look at the clock does not. -/
def Cmd.failed : (c : Cmd) → Option c.Reply
  | .now => none
  | .getLastFired _ => some none
  | .setLastFired _ _ => some none
  | .enqueuePeriodic _ _ _ => some none

/-- What a run may contain. -/
structure Regime where
  /-- The instances that may be started. -/
  spawn : Job → Prop
  /-- The commands a process may execute in a cluster. -/
  allow : Nat → Cmd → Cluster → Prop
  /-- Whether a command may fail without effect. -/
  faults : Prop
  /-- Whether the answer to a command may be lost. -/
  lost : Prop
  /-- Whether a process may stop for good. -/
  crash : Prop

namespace Regime
variable (g : Regime)

/-- The execution of one command by process `i`. -/
def exec (i : Nat) (c : Cmd) (w : Cluster) (r : c.Reply) (w' : Cluster) : Prop :=
  (g.allow i c w ∧ w' = (w.perform i c).2.see i c r ∧
      (r = (w.perform i c).1 ∨ g.lost ∧ c.failed = some r)) ∨
    (g.faults ∧ c.failed = some r ∧ w' = w.see i c r)

/-- All runs of a regime. -/
def machine : Machine Cmd Cmd.Reply Job Cluster where
  start := Job.start
  spawn := g.spawn
  exec := g.exec
  give := fun _ _ _ w => w
  env := fun w w' => ∃ t, w.now ≤ t ∧ w' = w.tick t
  crash := g.crash

end Regime

/-- A state of the processes and of what they share. -/
abbrev Deployment : Type := Config Cmd Cmd.Reply Job Cluster

/-- The same with what each process has seen. -/
abbrev Chronicle : Type := Trace Cmd Cmd.Reply Job Cluster

/-! ## The discipline of a pass -/

/-- The last fired time that a pass works with: what it has read, or its own clock
when it could not. -/
def View.From (v : View) (e : ScheduleEntry) (last : Int) : Prop :=
  last = v.now ∨ v.read = some (e.id, some (some last))

/-- What justifies the commands of an instance.  A trigger is enqueued only when it
is due; a last fired time is written as a baseline after a read that gave none, or
when all triggers that are due have been enqueued. -/
inductive Justified (j : Job) (h : List (Event Cmd Cmd.Reply Job)) : Cmd → Prop
  | now : Justified j h .now
  | getLastFired {e : ScheduleEntry} (he : e ∈ j.entries) : Justified j h (.getLastFired e.id)
  | baseline {e : ScheduleEntry} (he : e ∈ j.entries) {r : Option (Option Int)}
      (hr : (viewOf h).read = some (e.id, r)) (hnone : ∀ last, r ≠ some (some last)) :
      Justified j h (.setLastFired e.id (viewOf h).now)
  | enqueue {e : ScheduleEntry} (he : e ∈ j.entries) {last trigger ttl : Int}
      (hl : (viewOf h).From e last)
      (ht : trigger ∈ (computeFires e.schedule last (viewOf h).now e.misfire).1) :
      Justified j h (.enqueuePeriodic (e.message trigger) (triggerID e.id trigger) ttl)
  | advance {e : ScheduleEntry} (he : e ∈ j.entries) {last : Int} (hl : (viewOf h).From e last)
      (hne : (computeFires e.schedule last (viewOf h).now e.misfire).2 ≠ last)
      (hall : ∀ trigger ∈ (computeFires e.schedule last (viewOf h).now e.misfire).1,
        ∃ ttl b, Event.call (.enqueuePeriodic (e.message trigger) (triggerID e.id trigger) ttl)
          (some b) ∈ h) :
      Justified j h (.setLastFired e.id (computeFires e.schedule last (viewOf h).now e.misfire).2)

/-- The discipline of all instances. -/
def protocol : Discipline Cmd Cmd.Reply Job where
  call := Justified
  fork := fun _ _ _ => False
  done := fun _ _ => True

section Obeyed
variable {j : Job} {h : List (Event Cmd Cmd.Reply Job)} {e : ScheduleEntry} {now : Int}

/-- The program keeps to the discipline of job `j`, from history `h` on. -/
abbrev Keeps {α : Type} (j : Job) (S : List (Event Cmd Cmd.Reply Job) → α → Prop)
    (h : List (Event Cmd Cmd.Reply Job)) (p : Routine α) : Prop :=
  p.Follows (protocol.call j) (protocol.fork j) S h

theorem keeps_lastFiredOrInit (he : e ∈ j.entries) (hn : (viewOf h).now = now) :
    Keeps j (fun h' last => (viewOf h').now = now ∧ (viewOf h').From e last) h
      (lastFiredOrInit e now) := by
  refine ⟨.getLastFired he, fun r => ?_⟩
  have hread : ∀ r, (viewOf (h ++ [.call (.getLastFired e.id) r])).read = some (e.id, r) :=
    fun r => by rw [viewOf_call]; rfl
  have hnow : ∀ r, (viewOf (h ++ [.call (.getLastFired e.id) r])).now = now :=
    fun r => by rw [viewOf_call]; exact hn
  have hset : ∀ r, (∀ last, r ≠ some (some last)) →
      Keeps j (fun h' last => (viewOf h').now = now ∧ (viewOf h').From e last)
        (h ++ [.call (.getLastFired e.id) r])
        (.call (.setLastFired e.id now) fun _ => .pure now) := by
    intro r hr
    refine ⟨?_, fun r' => ?_⟩
    · rw [← hnow r]
      exact .baseline he (hread r) hr
    · have hnow' : (viewOf ((h ++ [.call (.getLastFired e.id) r]) ++
          [.call (.setLastFired e.id now) r'])).now = now := by
        rw [viewOf_call]
        exact hnow r
      exact ⟨hnow', Or.inl hnow'.symm⟩
  match r with
  | some (some last) => exact ⟨hnow _, Or.inr (hread _)⟩
  | some none | none => exact hset _ (fun _ h => nomatch h)

/-- The loop over the triggers asks for each of them. -/
theorem keeps_enqueueAll (he : e ∈ j.entries) {last : Int} (hl : (viewOf h).From e last)
    {fires : List Int} (hf : ∀ t ∈ fires,
      t ∈ (computeFires e.schedule last (viewOf h).now e.misfire).1) (failed : Bool) :
    Keeps j (fun h' failed' => viewOf h' = viewOf h ∧ (∀ ev ∈ h, ev ∈ h') ∧
        (failed' = false → failed = false ∧ ∀ t ∈ fires, ∃ ttl b,
          Event.call (.enqueuePeriodic (e.message t) (triggerID e.id t) ttl) (some b) ∈ h')) h
      (enqueueAll j.leaderTTL e fires failed) := by
  induction fires generalizing h failed with
  | nil => exact ⟨rfl, fun _ hev => hev, fun hfalse => ⟨hfalse, fun _ ht => nomatch ht⟩⟩
  | cons t fires ih =>
    refine ⟨.enqueue he hl (hf t List.mem_cons_self), fun r => ?_⟩
    have hview : ∀ r, viewOf (h ++ [.call (.enqueuePeriodic (e.message t) (triggerID e.id t)
        (wrap64 (10 * j.leaderTTL))) r]) = viewOf h := fun r => by
      rw [viewOf_call]
      rfl
    have hrest := fun r => ih (h := h ++ [.call (.enqueuePeriodic (e.message t)
      (triggerID e.id t) (wrap64 (10 * j.leaderTTL))) r]) (by rwa [hview])
      (by rw [hview]; exact fun t ht => hf t (List.mem_cons_of_mem _ ht))
    match r with
    | some b =>
      refine (hrest (some b) failed).mono fun h' failed' ⟨hv, hmem, hdone⟩ =>
        ⟨hv.trans (hview _), fun ev hev => hmem ev (List.mem_append_left _ hev), fun hfalse => ?_⟩
      obtain ⟨hfail, hall⟩ := hdone hfalse
      refine ⟨hfail, fun u hu => ?_⟩
      rcases List.mem_cons.mp hu with rfl | hu
      · exact ⟨_, b, hmem _ (List.mem_append_right _ List.mem_cons_self)⟩
      · exact hall u hu
    | none =>
      refine (hrest none true).mono fun h' failed' ⟨hv, hmem, hdone⟩ =>
        ⟨hv.trans (hview _), fun ev hev => hmem ev (List.mem_append_left _ hev), fun hfalse => ?_⟩
      exact absurd (hdone hfalse).1 (by decide)

theorem keeps_fireEntry (he : e ∈ j.entries) (hn : (viewOf h).now = now) :
    Keeps j (fun h' _ => (viewOf h').now = now) h (fireEntry j.leaderTTL now e) := by
  refine (keeps_lastFiredOrInit he hn).bind fun h₁ last ⟨hn₁, hl⟩ => ?_
  subst hn₁
  refine (keeps_enqueueAll he hl (fun _ ht => ht) false).bind fun h₂ failed ⟨hv, _, hdone⟩ => ?_
  rw [← hv] at hl hdone ⊢
  split
  · rename_i hset
    refine ⟨.advance he hl hset.2 (hdone hset.1).2, fun r => ?_⟩
    change (viewOf (h₂ ++ _)).now = _
    rw [viewOf_call]
    rfl
  · exact rfl

theorem keeps_fireEntries {es : List ScheduleEntry} (hes : ∀ e ∈ es, e ∈ j.entries)
    (hn : (viewOf h).now = now) :
    Keeps j (fun _ _ => True) h (fireEntries j.leaderTTL now es) := by
  induction es generalizing h with
  | nil => trivial
  | cons e es ih =>
    exact (keeps_fireEntry (hes e List.mem_cons_self) hn).bind fun _ _ hn' =>
      ih (fun e he => hes e (List.mem_cons_of_mem _ he)) hn'

theorem keeps_run (n : Nat) : Keeps j (fun _ _ => True) h (run j.leaderTTL j.entries n) := by
  induction n generalizing h with
  | zero => trivial
  | succ n ih =>
    have hpass : Keeps j (fun _ _ => True) h (fireDue j.leaderTTL j.entries) := by
      refine ⟨.now, fun t => keeps_fireEntries (fun _ he => he) ?_⟩
      rw [viewOf_call]
      rfl
    exact hpass.bind fun _ _ _ => ih

end Obeyed

/-- **Every instance keeps to the protocol.** -/
theorem obeys_protocol (g : Regime) : g.machine.Obeys protocol := fun j => keeps_run j.passes

/-! ## Views and histories agree -/

/-- The history of process `i`, empty before it starts. -/
def histOf (t : Chronicle) (i : Nat) : List (Event Cmd Cmd.Reply Job) :=
  (t.procs[i]?.map Proc.hist).getD []

theorem histOf_eq {t : Chronicle} {i : Nat} {p : Proc Cmd Cmd.Reply Job}
    (hp : t.procs[i]? = some p) : histOf t i = p.hist := by
  simp [histOf, hp]

/-- The view of each process is the one its history gives. -/
def Tied (t : Chronicle) : Prop :=
  ∀ i, t.world.view i = viewOf (histOf t i)

@[simp] theorem Cluster.view_perform (w : Cluster) (i : Nat) (c : Cmd) :
    (w.perform i c).2.view = w.view := by
  cases c <;> rfl

/-- A command changes only the view of its process, as its answer says. -/
theorem Regime.view_exec {g : Regime} {i : Nat} {c : Cmd} {w w' : Cluster} {r : c.Reply}
    (he : g.exec i c w r w') :
    w'.view = Function.update w.view i ((w.view i).see c r) := by
  rcases he with ⟨-, rfl, -⟩ | ⟨-, -, rfl⟩
  · simp [Cluster.see]
  · rfl

theorem viewOf_eq (h : List (Event Cmd Cmd.Reply Job)) : viewOf h = Trace.viewOf View.see {} h := by
  unfold viewOf Trace.viewOf
  congr 1
  funext v e
  cases e <;> rfl

theorem tied_iff {t : Chronicle} :
    Tied t ↔ Trace.Tied View.see {} Cluster.view t := by
  simp only [Tied, Trace.Tied, viewOf_eq, histOf, Trace.histOf]

theorem tied_act {g : Regime} {s t : Chronicle} (h : Tied s)
    (ha : g.machine.Act protocol s t) : Tied t := by
  refine tied_iff.mpr ((tied_iff.mp h).act ha (fun i c r he => Regime.view_exec he)
    (fun _ _ _ _ => rfl) ?_)
  rintro w w' ⟨now, -, rfl⟩
  rfl

theorem tied_init (js : List Job) : Tied ⟨Cluster.init, js.map fun j => ⟨j, []⟩⟩ := by
  intro i
  cases hj : js[i]? <;> simp [histOf, hj, Cluster.init, viewOf]

/-! ## Enqueued triggers -/

/-- The script enqueues only a trigger without a deduplication key. -/
theorem dedup_of_enqueuePeriodic {s : Slot} {msg : TaskMessage} {tid : String} {ttl now : Int}
    (h : (s.enqueuePeriodic msg tid ttl now).2 = true) : (s.dedup tid).isNone := by
  unfold Slot.enqueuePeriodic at h
  split at h
  · cases h
  · rename_i hnone
    simpa using hnone

/-- Only the trigger's own deduplication key changes. -/
theorem dedup_enqueuePeriodic_of_ne {s : Slot} {msg : TaskMessage} {tid x : String} {ttl now : Int}
    (h : x ≠ tid) : (s.enqueuePeriodic msg tid ttl now).1.dedup x = s.dedup x := by
  unfold Slot.enqueuePeriodic
  split
  · rfl
  · exact Function.update_of_ne h _ _

/-- Only an enqueue adds to what has been enqueued, and what it adds had no
deduplication key. -/
theorem enqueued_exec {g : Regime} {i : Nat} {c : Cmd} {w w' : Cluster} {r : c.Reply}
    (he : g.exec i c w r w') : w'.enqueued = w.enqueued ∨ ∃ msg tid ttl,
      c = .enqueuePeriodic msg tid ttl ∧ g.allow i c w ∧ ((w.slot msg.queue).dedup tid).isNone ∧
      w'.enqueued = (msg.queue, tid) :: w.enqueued := by
  rcases he with ⟨ha, rfl, -⟩ | ⟨-, -, rfl⟩
  · cases c with
    | enqueuePeriodic msg tid ttl =>
      by_cases hok : ((w.slot msg.queue).enqueuePeriodic msg tid ttl w.now).2 = true
      · refine Or.inr ⟨msg, tid, ttl, rfl, ha, dedup_of_enqueuePeriodic hok, ?_⟩
        simp [Cluster.see, Cluster.perform, hok]
      · exact Or.inl (by simp [Cluster.see, Cluster.perform, hok])
    | now | getLastFired | setLastFired => exact Or.inl rfl
  · exact Or.inl rfl

/-! ## Replaying a run -/

/-- The answer to a command of process `i` that passes the check `allowed`, or that
fails without effect. -/
def answer (allowed : Nat → Cmd → Cluster → Bool) (faults ok : Bool) (i : Nat) (c : Cmd)
    (w : Cluster) : Option (c.Reply × Cluster) :=
  if ok then
    if allowed i c w then
      some ((w.perform i c).1, (w.perform i c).2.see i c (w.perform i c).1)
    else none
  else if faults then c.failed.map fun r => (r, w.see i c r)
  else none

def player (allowed : Nat → Cmd → Cluster → Bool) (faults : Bool) :
    Player Cmd Cmd.Reply Job Cluster Bool Int where
  start := Job.start
  give := fun _ _ _ w => w
  answer := answer allowed faults
  env := fun t w => if w.now ≤ t then some (w.tick t) else none

theorem player_sound {g : Regime} {allowed : Nat → Cmd → Cluster → Bool} (faults : Bool)
    (hallow : ∀ i c w, allowed i c w = true → g.allow i c w) (hfaults : faults = true → g.faults) :
    (player allowed faults).Sound g.machine where
  start := rfl
  give := rfl
  answer := fun ok i c w a h => by
    simp only [player, answer] at h
    split at h
    · split at h
      · rename_i hok
        cases h
        exact Or.inl ⟨hallow i c w hok, rfl, Or.inl rfl⟩
      · cases h
    · split at h
      · rename_i hf
        obtain ⟨r, hr, rfl⟩ := Option.map_eq_some_iff.mp h
        exact Or.inr ⟨hfaults hf, hr, rfl⟩
      · cases h
  env := fun t w w' h => by
    simp only [player] at h
    split at h
    · rename_i hle
      cases h
      exact ⟨t, hle, rfl⟩
    · cases h

end ChronosGo.Scheduler
