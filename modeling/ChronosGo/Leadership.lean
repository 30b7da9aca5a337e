import ChronosGo.Lease
import ChronosGo.Registry
import ChronosGo.Scheduler

/-! # The leader of the schedulers

Every scheduler runs `Scheduler.run` in a goroutine of its own: it asks for
leadership when it starts, each time its renew ticker fires and when a leader has
resigned, and makes a `fireDue` pass each second while its own flag says that it
leads (`scheduler.go`).  Leadership is a key with an expiry, taken and extended by one
script and given up by another (`internal/rdb/leader.go`).  `Shutdown` runs in any
other goroutine, at any time: it cancels the context of `run`, resigns, and waits.

Between an election and the flag, and between the check of the context and the
election, anything can happen; requests fail, answers get lost, and a scheduler may
stop for good.  What a pass does is the subject of `Scheduler` and `Registry`; here
their requests may be answered in any way.
-/
namespace ChronosGo.Leadership
open Interleaving Lease
open Slot (ttlMillis)

/-- A registered schedule. -/
structure Entry extends Scheduler.ScheduleEntry where
  spec : String

structure Scheduler where
  /-- The field `instance`. -/
  id : String
  leaderTTL : Int
  entries : List Entry

def newScheduler (id : String) (leaderTTL : Int) (entries : List Entry) : Scheduler :=
  ⟨id, if leaderTTL ≤ 0 then 5 * second else leaderTTL, entries⟩

def Scheduler.scheduleMetas (s : Scheduler) : List Registry.ScheduleEntry :=
  s.entries.map fun e => ⟨e.id, e.kind, e.queue, e.spec⟩

def Scheduler.scheduleIDs (s : Scheduler) : List String := s.entries.map fun e => e.id

def Scheduler.renewEvery (s : Scheduler) : Int := min (s.leaderTTL.tdiv 2) (20 * second)

/-- What wakes the `select` of `run`. -/
inductive Wake where
  | done
  | renew
  | resign
  | tick
deriving DecidableEq

/-- What the goroutines of a scheduler do with what they share.  The names are those of
the source; `start` is the part of `Start` that sets `cancel` and adds to the wait
group. -/
inductive Instr where
  | start (id : String)
  | select (id : String)
  | ctxErr (id : String)
  | acquireOrRenew (id : String) (ttl : Int)
  | swapLeader (id : String)
  | storeLeader (id : String)
  | loadLeader (id : String)
  | wgDone (id : String)
  | cancel (id : String)
  | resign (id : String)
  | publish (id : String)
  | wait (id : String)
  | registry (c : Registry.Cmd)
  | pass (id : String) (c : ChronosGo.Scheduler.Cmd)

/-- `none` is an error.  The context answers whether it is cancelled, `wait` whether
`run` has returned rather than the caller's patience come to an end. -/
@[reducible] def Instr.Reply : Instr → Type
  | .select _ => Wake
  | .ctxErr _ => Bool
  | .acquireOrRenew _ _ => Option Bool
  | .swapLeader _ => Bool
  | .loadLeader _ => Bool
  | .resign _ => Option Unit
  | .publish _ => Option Unit
  | .wait _ => Bool
  | .registry c => c.Reply
  | .pass _ c => c.Reply
  | .start _ | .storeLeader _ | .wgDone _ | .cancel _ => Unit

/-- The goroutines: one that calls `Start` and goes on with `run`, for some number of
turns of its loop, and one that calls `Shutdown`. -/
inductive Job where
  | run (s : Scheduler) (turns : Nat)
  | shutdown (s : Scheduler)
  | registry (j : Registry.Job)
  | pass (id : String) (j : ChronosGo.Scheduler.Job)

abbrev Thread := Prog Instr Instr.Reply Job

/-- One instruction. -/
def exec (c : Instr) : Thread c.Reply := Prog.cmd c

/-- A part that works on the registry. -/
def registry (p : Registry.Routine Unit) : Thread Unit :=
  p.embed Instr.registry (fun _ r => r) Job.registry

/-- A part of a pass. -/
def pass (id : String) (p : ChronosGo.Scheduler.Routine Unit) : Thread Unit :=
  p.embed (Instr.pass id) (fun _ r => r) (Job.pass id)

namespace Scheduler
variable (s : Scheduler)

def tryElect : Thread Unit := do
  if ← exec (.ctxErr s.id) then return ()
  else
    match ← exec (.acquireOrRenew s.id s.leaderTTL) with
    | none => return ()
    | some true =>
      let _ ← exec (.swapLeader s.id)
      return ()
    | some false => exec (.storeLeader s.id)

def fireDue : Thread Unit :=
  pass s.id (ChronosGo.Scheduler.fireDue s.leaderTTL (s.entries.map Entry.toScheduleEntry))

/-- The loop of `run`, for some number of turns. -/
def loop : Nat → Thread Unit
  | 0 => return ()
  | turns + 1 => do
    match ← exec (.select s.id) with
    | .done => exec (.wgDone s.id)
    | .renew =>
      s.tryElect
      registry (Registry.touchSchedules s.scheduleIDs)
      registry (Registry.pruneRegistry s.scheduleMetas)
      loop turns
    | .resign =>
      s.tryElect
      loop turns
    | .tick =>
      if ← exec (.loadLeader s.id) then
        s.fireDue
        loop turns
      else loop turns

def run (turns : Nat) : Thread Unit := do
  s.tryElect
  s.loop turns

/-- `Start`, and then `run`. -/
def start (turns : Nat) : Thread Unit := do
  registry (Registry.registerSchedules s.scheduleMetas)
  registry (Registry.pruneRegistry s.scheduleMetas)
  exec (.start s.id)
  s.run turns

def resignLeadership : Thread Unit := do
  match ← exec (.resign s.id) with
  | none => return ()
  | some _ =>
    let _ ← exec (.publish s.id)
    return ()

def shutdown : Thread Unit := do
  exec (.cancel s.id)
  if ← exec (.loadLeader s.id) then s.resignLeadership
  let _ ← exec (.wait s.id)
  return ()

end Scheduler

def Job.start : Job → Thread Unit
  | run s turns => s.start turns
  | shutdown s => s.shutdown
  | registry j => Leadership.registry j.start
  | pass id j => Leadership.pass id j.start

/-! ## The store and the flags -/

/-- What has been done for a scheduler. -/
inductive Deed where
  | started
  /-- An election that Redis has executed: when, for how long, with which outcome, and
  whether the scheduler was told. -/
  | election (time ttl : Int) (won answered : Bool)
  | resignation
  | cancellation
  | pass
  /-- `Shutdown` has returned without an error. -/
  | stopped
deriving DecidableEq

/-- What the goroutines of a scheduler share: its flag, whether `cancel` is set, its
context and its wait group.  `log` is a record of what was done for it, the newest
first. -/
structure Fields where
  isLeader : Bool := false
  started : Bool := false
  cancelled : Bool := false
  wg : Nat := 0
  log : List Deed := []

def Fields.record (f : Fields) (d : Deed) : Fields := { f with log := d :: f.log }

/-- The key, the clock, and the fields of each scheduler. -/
structure World where
  leader : Option (Held String) := none
  now : Int := 0
  fields : String → Fields := fun _ => {}

namespace World

def modify (w : World) (id : String) (f : Fields → Fields) : World :=
  { w with fields := Function.update w.fields id (f (w.fields id)) }

/-- An election, as the script decides it. -/
def elect (w : World) (id : String) (ttl : Int) (answered : Bool) : World :=
  { w with leader := (acquire w.leader id w.now (ttlMillis ttl)).2 }.modify id (·.record
    (.election w.now ttl (acquire w.leader id w.now (ttlMillis ttl)).1 answered))

/-- The context of `run` is cancelled. -/
def cancelRun (w : World) (id : String) : World :=
  w.modify id fun f => { f with cancelled := true }.record .cancellation

def resign (w : World) (id : String) : World :=
  { w with leader := release w.leader id w.now }.modify id (·.record .resignation)

/-- What an instruction may answer, and do.  A request may fail before or after it was
executed. -/
def Exec (w : World) : (c : Instr) → c.Reply → World → Prop
  | .start id, _, w' =>
    w' = w.modify id fun f => { f with started := true, wg := f.wg + 1 }.record .started
  | .select id, wake, w' => (wake = .done → (w.fields id).cancelled = true) ∧ w' = w
  | .ctxErr id, err, w' => err = (w.fields id).cancelled ∧ w' = w
  | .acquireOrRenew id ttl, r, w' =>
    (r = some (acquire w.leader id w.now (ttlMillis ttl)).1 ∧ w' = w.elect id ttl true) ∨
      (r = none ∧ (w' = w.elect id ttl false ∨ w' = w))
  | .swapLeader id, was, w' =>
    was = (w.fields id).isLeader ∧ w' = w.modify id fun f => { f with isLeader := true }
  | .storeLeader id, _, w' => w' = w.modify id fun f => { f with isLeader := false }
  | .loadLeader id, b, w' => b = (w.fields id).isLeader ∧ w' = w
  | .wgDone id, _, w' => w' = w.modify id fun f => { f with wg := f.wg - 1 }
  | .cancel id, _, w' => w' = if (w.fields id).started then w.cancelRun id else w
  | .resign id, r, w' => w' = w.resign id ∨ r = none ∧ w' = w
  | .wait id, done, w' =>
    (done = true ∧ (w.fields id).wg = 0 ∧ w' = w.modify id (·.record .stopped)) ∨
      (done = false ∧ w' = w)
  | .pass id _, _, w' => w' = w.modify id (·.record .pass)
  | .publish _, _, w' | .registry _, _, w' => w' = w

/-- Time passes, or somebody cancels the context that `Start` was given. -/
def Env (timely : World → Int → Prop) (w w' : World) : Prop :=
  (∃ t, w.now ≤ t ∧ timely w t ∧ w' = { w with now := t }) ∨ ∃ id, w' = w.cancelRun id

end World

/-- Any number of schedulers at work; `timely` says how much time may pass. -/
def machine (timely : World → Int → Prop) : Machine Instr Instr.Reply Job World where
  start := Job.start
  spawn := fun _ => False
  exec := fun _ c w r w' => w.Exec c r w'
  give := fun _ _ _ w => w
  env := World.Env timely
  crash := True

/-- The goroutines of some schedulers. -/
def jobs (ss : List Scheduler) (turns : Scheduler → Nat) : List Job :=
  ss.map (fun s => .run s (turns s)) ++ ss.map .shutdown

/-- Schedulers that are started, each shut down at some time. -/
def boot (timely : World → Int → Prop) (ss : List Scheduler) (turns : Scheduler → Nat) :
    Config Instr Instr.Reply Job World :=
  (machine timely).boot {} (jobs ss turns)

/-! ## What the record says -/

/-- When the term of a scheduler ends, if it has one: the last election it won gave it,
and nothing but its resignation takes it back. -/
def term : List Deed → Option Int
  | [] => none
  | .election t ttl true _ :: _ => some (t + ttlMillis ttl)
  | .resignation :: _ => none
  | _ :: l => term l

/-- The answer to the last election that was answered. -/
def lastAnswer : List Deed → Option Bool
  | [] => none
  | .election _ _ won true :: _ => some won
  | _ :: l => lastAnswer l

def Deed.isElection : Deed → Bool
  | .election _ _ _ _ => true
  | _ => false

/-- The elections after a cancellation. -/
def lateElections : List Deed → Nat
  | [] => 0
  | d :: l => lateElections l + if d.isElection = true ∧ Deed.cancellation ∈ l then 1 else 0

/-- The terms of all schedulers, as the record has them. -/
def World.terms (w : World) : Terms String := fun id => term (w.fields id).log

/-! ## At most one term is running -/

section Terms
variable {w w' : World} {id : String}

/-- A term is never empty. -/
theorem ttlMillis_pos (ttl : Int) : 0 < ttlMillis ttl := by
  unfold ttlMillis
  omega

theorem terms_modify (w : World) (id : String) (f : Fields → Fields) :
    (w.modify id f).terms = Function.update w.terms id (term (f (w.fields id)).log) := by
  funext j
  by_cases hj : j = id
  · subst hj
    simp [World.terms, World.modify]
  · simp [World.terms, World.modify, Function.update_of_ne hj]

/-- Most of what is done has nothing to do with terms. -/
theorem terms_modify_of_eq {f : Fields → Fields}
    (hf : term (f (w.fields id)).log = term (w.fields id).log) :
    (w.modify id f).terms = w.terms := by
  rw [terms_modify, hf]
  exact Function.update_eq_self id w.terms

/-- The key and the terms, after an election. -/
theorem agrees_elect (h : Agrees w.leader w.terms w.now) (ttl : Int) (answered : Bool) :
    Agrees (w.elect id ttl answered).leader (w.elect id ttl answered).terms w.now := by
  rw [World.elect, terms_modify]
  change Agrees (acquire w.leader id w.now (ttlMillis ttl)).2 (Function.update w.terms id _) w.now
  cases hwon : (acquire w.leader id w.now (ttlMillis ttl)).1 with
  | true => exact h.granted hwon
  | false =>
    have hterm : Function.update w.terms id
        (term (.election w.now ttl false answered :: (w.fields id).log)) = w.terms :=
      Function.update_eq_self id w.terms
    change Agrees _ (Function.update w.terms id
      (term (.election w.now ttl false answered :: (w.fields id).log))) w.now
    rw [hterm]
    exact h.refused hwon

theorem agrees_exec {c : Instr} {r : c.Reply} (h : Agrees w.leader w.terms w.now)
    (he : w.Exec c r w') : Agrees w'.leader w'.terms w'.now := by
  -- an instruction that writes neither the key nor an election or a resignation
  have hmodify : ∀ {id : String} {f : Fields → Fields},
      term (f (w.fields id)).log = term (w.fields id).log →
      Agrees (w.modify id f).leader (w.modify id f).terms (w.modify id f).now := by
    intro id f hf
    rw [terms_modify_of_eq hf]
    exact h
  cases c with
  | start id | storeLeader id | wgDone id | pass id c =>
    subst he
    exact hmodify rfl
  | acquireOrRenew id ttl =>
    rcases he with ⟨-, rfl⟩ | ⟨-, rfl | rfl⟩
    · exact agrees_elect h ttl true
    · exact agrees_elect h ttl false
    · exact h
  | swapLeader id =>
    obtain ⟨-, rfl⟩ := he
    exact hmodify rfl
  | cancel id =>
    subst he
    split
    · exact hmodify rfl
    · exact h
  | resign id =>
    rcases he with rfl | ⟨-, rfl⟩
    · rw [World.resign, terms_modify]
      exact h.released
    · exact h
  | wait id =>
    rcases he with ⟨-, -, rfl⟩ | ⟨-, rfl⟩
    · exact hmodify rfl
    · exact h
  | select id | ctxErr id | loadLeader id =>
    obtain ⟨-, rfl⟩ := he
    exact h
  | publish id | registry c =>
    subst he
    exact h

/-- In every state that can be reached, the key names the scheduler whose term is
running. -/
theorem agrees_of_reachable {timely : World → Int → Prop} {ss : List Scheduler}
    {turns : Scheduler → Nat} {d : Config Instr Instr.Reply Job World}
    (hr : (machine timely).Reachable (boot timely ss turns) d) :
    Agrees d.world.leader d.world.terms d.world.now := by
  refine hr.world_invariant (agrees_none 0) (fun _ _ _ _ _ h he => agrees_exec h he)
    (fun _ _ _ _ h => h) fun w w' h he => ?_
  rcases he with ⟨t, ht, -, rfl⟩ | ⟨id, rfl⟩
  · exact h.later ht
  · rw [World.cancelRun, terms_modify_of_eq rfl]
    exact h

/-- **Elections.**  At most one scheduler has a term that is running, and it is the one
the key names.  An election that is answered makes the scheduler leader if no other one
has a running term, and only then: nobody is replaced before its term ends, and a leader
that is gone or has resigned stands in nobody's way after that. -/
theorem elections_grant_one_term {timely : World → Int → Prop} {ss : List Scheduler}
    {turns : Scheduler → Nat} {d : Config Instr Instr.Reply Job World}
    (hr : (machine timely).Reachable (boot timely ss turns) d) :
    (∀ id, holder d.world.leader d.world.now = some id ↔ d.world.terms.Running d.world.now id) ∧
      (∀ id id', d.world.terms.Running d.world.now id → d.world.terms.Running d.world.now id' →
        id = id') ∧
      ∀ id ttl won w', d.world.Exec (.acquireOrRenew id ttl) (some won) w' →
        (won = true ↔ ∀ id', d.world.terms.Running d.world.now id' → id' = id) ∧
          (won = true → w'.terms.Running w'.now id) := by
  have hagree := agrees_of_reachable hr
  refine ⟨fun id => hagree.holder_iff, fun id id' => hagree.exclusive, ?_⟩
  intro id ttl won w' he
  have hwon : won = (acquire d.world.leader id d.world.now (ttlMillis ttl)).1 ∧
      w' = d.world.elect id ttl true := by
    rcases he with ⟨hwon, rfl⟩ | ⟨hwon, -⟩
    · exact ⟨Option.some.inj hwon, rfl⟩
    · cases hwon
  obtain ⟨rfl, rfl⟩ := hwon
  refine ⟨hagree.acquire_iff _, fun hwon => ⟨d.world.now + ttlMillis ttl, ?_, ?_⟩⟩
  · rw [World.elect, terms_modify, Function.update_self, hwon]
    rfl
  · have hpos := ttlMillis_pos ttl
    change d.world.now < _
    omega

end Terms

/-! Runs to look at: every request succeeds, a choice says what wakes a loop. -/

/-- A success of an instruction. -/
def answer (wake : Wake) (w : World) : (c : Instr) → Option (c.Reply × World)
  | .start id =>
    some ((), w.modify id fun f => { f with started := true, wg := f.wg + 1 }.record .started)
  | .select id => if wake = .done ∧ (w.fields id).cancelled = false then none else some (wake, w)
  | .ctxErr id => some ((w.fields id).cancelled, w)
  | .acquireOrRenew id ttl =>
    some (some (acquire w.leader id w.now (ttlMillis ttl)).1, w.elect id ttl true)
  | .swapLeader id =>
    some ((w.fields id).isLeader, w.modify id fun f => { f with isLeader := true })
  | .storeLeader id => some ((), w.modify id fun f => { f with isLeader := false })
  | .loadLeader id => some ((w.fields id).isLeader, w)
  | .wgDone id => some ((), w.modify id fun f => { f with wg := f.wg - 1 })
  | .cancel id => some ((), if (w.fields id).started then w.cancelRun id else w)
  | .resign id => some (some (), w.resign id)
  | .publish _ => some (some (), w)
  | .wait id =>
    if (w.fields id).wg = 0 then some (true, w.modify id (·.record .stopped)) else none
  | .registry .now => some (w.now, w)
  | .registry (.hSet _) => some (some (), w)
  | .registry (.hMGet _) => some (none, w)
  | .registry .hGetAll => some (some [], w)
  | .registry (.hDel _) => some (some (), w)
  | .registry (.delLastFired _) => some (some (), w)
  | .pass id .now => some (w.now, w.modify id (·.record .pass))
  | .pass id (.getLastFired _) => some (none, w.modify id (·.record .pass))
  | .pass id (.setLastFired _ _) => some (none, w.modify id (·.record .pass))
  | .pass id (.enqueuePeriodic _ _ _) => some (none, w.modify id (·.record .pass))

def player (timely : World → Int → Bool) : Player Instr Instr.Reply Job World Wake Int where
  start := Job.start
  give := fun _ _ _ w => w
  answer := fun wake _ c w => answer wake w c
  env := fun t w => if w.now ≤ t ∧ timely w t = true then some { w with now := t } else none

theorem player_sound (timely : World → Int → Bool) (timely' : World → Int → Prop)
    (htimely : ∀ w t, timely w t = true → timely' w t) :
    (player timely).Sound (machine timely') where
  start := rfl
  give := rfl
  answer := fun wake i c w a h => by
    change answer wake w c = some a at h
    change w.Exec c a.1 a.2
    cases c with
    | select id =>
      simp only [answer] at h
      split at h
      · cases h
      · rename_i hdone
        cases h
        exact ⟨fun hwake => by simpa using fun hc => hdone ⟨hwake, hc⟩, rfl⟩
    | wait id =>
      simp only [answer] at h
      split at h
      · rename_i hwg
        cases h
        exact Or.inl ⟨rfl, hwg, rfl⟩
      · cases h
    | registry c | pass _ c =>
      cases c <;> cases h <;> exact rfl
    | acquireOrRenew id ttl =>
      cases h
      exact Or.inl ⟨rfl, rfl⟩
    | resign id =>
      cases h
      exact Or.inl rfl
    | ctxErr id | swapLeader id | loadLeader id =>
      cases h
      exact ⟨rfl, rfl⟩
    | _ =>
      cases h
      exact rfl
  env := fun t w w' h => by
    change (if w.now ≤ t ∧ timely w t = true then some { w with now := t } else none) = some w' at h
    split at h
    · rename_i ht
      cases h
      exact Or.inl ⟨t, ht.1, htimely w t ht.2, rfl⟩
    · cases h

/-- A scheduler without schedules. -/
def sampleScheduler (id : String) : Scheduler := newScheduler id 0 []

/-- The steps of `Start` and of the first election, without a schedule. -/
def sampleStart (i : Nat) : List (Choice Wake Int Job) := List.replicate 6 (.step i .tick)

/-- The second of two schedulers is refused while the term of the first is running, and
gets one when that is over. -/
theorem term_of_each_in_turn :
    (∃ d, (machine fun _ _ => True).Reachable
        (boot (fun _ _ => True) [sampleScheduler "a", sampleScheduler "b"] fun _ => 1) d ∧
      (d.world.fields "b").log = [.election 0 (5 * second) false true, .started] ∧
      ∀ id, d.world.terms.Running d.world.now id → id = "a") ∧
    ∃ d, (machine fun _ _ => True).Reachable
        (boot (fun _ _ => True) [sampleScheduler "a", sampleScheduler "b"] fun _ => 1) d ∧
      d.world.now = 5 * second ∧ holder d.world.leader d.world.now = some "b" ∧
      ∀ id, d.world.terms.Running d.world.now id → id = "b" := by
  have hsound := player_sound (fun _ _ => true) (fun _ _ => True) fun _ _ _ => trivial
  constructor
  · obtain ⟨d, hr, hd⟩ := hsound.exists_reachable (sampleStart 0 ++ sampleStart 1) trivial
      (boot (fun _ _ => True) [sampleScheduler "a", sampleScheduler "b"] fun _ => 1)
      (fun w => decide ((w.fields "b").log = [.election 0 (5 * second) false true, .started] ∧
        holder w.leader w.now = some "a")) (by decide +kernel)
    obtain ⟨hlog, hholder⟩ := of_decide_eq_true hd
    obtain ⟨hiff, hone, -⟩ := elections_grant_one_term hr
    exact ⟨d, hr, hlog, fun id hid => hone id "a" hid ((hiff "a").mp hholder)⟩
  · obtain ⟨d, hr, hd⟩ := hsound.exists_reachable
      (sampleStart 0 ++ (.env (5 * second) :: sampleStart 1)) trivial
      (boot (fun _ _ => True) [sampleScheduler "a", sampleScheduler "b"] fun _ => 1)
      (fun w => decide (w.now = 5 * second ∧ holder w.leader w.now = some "b"))
      (by decide +kernel)
    obtain ⟨hnow, hholder⟩ := of_decide_eq_true hd
    obtain ⟨hiff, hone, -⟩ := elections_grant_one_term hr
    exact ⟨d, hr, hnow, hholder, fun id hid => hone id "b" hid ((hiff "b").mp hholder)⟩

end ChronosGo.Leadership
