import ChronosGo.ProtocolObeyed
import ChronosGo.Scripts

/-! # What the requests of a run can rely on

Bodies are keyed by task, acknowledgements by stream entry, and a worker holds a
copy of a body that may be out of date.  Three things nevertheless hold in every
run, with any interference:

* a body is stored under its own identifier and queue;
* an entry keeps its task: what a process was once told about an entry stays true
  for as long as the entry exists, because identifiers are never used again;
* delivered and pending entries are the same, because every acknowledgement also
  deletes the entry.

`Sane` collects them, `sane_act` proves that every step keeps them, and
`Sane.request` reads off what a request of a process may therefore assume.
-/
namespace ChronosGo
open Interleaving Redis

variable {sid : Nat} {id : String} {w : World} {k : Keys} {op : Op} {g : Regime}
  {P : World → Prop} {s t : Chronicle} {msg : TaskMessage}
  {p : Party}

/-! ## Requests from outside -/

/-- The single requests of clients, of the forwarder and janitor loops, and of
the inspector. -/
inductive Traffic : Op → Prop where
  | enqueue (msg : TaskMessage) : Traffic (.enqueue msg)
  | schedule (msg : TaskMessage) (processAt : Int) : Traffic (.schedule msg processAt)
  | enqueueUnique (msg : TaskMessage) (ttl : Int) : Traffic (.enqueueUnique msg ttl)
  | scheduleUnique (msg : TaskMessage) (processAt ttl : Int) :
      Traffic (.scheduleUnique msg processAt ttl)
  | enqueuePeriodic (msg : TaskMessage) (triggerID : String) (ttl : Int) :
      Traffic (.enqueuePeriodic msg triggerID ttl)
  | chainEnqueue (msg : TaskMessage) : Traffic (.chainEnqueue msg)
  | chainSchedule (msg : TaskMessage) (score : Int) : Traffic (.chainSchedule msg score)
  | createGroup (q gid : String) (memberIDs : List String) : Traffic (.createGroup q gid memberIDs)
  | forwardRetry (q : String) (now : Int) (max : Nat) :
      Traffic (.forward q .retry (unix now * second) max)
  | forwardScheduled (q : String) (now : Int) (max : Nat) : Traffic (.forward q .scheduled now max)
  | trimArchived (q : String) (cutoff maxSize : Int) (batch : Nat) :
      Traffic (.trim q .archived (unix cutoff * second) maxSize batch)
  | trimCompleted (q : String) (now maxSize : Int) (batch : Nat) :
      Traffic (.trim q .completed (unix now * second) maxSize batch)
  | runTask (q id : String) : Traffic (.runTask q id)

/-- The jobs that are started from outside; workers are started by the fetch loop
only. -/
def Job.External : Job → Prop
  | send op => Traffic op
  | sendAll ops => ∀ op ∈ ops, Traffic op
  | work _ _ _ => False
  | _ => True

/-- The job sends requests that it was given. -/
def Job.Sends : Job → Prop
  | send _ | sendAll _ => True
  | _ => False

/-! ## Facts that last -/

/-- The entry, if it exists, refers to this task. -/
def Slot.EntryIs (s : Slot) (sid : Nat) (id : String) : Prop :=
  sid ≤ s.stream.lastId ∧ ∀ x, (sid, x) ∈ s.stream.entries → x = id

theorem Slot.EntryIs.grows {s t : Slot} (h : s.EntryIs sid id) (hg : s.stream.Grows t.stream) :
    t.EntryIs sid id := by
  refine ⟨Nat.le_trans h.1 hg.lastId_le, fun x hx => ?_⟩
  rcases hg.mem_or_newer _ hx with hx | hx
  · exact h.2 x hx
  · exact absurd (Nat.lt_of_lt_of_le hx h.1) (Nat.lt_irrefl _)

theorem Slot.entryIs_of_mem {s : Slot} (h : (sid, id) ∈ s.stream.entries) : s.EntryIs sid id :=
  ⟨s.stream.entries_le _ h, fun _ hx => s.stream.entry_unique hx h⟩

/-- What a process knows from the job it was started for. -/
def JobFact (w : World) : Job → Prop
  | .send op => Traffic op
  | .sendAll ops => ∀ op ∈ ops, Traffic op
  | .work q sid msg => (w.slot q).EntryIs sid msg.id ∧ msg.queue = q
  | _ => True

/-- What a process knows from an answer it got. -/
def EventFact (w : World) : Event Cmd Cmd.Reply Job → Prop
  | .call (.redis (.xReadGroup q _ _)) (some entries) =>
    ∀ e ∈ entries, (w.slot q).EntryIs e.1 e.2
  | .call (.redis (.xAutoClaim q _ _ _)) (some entries) =>
    ∀ e ∈ entries, (w.slot q).EntryIs e.1 e.2
  | .call (.redis (.getTask q id)) (some (some msg)) => msg.id = id ∧ msg.queue = q
  | _ => True

/-- No step makes a stream forget. -/
def StreamsGrow (w w' : World) : Prop := ∀ q, (w.slot q).stream.Grows (w'.slot q).stream

theorem JobFact.grows {w' : World} (hg : StreamsGrow w w') {j : Job} (h : JobFact w j) :
    JobFact w' j := by
  cases j with
  | work q sid msg => exact ⟨h.1.grows (hg q), h.2⟩
  | _ => exact h

theorem EventFact.grows {w' : World} (hg : StreamsGrow w w') {e : Event Cmd Cmd.Reply Job}
    (h : EventFact w e) : EventFact w' e := by
  unfold EventFact at h ⊢
  split
  · exact fun e he => (h e he).grows (hg _)
  · exact fun e he => (h e he).grows (hg _)
  · exact h
  · trivial

section World
variable {i : Nat}

theorem World.slot_perform_self : (w.perform k i op).slot op.queue = w.slotAfter k op :=
  Function.update_self ..

theorem World.slot_perform_ne {q : String} (hq : q ≠ op.queue) :
    (w.perform k i op).slot q = w.slot q := Function.update_of_ne hq ..

theorem World.slot_give (n : Nat) (j : Job) : (w.give i n j).slot = w.slot := by
  cases j <;> rfl

end World

section
variable (ha : (g.machine k).Act protocol s t) (h : P s.world)
  (hhandled : ∀ (i : Nat) p msg out, s.procs[i]? = some p → p.job.Runs p.hist msg →
    g.handler s.world msg out → P (s.world.handled msg out))
include ha h hhandled

/-- The step rule for facts about the world, with the process that sends a request as
it is afterwards. -/
theorem world_act_by
    (hop : ∀ (i : Nat) p op e, s.procs[i]? = some p → t.procs[i]? = some ⟨p.job, p.hist ++ [e]⟩ →
      p.job.Request p.hist op → g.allow i op s.world → t.world = s.world.perform k i op →
      P (s.world.perform k i op)) (hgive : ∀ i n j, P (s.world.give i n j))
    (htick : ∀ now, g.tick s.world now → P (s.world.tick now)) : P t.world := by
  cases ha with
  | @call w w' ps i p c r hp hc he =>
    rcases Regime.exec_cases he with rfl | ⟨msg, out, rfl, hh, rfl⟩ | ⟨op, rfl, hok, rfl⟩
    · exact h
    · exact hhandled i p msg out hp hc hh
    · obtain ⟨hlt, -⟩ := List.getElem?_eq_some_iff.mp hp
      exact hop i p op _ hp (List.getElem?_set_self hlt) hc hok rfl
  | fork => exact hgive _ _ _
  | spawn => exact h
  | env he =>
    obtain ⟨now, -, ht, rfl⟩ := he
    exact htick now ht

/-- **The step rule for facts about the world.**  A step does nothing to the world,
records the end of a handler, performs a request, hands over an entry, or lets time
pass. -/
theorem world_act (hop : ∀ i p op, s.procs[i]? = some p → p.job.Request p.hist op → g.allow i op
      s.world → t.world = s.world.perform k i op → P (s.world.perform k i op))
    (hgive : ∀ i n j, P (s.world.give i n j))
    (htick : ∀ now, g.tick s.world now → P (s.world.tick now)) : P t.world :=
  world_act_by ha h hhandled (fun i p op _ hp _ => hop i p op hp) hgive htick

end

/-- **The step rule for invariants of queues.**  An invariant that permitted
requests and expiry keep is kept by every step. -/
theorem slots_act {I : String → Slot → Prop} (ha : (g.machine k).Act protocol s t)
    (h : ∀ q, I q (s.world.slot q))
    (hop : ∀ i p op, s.procs[i]? = some p → p.job.Request p.hist op → g.allow i op s.world →
      I op.queue (s.world.slotAfter k op))
    (hpurge : ∀ q now, g.tick s.world now → I q ((s.world.slot q).purge now)) (q : String) :
    I q (t.world.slot q) := by
  refine world_act (P := fun w => I q (w.slot q)) ha (h q) (fun _ _ _ _ _ _ _ => h q) ?_ ?_
    fun now ht => hpurge q now ht
  · intro i p op hp hr hok _
    by_cases hq : q = op.queue
    · subst hq
      rw [World.slot_perform_self]
      exact hop i p op hp hr hok
    · rw [World.slot_perform_ne hq]
      exact h q
  · intro i n j
    rw [World.slot_give]
    exact h q

theorem streamsGrow_act (ha : (g.machine k).Act protocol s t) : StreamsGrow s.world t.world :=
  slots_act (I := fun q u => (s.world.slot q).stream.Grows u.stream) ha (fun _ => .refl _)
    (fun _ _ op _ _ _ => grows_run k s.world.now _ op) (fun _ _ _ => .refl _)

/-! ## Invariants of the store -/

/-- A body is stored under its own identifier and queue, and the stream's
accounts are in order. -/
structure Slot.WellKept (s : Slot) (q : String) : Prop where
  keyed : ∀ x m, s.body x = some m → m.id = x ∧ m.queue = q
  balanced : s.stream.Balanced

/-- Every body a request stores belongs to the queue of the request. -/
def Op.Local : Op → Prop
  | moveToZSet q _ msg _ _ => msg.queue = q
  | groupComplete q r => r.callback.queue = q
  | _ => True

section Moves
variable {s : Slot}

/-- What a request stores belongs to its queue. -/
theorem Op.Stores.queue (h : op.Stores k msg) (hl : op.Local) : msg.queue = op.queue := by
  cases h with
  | enqueue h | schedule h => cases h <;> rfl
  | create h =>
    cases h with
    | callback => exact hl
    | _ => rfl
  | move h =>
    subst h
    exact hl

theorem wellKept_run (hl : op.Local) (now : Int) (h : s.WellKept op.queue) :
    (op.run k now s).1.WellKept op.queue := by
  refine ⟨fun x m hx => ?_, ?_⟩
  · rcases body_run hx with hx | ⟨msg, st, hs, rfl, rfl⟩
    · exact h.keyed x m hx
    · exact ⟨rfl, hs.queue hl⟩
  · exact run_invariant (I := fun t => t.stream.Balanced) (fun _ _ hm => balanced_move hm) now
      h.balanced

end Moves

/-! ## What requests rely on -/

/-- The process was given this stream entry, for this task. -/
def Given (p : Party) (q : String) (sid : Nat) (id : String) : Prop :=
  match p.job with
  | .work q' sid' msg => q' = q ∧ sid' = sid ∧ msg.id = id
  | .fetch q' consumer count _ => q' = q ∧ Fetched q consumer count p.hist sid id
  | .recover q' consumer minIdle max => q' = q ∧ Claimed q consumer minIdle max p.hist sid id
  | _ => False

/-- The process found no body for the task of this entry. -/
def Orphaned (p : Party) (q : String) (sid : Nat) : Prop :=
  ∃ id, Given p q sid id ∧ Did p.hist (.getTask q id) none

/-- What a process has seen before it sends a request. -/
def Op.Justified (p : Party) : Op → Prop
  | ackOrphans q sids => ∀ sid ∈ sids, Orphaned p q sid
  | requeue q sid id | ackDelete q sid id => Given p q sid id
  | moveToZSet q sid msg z _ => Given p q sid msg.id ∧ msg.queue = q ∧ z ≠ .scheduled
  | groupComplete q r => r.callback.queue = q
  | forward _ z _ _ => z = .retry ∨ z = .scheduled
  | trim _ z _ _ _ => z = .archived ∨ z = .completed
  | _ => True

theorem Op.Justified.local (h : op.Justified p) :
    op.Local := by
  cases op with
  | moveToZSet => exact h.2.1
  | groupComplete => exact h
  | _ => trivial

/-- What holds in every run. -/
structure Sane (t : Chronicle) : Prop where
  wellKept : ∀ q, (t.world.slot q).WellKept q
  knows : t.Knows JobFact EventFact

theorem Traffic.justified (h : Traffic op) (p : Party) :
    op.Justified p := by
  cases h with
  | forwardRetry => exact Or.inl rfl
  | forwardScheduled => exact Or.inr rfl
  | trimArchived => exact Or.inl rfl
  | trimCompleted => exact Or.inr rfl
  | _ => trivial

theorem LinkOp.justified {delay : Int} (h : LinkOp msg delay op) (p : Party) :
    op.Justified p := by
  cases h <;> trivial

theorem ReportOp.justified {member : TaskMessage} (h : ReportOp member op)
    (p : Party) : op.Justified p := by
  cases h <;> rfl

namespace Sane
variable {q : String}

theorem given (h : Sane t) (hp : p ∈ t.procs) (hg : Given p q sid id) :
    (t.world.slot q).EntryIs sid id := by
  obtain ⟨hj, hh⟩ := h.knows p hp
  unfold Given at hg
  split at hg
  · rename_i hjob
    obtain ⟨rfl, rfl, rfl⟩ := hg
    rw [hjob] at hj
    exact hj.1
  · obtain ⟨-, entries, hd, hm⟩ := hg
    exact hh _ hd (sid, id) hm
  · obtain ⟨-, entries, hd, hm⟩ := hg
    exact hh _ hd (sid, id) hm
  · exact hg.elim

theorem loaded (h : Sane t) (hp : p ∈ t.procs) {m : TaskMessage}
    (hd : Did p.hist (.getTask q id) (some m)) : m.id = id ∧ m.queue = q :=
  (h.knows p hp).2 _ hd

/-- What clients send comes from outside. -/
theorem traffic (h : Sane t) (hp : p ∈ t.procs) (hj : p.job.Sends) (hr : p.job.Request p.hist op) :
    Traffic op := by
  have hjob := (h.knows p hp).1
  obtain ⟨job, hist⟩ := p
  cases job with
  | send o =>
    obtain rfl := List.mem_singleton.mp (List.mem_of_getElem? hr.next)
    exact hjob
  | sendAll ops => exact hjob op (List.mem_of_getElem? hr.next)
  | _ => exact hj.elim

/-- **What a process has seen justifies its requests.** -/
theorem request (h : Sane t) (hp : p ∈ t.procs) (hr : p.job.Request p.hist op) :
    op.Justified p := by
  obtain ⟨job, hist⟩ := p
  have hj := (h.knows _ hp).1
  cases job with
  | send | sendAll => exact (h.traffic hp trivial hr).justified _
  | deleteTask q id => cases hr <;> trivial
  | fetch q consumer count keep =>
    cases hr with
    | read | load | mark => trivial
    | orphans ho =>
      intro sid hs
      obtain ⟨id, hf, hd⟩ := ho sid hs
      exact ⟨id, ⟨rfl, hf⟩, hd⟩
    | requeue hl =>
      obtain ⟨id, hf, hd⟩ := hl
      obtain ⟨rfl, rfl⟩ := h.loaded hp hd
      exact ⟨rfl, hf⟩
  | work q sid msg =>
    have hq : msg.queue = q := hj.2
    cases hr with
    | link _ _ _ ho => exact ho.justified _
    | stage | pending | drainState | drainGet => trivial
    | member _ _ _ _ _ ho => exact ho.justified _
    | drain _ _ ho | report _ _ _ ho => exact ho.justified _
    | retain | archive | retry =>
      refine ⟨⟨rfl, rfl, ?_⟩, ?_, by decide⟩
      · simp
      · simpa using hq
    | delete | discard => exact ⟨rfl, rfl, rfl⟩
    | release => trivial
  | recover q consumer minIdle max =>
    cases hr with
    | claim | load | release => trivial
    | orphan hc hb =>
      intro sid hs
      rw [List.mem_singleton.mp hs]
      exact ⟨_, ⟨rfl, hc⟩, hb⟩
    | archive hc | retry hc =>
      obtain ⟨id, hf, hd⟩ := hc
      obtain ⟨rfl, hq⟩ := h.loaded hp hd
      exact ⟨⟨rfl, hf⟩, hq, by decide⟩

theorem init : Sane ⟨World.init, []⟩ where
  wellKept := fun _ => ⟨fun _ _ h => (nomatch h), Stream.balanced_empty⟩
  knows := fun _ hp => absurd hp List.not_mem_nil

end Sane

/-- **Every step keeps the store sane**, in every regime that starts workers only
through the fetch loop. -/
theorem sane_act (hg : ∀ j, g.spawn j → j.External) (hs : Sane s)
    (ha : (g.machine k).Act protocol s t) :
    Sane t := by
  have hgrow := streamsGrow_act ha
  refine ⟨?_, hs.knows.act ha (fun _ => JobFact.grows hgrow) (fun _ => EventFact.grows hgrow)
    ?_ ?_ ?_⟩
  · exact slots_act (I := fun q u => u.WellKept q) ha hs.wellKept
      (fun i p op hp hr _ =>
        wellKept_run (hs.request (List.mem_of_getElem? hp) hr).local _ (hs.wellKept _))
      (fun q _ _ => ⟨(hs.wellKept q).keyed, (hs.wellKept q).balanced⟩)
  · -- the fact that comes with an answer
    intro i p c r hp hc he
    unfold EventFact
    split
    all_goals first | trivial | (rename_i heq; cases heq)
    · obtain ⟨-, -, rfl⟩ := Regime.exec_answered he
      exact fun e hm => (Slot.entryIs_of_mem
        ((Stream.nextEntries_sublist _ _).subset hm)).grows (hgrow _)
    · obtain ⟨-, -, rfl⟩ := Regime.exec_answered he
      exact fun e hm => (Slot.entryIs_of_mem (List.mem_filter.mp hm).1).grows (hgrow _)
    · obtain ⟨-, -, hr⟩ := Regime.exec_answered he
      exact (hs.wellKept _).keyed _ _ hr.symm
  · -- a worker is started for an entry its fetch round was given
    intro i p j hp hf
    refine ⟨trivial, ?_⟩
    have hmem := List.mem_of_getElem? hp
    obtain ⟨job, hist⟩ := p
    cases job with
    | fetch q consumer count keep =>
      cases hf with
      | work hl =>
        obtain ⟨id, hfe, hd⟩ := hl
        obtain ⟨rfl, rfl⟩ := hs.loaded hmem hd
        exact ⟨(hs.given hmem (q := _) ⟨rfl, hfe⟩).grows (hgrow _), rfl⟩
    | _ => exact hf.elim
  · intro j hj
    have he := hg j hj
    cases j with
    | work => exact he.elim
    | _ => exact he

end ChronosGo
