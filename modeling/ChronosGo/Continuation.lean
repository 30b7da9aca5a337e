import ChronosGo.Copies
import ChronosGo.Replay

/-! # No continuation is lost

What is left of a chain travels from message to message: from link to link, from a
link to all members of a parallel stage, from the last member to the callback.
Every handover takes several requests, a worker may stop between any two of them,
and everything may be delivered again.

The invariant is about single tasks.  A task that was created is still stored,
whole and not completed, or it is *settled*: it has succeeded and whatever comes
after it has been created, or it was the last link and was discarded
(`Unbroken.stored`).  A settled task never becomes unsettled, so following the
chain from its first link leads to a stored body that carries the rest of it
(`stage_succeeded_or_carried`).
-/
namespace ChronosGo
open Interleaving

variable {k : Keys} {op : Op} {p msg m p' : TaskMessage} {delay : Int} {x c q : String}
  {w w' : World} {rest : List ChainLink} {t : Chronicle}
  {D : World → TaskMessage → Prop} {i : Nat}

/-! ## Bodies that are not completed -/

/-- The task's body is stored whole, and the task is not completed. -/
def Slot.Holds (s : Slot) (p : TaskMessage) : Prop :=
  ∃ b, s.body p.id = some b ∧ b.static = p ∧ (s.task p.id).state ≠ some .completed

/-- The request may destroy or complete the body of a task. -/
def Op.Spoils (k : Keys) (p : TaskMessage) (op : Op) : Prop :=
  op.Deletes p.id ∨
    (∃ msg, (op.Enqueues k msg ∨ op.Schedules k msg) ∧ msg.id = p.id ∧ msg.static ≠ p) ∨
    ∃ q sid msg z score, op = .moveToZSet q sid msg z score ∧ msg.id = p.id ∧
      (msg.static = p → z = .completed)

theorem Op.Spoils.deletes_or_stores (h : op.Spoils k p) :
    op.Deletes p.id ∨ op.target = some p.id := by
  rcases h with h | ⟨msg, h | h, hid, -⟩ | ⟨q, sid, msg, z, score, rfl, hid, -⟩
  · exact Or.inl h
  · exact Or.inr (hid ▸ h.target)
  · exact Or.inr (hid ▸ h.target)
  · exact Or.inr (congrArg some hid)

/-- A request that creates a task only if it is absent spoils nothing. -/
theorem LinkOp.not_spoils (h : LinkOp msg delay op) :
    ¬ op.Spoils k p := by
  cases h <;> rintro (h | ⟨_, h | h, -⟩ | ⟨_, _, _, _, _, h, -⟩) <;> cases h

theorem ReportOp.not_spoils {member : TaskMessage} (h : ReportOp member op) : ¬ op.Spoils k p := by
  cases h <;> rintro (h | ⟨_, h | h, -⟩ | ⟨_, _, _, _, _, h, -⟩) <;> cases h

section Holds
variable {s t : Slot}

theorem Slot.Holds.present (h : s.Holds p) : (s.task p.id).present = true := by
  obtain ⟨b, hb, -, -⟩ := h
  unfold Slot.body at hb
  simp [TaskHash.present, hb]

theorem ZKey.state_ne_completed {z : ZKey} (hz : z ≠ .completed) :
    some z.state ≠ some TaskState.completed := by
  cases z <;> simp_all [ZKey.state]

theorem holds_move (hm : Move k op s t) (hop : ¬ op.Spoils k p) (h : s.Holds p) : t.Holds p := by
  have hpresent := h.present
  obtain ⟨b, hb, hs, hc⟩ := h
  unfold Slot.body at hb
  cases hash_move hm p.id with
  | same ht => exact ⟨b, by rwa [Slot.body, ht], hs, by rwa [ht]⟩
  | mark ht hst =>
    refine ⟨b, by rwa [Slot.body, ht], hs, ?_⟩
    rw [ht]
    exact fun h => hst (Option.some.inj h)
  | @store msg st st' hx ho ht hst =>
    have hstatic : msg.static = p := by
      by_contra hne
      rcases ho with ho | ho | ⟨-, hp⟩
      · exact hop (Or.inr (Or.inl ⟨msg, Or.inl ho, hx.symm, hne⟩))
      · exact hop (Or.inr (Or.inl ⟨msg, Or.inr ho, hx.symm, hne⟩))
      · rw [hpresent] at hp
        cases hp
    refine ⟨{ msg with state := st' }, by rw [Slot.body, ht], hstatic, ?_⟩
    rw [ht]
    exact fun h => hst (Option.some.inj h)
  | @move q sid msg z score hx ho ht =>
    have hno : ¬ (msg.static = p → z = .completed) := fun hz =>
      hop (Or.inr (Or.inr ⟨q, sid, msg, z, score, ho, hx.symm, hz⟩))
    obtain ⟨hstatic, hz⟩ := Classical.not_imp.mp hno
    refine ⟨{ msg with state := z.state }, by rw [Slot.body, ht], hstatic, ?_⟩
    rw [ht]
    exact ZKey.state_ne_completed hz
  | delete _ hd => exact absurd (Or.inl hd) hop

theorem holds_run (now : Int) (hop : ¬ op.Spoils k p) (h : s.Holds p) :
    (op.run k now s).1.Holds p :=
  run_invariant (I := fun t => t.Holds p) (fun _ _ hm => holds_move hm hop) now h

/-- A body that a request brings into being is not completed. -/
theorem state_fresh (now : Int) (hnone : s.body x = none)
    (hop : ∀ q sid msg z score, op = .moveToZSet q sid msg z score → msg.id ≠ x)
    (hm : (op.run k now s).1.body x = some m) :
    ((op.run k now s).1.task x).state ≠ some .completed := by
  refine run_invariant
    (I := fun t => ∀ m, t.body x = some m → (t.task x).state ≠ some .completed)
    (fun u t hu ih m hm => ?_) now (fun m hm => ?_) m hm
  · unfold Slot.body at hm ih
    cases hash_move hu x with
    | same ht =>
      rw [ht] at hm ⊢
      exact ih m hm
    | mark ht hst | store _ _ ht hst =>
      rw [ht]
      exact fun h => hst (Option.some.inj h)
    | move hx ho => exact absurd hx.symm (hop _ _ _ _ _ ho)
    | delete ht =>
      rw [ht] at hm
      cases hm
  · rw [hnone] at hm
    cases hm

end Holds

/-! ## Settled tasks -/

namespace World

/-- Whatever comes after a task has been made available: the next link; a parallel
stage, with each of its members; or, for a member, its group has been told. -/
structure HandedOn (w : World) (p : TaskMessage) : Prop where
  link : ∀ link rest, p.chain = link :: rest → link.group = [] → w.Created (stageID p)
  stage : ∀ link rest, p.chain = link :: rest → link.group ≠ [] → w.Started link.queue (stageID p) ∧
    ∀ j gm, link.group[j]? = some gm → w.Created (memberID (stageID p) j) ∨
      w.Left link.queue (stageID p) (memberID (stageID p) j)
  report : p.chain = [] → p.groupID ≠ "" → w.Left p.groupQueue p.groupID (memberSlot p)

/-- The task failed for good, and asked to be discarded then. -/
def Discards (w : World) (id : String) : Prop :=
  ∃ m err skip, Record.handled m (.fail err skip) ∈ w.log ∧ m.id = id ∧ m.noArchive = true ∧
    (skip = true ∨ m.maxRetry ≤ m.retried)

/-- The task was the last one, and was discarded. -/
def Discarded (w : World) (p : TaskMessage) : Prop :=
  p.chain = [] ∧ p.groupID = "" ∧ w.Discards p.id

/-- The task needs no body any more. -/
def Settled (w : World) (p : TaskMessage) : Prop :=
  w.Succeeded p.id ∧ w.HandedOn p ∨ w.Discarded p

end World

/-- Nothing that was achieved for the workflow with root `c` is undone. -/
structure World.Lasts (c : String) (w w' : World) : Prop where
  log : w.Extends w'
  started : ∀ q gid, Under c gid → w.Started q gid → w'.Started q gid
  left : ∀ q gid x, Under c gid → w.Left q gid x → w'.Left q gid x

theorem World.HandedOn.mono (h : w.HandedOn p) (hw : World.Lasts c w w')
    (hchain : p.chain ≠ [] → Under c p.chainID) (hgroup : p.groupID ≠ "" → Under c p.groupID) :
    w'.HandedOn p where
  link := fun link rest hc hg => (h.link link rest hc hg).mono hw.log
  stage := fun link rest hc hg => by
    have hu : Under c (stageID p) := (hchain (by simp [hc])).linkID _
    obtain ⟨hs, hm⟩ := h.stage link rest hc hg
    refine ⟨hw.started _ _ hu hs, fun j gm hj => ?_⟩
    exact (hm j gm hj).imp (fun hm => hm.mono hw.log) (hw.left _ _ _ hu)
  report := fun hc hg => hw.left _ _ _ (hgroup hg) (h.report hc hg)

theorem World.Settled.mono (h : w.Settled p) (hw : World.Lasts c w w')
    (hchain : p.chain ≠ [] → Under c p.chainID) (hgroup : p.groupID ≠ "" → Under c p.groupID) :
    w'.Settled p := by
  rcases h with ⟨hs, hh⟩ | ⟨hc, hg, m, err, skip, hm, h⟩
  · exact Or.inl ⟨hs.mono hw.log, hh.mono hw hchain hgroup⟩
  · exact Or.inr ⟨hc, hg, m, err, skip, hw.log _ hm, h⟩

/-- What a process has learned about the workflow with root `c` from an answer. -/
def Learned (c : String) (w : World) : Event Cmd Cmd.Reply Job → Prop
  | .call (.redis (.chainEnqueue msg)) (some _) => w.Created msg.id
  | .call (.redis (.chainSchedule msg _)) (some _) => w.Created msg.id
  | .call (.redis (.createGroupIfAbsent q gid _ _)) (some st) =>
    Under c gid → w.Started q gid ∧ (st = .done → w.Created (callbackID gid))
  | .call (.redis (.groupMembers q gid)) (some ids) =>
    Under c gid → ∀ x, x ∉ ids → w.Left q gid x
  | .call (.redis (.groupComplete q r)) (some _) =>
    Under c r.groupID → w.Left q r.groupID r.member
  | .call (.handle m) out => Record.handled m out ∈ w.log
  | _ => True

section Learned
variable {hist : Hist}

theorem Learned.mono (hw : World.Lasts c w w') {e : Event Cmd Cmd.Reply Job} (h : Learned c w e) :
    Learned c w' e := by
  unfold Learned at h ⊢
  split
  · exact World.Created.mono h hw.log
  · exact World.Created.mono h hw.log
  · exact fun hu => ⟨hw.started _ _ hu (h hu).1, fun hd => ((h hu).2 hd).mono hw.log⟩
  · exact fun hu x hx => hw.left _ _ _ hu (h hu x hx)
  · exact fun hu => hw.left _ _ _ hu (h hu)
  · exact hw.log _ h
  · trivial

theorem LinkDone.created (hl : ∀ e ∈ hist, Learned c w e) (h : LinkDone hist m delay) :
    w.Created m.id := by
  obtain ⟨op, r, ho, hd⟩ := h
  cases ho with
  | enqueue | schedule => exact hl _ hd

theorem Reported.left (hl : ∀ e ∈ hist, Learned c w e) (hc : Under c m.groupID)
    (h : Reported hist m) : w.Left m.groupQueue m.groupID (memberSlot m) := by
  obtain ⟨op, r, ho, hd⟩ := h
  cases ho with
  | enqueue _ hq | schedule _ _ hq => exact hq ▸ hl _ hd hc

theorem StageDone.started (hl : ∀ e ∈ hist, Learned c w e) (hc : Under c (stageID m))
    {link : ChainLink} (h : StageDone hist m link rest) :
    w.Started link.queue (stageID m) ∧ ∀ j gm, link.group[j]? = some gm →
      w.Created (memberID (stageID m) j) ∨
        w.Left link.queue (stageID m) (memberID (stageID m) j) := by
  obtain ⟨st, hd, hst⟩ := h
  obtain ⟨hstart, hdone⟩ := hl _ hd hc
  refine ⟨hstart, fun j gm hj => ?_⟩
  rcases hst with rfl | hst
  · exact Or.inr (Or.inl (hdone rfl))
  · rcases hst j gm hj with hlink | ⟨ids, hids, hne⟩
    · exact Or.inl (hlink.created hl)
    · exact Or.inr (hl _ hids hc _ hne)

/-- **A message that was handed over has handed on.** -/
theorem HandedOver.handedOn (hl : ∀ e ∈ hist, Learned c w e)
    (hchain : m.chain ≠ [] → Under c m.chainID) (hgroup : m.groupID ≠ "" → Under c m.groupID)
    (h : HandedOver hist m) : w.HandedOn m.static := by
  refine ⟨fun link rest hc hg => ?_, fun link rest hc hg => ?_, fun hc hg => ?_⟩
  · have hc' : m.chain = link :: rest := hc
    cases h with
    | link _ _ hd => exact hd.created hl
    | stage hc₀ hg₀ =>
      cases hc₀.symm.trans hc'
      exact absurd hg hg₀
    | report hc₀ | last hc₀ => cases hc₀.symm.trans hc'
  · have hc' : m.chain = link :: rest := hc
    have hu : Under c (stageID m) := (hchain (by simp [hc'])).linkID _
    cases h with
    | link hc₀ hg₀ =>
      cases hc₀.symm.trans hc'
      exact absurd hg₀ hg
    | stage hc₀ _ hd =>
      cases hc₀.symm.trans hc'
      exact hd.started hl hu
    | report hc₀ | last hc₀ => cases hc₀.symm.trans hc'
  · have hc' : m.chain = [] := hc
    cases h with
    | link hc₀ | stage hc₀ => cases hc₀.symm.trans hc'
    | report _ hg₀ hd =>
      have hleft := hd.left hl (hgroup hg₀)
      exact hleft
    | last _ hg₀ => exact absurd hg₀ hg

end Learned

/-! ## The invariant -/

namespace Workflow

/-- The requests clients may send: to start the workflow, or requests that neither
use its identifiers nor remove tasks by age. -/
def Tolerates (W : Workflow) (first : TaskMessage) (op : Op) : Prop :=
  Traffic op ∧ op.Spares W.root ∧
    (∀ q z cutoff maxSize batch, op ≠ .trim q z cutoff maxSize batch) ∨
    op = .enqueue first ∨ ∃ processAt, op = .schedule first processAt

/-- The group of a member has started. -/
def GroupStarted (w : World) (p : TaskMessage) : Prop :=
  p.groupID ≠ "" → w.Started p.groupQueue p.groupID

/-- A member of a pending set is a member of the parallel stage after some task. -/
def Listed (W : Workflow) (gid x : String) : Prop :=
  ∃ p link rest j gm, W.Task p ∧ p.chain = link :: rest ∧ gid = stageID p ∧
    link.group[j]? = some gm ∧ x = memberID gid j

/-- What holds throughout a run of a workflow in which nothing is removed. -/
structure Unbroken (W : Workflow) (first : TaskMessage) (t : Chronicle) :
    Prop where
  sane : Sane t
  known : Known t
  clients : ∀ p ∈ t.procs, p.job.Client (W.Tolerates first) (Apart W.root)
  copies : Held (W.Copy GroupStarted World.Settled) t
  learned : t.Knows (fun _ _ => True) (Learned W.root)
  listed : ∀ q gid x, Under W.root gid → x ∈ t.world.members q gid → W.Listed gid x
  stored : ∀ p, W.Task p → t.world.Created p.id →
    (t.world.slot p.queue).Holds p ∨ t.world.Settled p

section Step
variable {W : Workflow} {first : TaskMessage} {g : Regime} {s : Chronicle}
  {p : Party} {gid : String}

theorem ReportOp.proper {member : TaskMessage} (h : ReportOp member op) : op.Proper gid := by
  cases h <;> exact fun hg => congrArg callbackID hg

theorem LinkOp.proper (h : LinkOp msg delay op) :
    op.Proper gid := by
  cases h <;> trivial

theorem Tolerates.proper (h : W.Tolerates first op) (hu : Under W.root gid) : op.Proper gid := by
  rcases h with ⟨ht, hs, -⟩ | rfl | ⟨at', rfl⟩
  · cases ht with
    | createGroup => exact Apart.ne hs hu
    | _ => trivial
  · trivial
  · trivial

/-- No request starts a group of the workflow over. -/
theorem Unbroken.proper (h : W.Unbroken first s) (hp : p ∈ s.procs)
    (hr : p.job.Request p.hist op) (hu : Under W.root gid) : op.Proper gid := by
  have hj := h.clients p hp
  obtain ⟨job, hist⟩ := p
  cases job with
  | send | sendAll => exact Tolerates.proper (hj.request trivial hr) hu
  | deleteTask | fetch | recover => cases hr <;> trivial
  | work =>
    cases hr with
    | link _ _ _ ho | member _ _ _ _ _ ho => exact LinkOp.proper ho
    | drain _ _ ho | report _ _ _ ho => exact ReportOp.proper ho
    | @stage r link rest ok hc hg =>
      refine fun hgid => ⟨congrArg callbackID hgid, ?_⟩
      rw [stageMemberIDs, ne_eq, List.map_eq_nil_iff, List.range_eq_nil]
      exact fun h0 => hg (List.length_eq_zero_iff.mp h0)
    | pending | drainState | drainGet | retain | delete | discard | archive | retry | release =>
      trivial

/-- Nothing that was achieved is undone. -/
theorem Unbroken.lasts (h : W.Unbroken first s) (ha : (g.machine k).Act protocol s t)
    (hk : Known t) (htick : ∀ now, g.tick s.world now → s.world.KeepsGroups now) :
    World.Lasts W.root s.world t.world where
  log := extends_act ha
  started := fun _ _ hu hs => World.Started.act hs ha hk (fun _ _ hp hr => h.proper hp hr hu) htick
  left := fun _ _ _ hu hs => World.Left.act hs ha hk (fun _ _ hp hr => h.proper hp hr hu) htick

theorem settled_mono (hw : World.Lasts W.root w w') {p : TaskMessage} (hp : W.Task p)
    (h : w.Settled p) : w'.Settled p := h.mono hw (W.underChain hp) (W.underGroup hp)

/-- A worker that has handed over the message of a task has settled the task. -/
theorem Unbroken.settled_of_handedOver (h : W.Unbroken first s) {sid : Nat} {hist : Hist}
    {r : Option Bytes} (hp : ⟨.work q sid m, hist⟩ ∈ s.procs) (ht : W.Task m.static)
    (ok : Ran hist m (.ok r)) (hd : HandedOver hist (withResult m r)) :
    s.world.Settled m.static := by
  have hl := (h.learned _ hp).2
  have hst := static_withResult m r
  refine Or.inl ⟨⟨m, r, hl _ ok, rfl⟩, ?_⟩
  rw [← hst]
  rw [← hst] at ht
  have hchain := W.underChain ht
  have hgroup := W.underGroup ht
  exact hd.handedOn hl hchain hgroup

theorem Unbroken.handsOn (h : W.Unbroken first s) (hw : World.Lasts W.root s.world t.world) :
    W.HandsOn GroupStarted World.Settled s t where
  kept := fun p hp hs hg => hw.started _ _ (W.underGroup hp hg) (hs hg)
  keptCleared := fun p hp hs => settled_mono hw hp hs
  link := fun _ _ _ _ hs _ => hs
  member := fun q sid m hist r link rest st j gm hp ht _ hc hd _ => by
    have hu : Under W.root (stageID m) :=
      (W.underChain ht (by simp [TaskMessage.static, hc])).linkID _
    have hd' : Did hist (stageOp m link) st := by
      cases r <;> exact hd
    exact hw.started _ _ hu ((h.learned _ hp).2 _ hd' hu).1
  callback := fun _ _ _ _ hg => absurd rfl hg
  retained := fun q sid m hist r hp ht ok hd =>
    settled_mono hw ht (h.settled_of_handedOver hp ht ok hd)

/-- Clients spoil nothing. -/
theorem Tolerates.not_spoils (h : W.Tolerates first op) (hfirst : W.Task first) {p : TaskMessage}
    (hp : W.Task p) : ¬ op.Spoils k p := by
  have hstart : ∀ msg : TaskMessage, msg = first → ¬ (msg.id = p.id ∧ msg.static ≠ p) := by
    rintro msg rfl ⟨hid, hne⟩
    obtain rfl := W.unique hfirst hp hid
    exact hne (W.static hp)
  rcases h with ⟨ht, hs, htrim⟩ | rfl | ⟨at', rfl⟩
  · rintro (hd | ⟨msg, ho, hid, -⟩ | ⟨_, _, _, _, _, rfl, -⟩)
    · cases ht with
      | trimArchived | trimCompleted => exact htrim _ _ _ _ _ rfl
      | _ => exact hd
    · have hst : op.Stored k msg.id { msg with state := msg.state } :=
        ⟨msg, msg.state, ho.elim .enqueue .schedule, rfl, rfl⟩
      exact (hs.stored ht hst).id.ne (W.under hp) hid
    · cases ht
  · rintro (hd | ⟨msg, ho | ho, hid⟩ | ⟨_, _, _, _, _, ho, -⟩)
    · exact hd
    · cases ho
      exact hstart _ rfl hid
    · cases ho
    · cases ho
  · rintro (hd | ⟨msg, ho | ho, hid⟩ | ⟨_, _, _, _, _, ho, -⟩)
    · exact hd
    · cases ho
    · cases ho
      exact hstart _ rfl hid
    · cases ho

/-- Storing a copy of a task spoils it only if the task is settled. -/
theorem settled_of_copy {p : TaskMessage} {sid : Nat} {z : ZKey} {score : Int}
    (h : (Op.moveToZSet q sid msg z score).Spoils k p)
    (hm : W.Copy GroupStarted World.Settled w m) (hp : W.Task p) (hs : msg.static = m.static)
    (hid : msg.id = m.id) (hz : z ≠ .completed) : w.Settled p := by
  rcases h with h | ⟨_, h | h, -⟩ | ⟨_, _, _, _, _, h, hid', hne⟩
  · exact h.elim
  · cases h
  · cases h
  · cases h
    rcases (hm.task hp (hid ▸ hid')).2 with hst | ⟨-, hst⟩
    · exact absurd (hne (hs.trans hst)) hz
    · exact hst

/-- **A body is destroyed or completed only when its task is settled.** -/
theorem Unbroken.settled_of_spoils (h : W.Unbroken first s) (hfirst : W.Task first)
    (hmem : p ∈ s.procs) (hr : p.job.Request p.hist op) (hp : W.Task p') (hsp : op.Spoils k p') :
    s.world.Settled p' := by
  have hj := h.clients p hmem
  obtain ⟨job, hist⟩ := p
  -- a request that neither deletes nor stores
  have hquiet : op.target = none → ¬ op.Deletes p'.id → s.world.Settled p' := by
    intro ht hd
    rcases hsp.deletes_or_stores with h | h
    · exact absurd h hd
    · rw [ht] at h
      cases h
  cases job with
  | send | sendAll => exact absurd hsp (Tolerates.not_spoils (hj.request trivial hr) hfirst hp)
  | deleteTask q id =>
    cases hr with
    | delete =>
      rcases hsp.deletes_or_stores with hd | hd
      · exact absurd hd (Apart.ne hj (W.under hp))
      · cases hd
    | load | release => exact hquiet rfl fun hd => hd
  | fetch => cases hr <;> exact hquiet rfl fun hd => hd
  | recover =>
    cases hr with
    | archive hc | retry hc =>
      obtain ⟨id, -, hd⟩ := hc
      exact settled_of_copy hsp (h.copies.read hmem hd) hp rfl rfl (by decide)
    | claim | load | orphan | release => exact hquiet rfl fun hd => hd
  | work q sid m =>
    have hm := h.copies.work hmem
    -- the worker's own task, which it has handed over
    have hover : ∀ r, m.id = p'.id → Ran hist m (.ok r) → HandedOver hist (withResult m r) →
        s.world.Settled p' := by
      intro r hid ok hd
      rcases (hm.task hp hid).2 with rfl | ⟨-, hs⟩
      · exact h.settled_of_handedOver hmem hp ok hd
      · exact hs
    cases hr with
    | link _ _ _ ho | member _ _ _ _ _ ho => exact absurd hsp (LinkOp.not_spoils ho)
    | drain _ _ ho | report _ _ _ ho => exact absurd hsp (ReportOp.not_spoils ho)
    | @retain r now ok hd =>
      rcases hsp.deletes_or_stores with hx | hx
      · exact hx.elim
      · refine hover r ?_ ok hd
        rw [← Option.some.inj hx]
        cases r <;> rfl
    | delete ok hd =>
      rcases hsp.deletes_or_stores with hx | hx
      · exact hover _ hx ok hd
      · cases hx
    | @discard err skip bad hx hn =>
      rcases hsp.deletes_or_stores with hid | hid
      · rcases (hm.task hp hid).2 with rfl | ⟨-, hs⟩
        · obtain ⟨hc, hg⟩ := W.last hp hn
          exact Or.inr ⟨hc, hg, m, err, skip, (h.learned _ hmem).2 _ bad, rfl, hn, hx⟩
        · exact hs
      · cases hid
    | archive | retry => exact settled_of_copy hsp hm hp rfl rfl (by decide)
    | stage | pending | drainState | drainGet | release => exact hquiet rfl fun hd => hd

/-- The group of a copy that reports has started. -/
theorem Copy.started {link : ChainLink} (hm : W.Copy GroupStarted D w m)
    (hc : m.groupCallback = some link) (hu : Under W.root m.groupID) :
    w.Started m.groupQueue m.groupID := by
  rcases hm with hf | ⟨p, hp, hs, hm⟩
  · exact absurd hu (hf.group (Or.inr (by simp [hc]))).not_under
  · have hfields : p.groupCallback = m.groupCallback ∧ p.groupID = m.groupID ∧
        p.groupQueue = m.groupQueue := by
      rcases hm with rfl | ⟨hm, -⟩
      · exact ⟨rfl, rfl, rfl⟩
      · exact ⟨(congrArg TaskMessage.groupCallback hm).symm, (congrArg TaskMessage.groupID hm).symm,
          (congrArg TaskMessage.groupQueue hm).symm⟩
    obtain ⟨hcb, hgid, hq⟩ := hfields
    rw [← hgid, ← hq]
    exact hs (W.named hp (by simp [hcb, hc]))

theorem ReportOp.started {r : Slot.Report} (ho : ReportOp m (.groupComplete q r))
    (hm : W.Copy GroupStarted D w m) (hu : Under W.root r.groupID) : w.Started q r.groupID := by
  cases ho with
  | enqueue hc hq => exact hq ▸ hm.started hc hu
  | schedule now hc hq => exact hq ▸ hm.started hc hu

/-- Only members report, and only to groups that have started. -/
theorem Unbroken.started_of_report (h : W.Unbroken first s) (hmem : p ∈ s.procs) {r : Slot.Report}
    (hr : p.job.Request p.hist (.groupComplete q r)) (hu : Under W.root r.groupID) :
    s.world.Started q r.groupID := by
  obtain ⟨job, hist⟩ := p
  cases job with
  | send | sendAll => cases h.sane.traffic hmem trivial hr
  | deleteTask | fetch | recover => cases hr
  | work q' sid m =>
    cases hr with
    | link _ _ _ ho | member _ _ _ _ _ ho => cases ho
    | drain _ hb ho => exact ReportOp.started ho (h.copies.read hmem hb) hu
    | @report r' _ ok hc hg ho =>
      exact ReportOp.started ho ((h.copies.work hmem).congr (static_withResult m r')) hu

/-- A worker asks for the pending members of a stage that has started. -/
theorem Unbroken.started_of_pending (h : W.Unbroken first s) (hmem : p ∈ s.procs)
    (hr : p.job.Request p.hist (.groupMembers q gid)) (hu : Under W.root gid) :
    s.world.Started q gid := by
  have hl := (h.learned p hmem).2
  obtain ⟨job, hist⟩ := p
  cases job with
  | send | sendAll => cases h.sane.traffic hmem trivial hr
  | deleteTask | fetch | recover => cases hr
  | work q' sid m =>
    cases hr with
    | link _ _ _ ho | member _ _ _ _ _ ho | drain _ _ ho | report _ _ _ ho => cases ho
    | pending _ _ hs => exact (hl _ hs hu).1

theorem present_chainEnqueue (u : Slot) (msg : TaskMessage) :
    ((u.chainEnqueue msg).1.task msg.id).present = true := by
  unfold Slot.chainEnqueue
  split
  · assumption
  · simp [Slot.put, Slot.append, TaskHash.present]

theorem present_chainSchedule (u : Slot) (msg : TaskMessage) (score : Int) :
    ((u.chainSchedule msg score).1.task msg.id).present = true := by
  unfold Slot.chainSchedule
  split
  · assumption
  · simp [Slot.put, Slot.zadd, TaskHash.present]

/-- **What a process learns is true.** -/
theorem Unbroken.learned_call (h : W.Unbroken first s) (hk : Known t)
    (hw : World.Lasts W.root s.world t.world) {c : Cmd} {r : c.Reply} (hmem : p ∈ s.procs)
    (hc : protocol.call p.job p.hist c) (he : g.exec k i c s.world r t.world) :
    Learned W.root t.world (.call c r) := by
  have hpresent : ∀ op x, t.world = s.world.perform k i op →
      ((s.world.slotAfter k op).task x).present = true → t.world.Created x := by
    intro op x ht hx
    refine (hk.slot op.queue).task x ?_
    rwa [ht, World.slot_perform_self]
  unfold Learned
  split
  all_goals first | trivial | (rename_i heq; cases heq)
  · rename_i msg _
    obtain ⟨-, ht, -⟩ := Regime.exec_answered he
    exact hpresent _ msg.id ht (present_chainEnqueue _ msg)
  · rename_i msg score _
    obtain ⟨-, ht, -⟩ := Regime.exec_answered he
    exact hpresent _ msg.id ht (present_chainSchedule _ msg score)
  · rename_i q gid ids cb st
    obtain ⟨-, ht, rfl⟩ := Regime.exec_answered he
    intro hu
    have hop := h.proper hmem hc hu
    rw [ht]
    exact World.started_of_stage hop (ht ▸ hk.slot q)
  · rename_i q gid ids
    obtain ⟨-, ht, rfl⟩ := Regime.exec_answered he
    intro hu x hx
    refine hw.left q gid x hu ?_
    rcases h.started_of_pending hmem hc hu with hne | hcb
    · exact Or.inr ⟨hne, hx⟩
    · exact Or.inl hcb
  · rename_i q r _
    obtain ⟨-, ht, -⟩ := Regime.exec_answered he
    intro hu
    have hop := h.proper hmem hc hu
    rw [ht]
    exact World.left_of_report hop (ht ▸ hk.slot q) (h.started_of_report hmem hc hu)
  · rename_i m out
    rw [he.2]
    exact List.mem_cons_self

/-- A pending set of the workflow is created by the worker before the stage. -/
theorem Unbroken.listed_of_create (h : W.Unbroken first s) (hmem : p ∈ s.procs)
    (hr : p.job.Request p.hist op) (hu : Under W.root gid) {ids : List String} (hx : x ∈ ids)
    (ho : op = .createGroup q gid ids ∨ ∃ cb, op = .createGroupIfAbsent q gid ids cb) :
    W.Listed gid x := by
  have hclient : W.Tolerates first op → W.Listed gid x := by
    rintro (⟨ht, hs, -⟩ | rfl | ⟨at', rfl⟩)
    · rcases ho with rfl | ⟨cb, rfl⟩
      · exact absurd hu (Apart.not_under hs)
      · cases ht
    all_goals rcases ho with ho | ⟨cb, ho⟩ <;> cases ho
  have hj := h.clients p hmem
  obtain ⟨job, hist⟩ := p
  cases job with
  | send | sendAll => exact hclient (hj.request trivial hr)
  | deleteTask | fetch | recover => rcases ho with rfl | ⟨cb, rfl⟩ <;> cases hr
  | work q' sid m =>
    rcases ho with rfl | ⟨cb, rfl⟩
    · cases hr with
      | link _ _ _ ho | member _ _ _ _ _ ho | drain _ _ ho | report _ _ _ ho =>
        cases ho
    · cases hr with
      | link _ _ _ ho | member _ _ _ _ _ ho | drain _ _ ho | report _ _ _ ho =>
        cases ho
      | @stage r link rest ok hc hg =>
        have hstage : stageID (withResult m r) = stageID m.static := by
          rw [← static_withResult m r]
          rfl
        rw [hstage] at hu
        rcases (h.copies.work hmem).whole (by simp [hc]) with hf | ⟨ht, -⟩
        · exact absurd hu ((hf.chain (by simp [hc])).linkID _).not_under
        · obtain ⟨j, hj, rfl⟩ := List.mem_map.mp hx
          have hlt : j < link.group.length := List.mem_range.mp hj
          exact ⟨m.static, link, rest, j, link.group[j], ht, hc, hstage,
            List.getElem?_eq_getElem hlt, rfl⟩

/-- The members of a pending set are those of its stage. -/
theorem Unbroken.listed_act (h : W.Unbroken first s) (ha : (g.machine k).Act protocol s t)
    (htick : ∀ now, g.tick s.world now → s.world.KeepsGroups now) (q gid x : String)
    (hu : Under W.root gid) (hx : x ∈ t.world.members q gid) : W.Listed gid x := by
  refine world_act (P := fun w => x ∈ w.members q gid → W.Listed gid x) ha (h.listed q gid x hu)
    (fun _ _ _ _ _ _ _ => h.listed q gid x hu) ?_ ?_ ?_ hx
  · intro i p op hp hr _ _ hx
    rcases World.mem_members_perform _ k i q gid hx with hx | ⟨ids, hids, ho⟩
    · exact h.listed q gid x hu hx
    · exact h.listed_of_create (List.mem_of_getElem? hp) hr hu hids ho
  · intro i n j hx
    rw [World.members_give] at hx
    exact h.listed q gid x hu hx
  · intro now hn hx
    rw [(htick now hn).members] at hx
    exact h.listed q gid x hu hx

/-- A task that a request has created is stored. -/
theorem Unbroken.holds_of_created (h : W.Unbroken first s) (hs : Sane t)
    (hcop : Held (W.Copy GroupStarted World.Settled) t) (hmem : p ∈ s.procs)
    (hr : p.job.Request p.hist op) (ht : t.world = s.world.perform k i op) (hp : W.Task p')
    (hnew : ¬ s.world.Created p'.id) (hc : t.world.Created p'.id) :
    (t.world.slot p'.queue).Holds p' ∨ t.world.Settled p' := by
  have hslot : t.world.slot op.queue = s.world.slotAfter k op := by
    rw [ht]
    exact World.slot_perform_self
  rw [ht] at hc
  rcases World.created_cases (hslot ▸ hs.wellKept op.queue) hc with hold | ⟨-, hnone, m, -, hm⟩
  · exact absurd hold hnew
  · rw [← hslot] at hm
    obtain ⟨hid, hq⟩ := (hs.wellKept op.queue).keyed _ m hm
    rcases ((hcop.body op.queue _ m hm).task hp hid).2 with hst | ⟨-, hset⟩
    · left
      have hq' : p'.queue = op.queue := by
        rw [← hq, ← hst]
        rfl
      rw [hq']
      refine ⟨m, hm, hst, ?_⟩
      rw [hslot] at hm ⊢
      refine state_fresh s.world.now hnone (fun q sid msg z score ho hx => ?_) hm
      subst ho
      exact hnew (hx ▸ known_of_move h.sane h.known hmem hr)
    · exact Or.inr hset

/-- A task that was created stays stored until it is settled. -/
theorem Unbroken.stored_act (h : W.Unbroken first s) (hfirst : W.Task first)
    (ha : (g.machine k).Act protocol s t) (hs : Sane t)
    (hw : World.Lasts W.root s.world t.world) (hcop : Held (W.Copy GroupStarted World.Settled) t)
    (p : TaskMessage) (hp : W.Task p) (hc : t.world.Created p.id) :
    (t.world.slot p.queue).Holds p ∨ t.world.Settled p := by
  by_cases hold : s.world.Created p.id
  · rcases h.stored p hp hold with hh | hset
    · refine world_act (P := fun w => (w.slot p.queue).Holds p ∨ t.world.Settled p) ha (Or.inl hh)
        (fun _ _ _ _ _ _ _ => Or.inl hh) ?_ ?_ (fun _ _ => Or.inl hh)
      · intro i p' op hp' hr _ _
        by_cases hq : p.queue = op.queue
        · by_cases hsp : op.Spoils k p
          · exact Or.inr (settled_mono hw hp
              (h.settled_of_spoils hfirst (List.mem_of_getElem? hp') hr hp hsp))
          · rw [hq] at hh ⊢
            rw [World.slot_perform_self]
            exact Or.inl (holds_run s.world.now hsp hh)
        · rw [World.slot_perform_ne hq]
          exact Or.inl hh
      · intro i n j
        rw [World.slot_give]
        exact Or.inl hh
    · exact Or.inr (settled_mono hw hp hset)
  · -- only a request creates a task
    have hno : ∀ w : World, w.log = s.world.log → w.Created p.id → False := by
      rintro w hlog ⟨m, hm, hid⟩
      exact hold ⟨m, hlog ▸ hm, hid⟩
    refine world_act (P := fun w => w = t.world → w.Created p.id →
      (w.slot p.queue).Holds p ∨ w.Settled p) ha (fun _ hc => absurd hc hold) ?_ ?_ ?_ ?_ rfl hc
    · rintro i p' msg out - - - - ⟨m, hm, hid⟩
      exact absurd ⟨m, (List.mem_cons.mp hm).resolve_left (by simp), hid⟩ hold
    · intro i p' op hp' hr _ ht heq hc
      rw [heq] at hc ⊢
      exact h.holds_of_created hs hcop (List.mem_of_getElem? hp') hr ht hp hold hc
    · exact fun i n j _ hc => (hno _ (World.log_give ..) hc).elim
    · exact fun now _ _ hc => (hno _ rfl hc).elim

/-- **Every step of a run in which nothing is removed keeps the invariant.** -/
theorem Unbroken.act (h : W.Unbroken first s) (hfirst : W.Task first)
    (hg : ∀ j, g.spawn j → j.External ∧ j.Client (W.Tolerates first) (Apart W.root))
    (htick : ∀ now, g.tick s.world now → s.world.KeepsGroups now)
    (hstart : first.groupID = "") (ha : (g.machine k).Act protocol s t) :
    W.Unbroken first t := by
  have hs := sane_act (fun j hj => (hg j hj).1) h.sane ha
  have hk := known_act (fun j hj => (hg j hj).1) h.sane h.known ha
  have hw := h.lasts ha hk htick
  have hcop : Held (W.Copy GroupStarted World.Settled) t := by
    refine copies_act (fun j hj => (hg j hj).1) h.copies ha (h.handsOn hw) ?_
    -- what clients store: foreign messages, and the first task
    have hfst : ∀ m : TaskMessage, m.static = first.static →
        W.Copy GroupStarted World.Settled t.world m := fun m hm =>
      Or.inr ⟨first, hfirst, fun hne => absurd hstart hne, Or.inl (hm.trans (W.static hfirst))⟩
    intro p op x m hp hsend hr hst
    rcases (h.clients p hp).request hsend hr with ⟨ht, hsp, -⟩ | ho
    · exact Or.inl (hsp.stored ht hst)
    · obtain ⟨st, rfl⟩ := hst.start_eq ho
      exact hfst _ rfl
  refine ⟨hs, hk, clients_act (fun j hj => (hg j hj).2) h.clients ha, hcop, ?_,
    h.listed_act ha htick, h.stored_act hfirst ha hs hw hcop⟩
  refine h.learned.act ha (fun _ h => h) (fun _ he => he.mono hw) ?_ ?_ (fun _ _ => trivial)
  · intro i p c r hp hc he
    exact h.learned_call hk hw (List.mem_of_getElem? hp) hc he
  · exact fun _ _ _ _ _ => ⟨trivial, trivial⟩

theorem Unbroken.init : W.Unbroken first ⟨World.init, []⟩ where
  sane := Sane.init
  known := Known.init
  clients := fun _ hp => absurd hp List.not_mem_nil
  copies := ⟨fun _ _ _ h => (nomatch h), fun _ hp => absurd hp List.not_mem_nil⟩
  learned := fun _ hp => absurd hp List.not_mem_nil
  listed := fun _ _ _ _ hx => absurd hx List.not_mem_nil
  stored := fun _ _ ⟨_, hm, _⟩ => absurd hm List.not_mem_nil

end Step
end Workflow

/-! ## Following a chain -/

/-- The message carries stage `i` of the chain `c`, whose task is `id` and whose frozen
form has property `F`: as its own task, as a successor, as the callback of the stage
it is a member of, or as a successor of that callback. -/
inductive TaskMessage.Carries (c id : String) (F : ChainLink → Prop) (i : Nat) (b : TaskMessage) :
    Prop where
  | own (hid : b.id = id)
  | chain {link : ChainLink} {j : Nat} (hl : F link) (hc : b.chainID = c)
      (hi : b.chainIndex + 1 + j = i) (hb : b.chain[j]? = some link)
  | callback {link : ChainLink} (hl : F link) (hg : b.groupID = linkID c i)
      (hb : b.groupCallback = some (callbackLink link))
  | callbackChain {link : ChainLink} {j : Nat} (hl : F link) (hc : b.chainID = c)
      (hi : b.chainIndex + 1 + j = i) (hb : b.groupCallbackChain[j]? = some link)

/-- A body of a task that is not completed is stored and has the property. -/
def World.Stores (w : World) (P : TaskMessage → Prop) : Prop :=
  ∃ q x b, (w.slot q).body x = some b ∧ ((w.slot q).task x).state ≠ some .completed ∧ P b

/-- The task that completes stage `i` of the chain that starts with `m`. -/
inductive StageTask (m : TaskMessage) : Nat → TaskMessage → Prop where
  | first : StageTask m 0 m
  | link {i : Nat} {link : ChainLink} (hi : m.chain[i]? = some link) (hg : link.group = []) :
      StageTask m (i + 1) (linkTask m.chainID (i + 1) link (m.chain.drop (i + 1)))
  | callback {i : Nat} {link : ChainLink} (hi : m.chain[i]? = some link) (hg : link.group ≠ []) :
      StageTask m (i + 1) (callbackTask m.chainID (i + 1) link (m.chain.drop (i + 1)))

section StageTask
variable {q : TaskMessage} {n : Nat}

theorem StageTask.task (h : StageTask m i p) : ChainTask m p := by
  cases h with
  | first => exact .first
  | link hi hg => exact .link hi hg
  | callback hi hg => exact .callback hi hg

theorem StageTask.chain (h : StageTask m i p) : p.chain = m.chain.drop i := by
  cases h <;> rfl

theorem StageTask.unique (h : StageTask m i p) (h' : StageTask m i q) : p = q := by
  cases h with
  | first =>
    cases h'
    rfl
  | link hi hg =>
    cases h' with
    | link hi' =>
      cases hi.symm.trans hi'
      rfl
    | callback hi' hg' =>
      cases hi.symm.trans hi'
      exact absurd hg hg'
  | callback hi hg =>
    cases h' with
    | link hi' hg' =>
      cases hi.symm.trans hi'
      exact absurd hg' hg
    | callback hi' =>
      cases hi.symm.trans hi'
      rfl

theorem StageTask.le_length (h : StageTask m i p) : i ≤ m.chain.length := by
  cases h with
  | first => exact Nat.zero_le _
  | link hi | callback hi =>
    obtain ⟨hlt, -⟩ := List.getElem?_eq_some_iff.mp hi
    exact hlt

/-- A stage with successors knows its place in the chain. -/
theorem StageTask.place (hm : FirstLink m) (h : StageTask m i p) {link : ChainLink}
    (hc : p.chain = link :: rest) :
    p.chainID = m.chainID ∧ p.chainIndex = i := by
  obtain ⟨i', hi', hrest, hid, hidx, -⟩ := h.task.successor hm hc
  refine ⟨hid, ?_⟩
  cases h with
  | first => rw [hm.plain]
  | link => rfl
  | @callback i l hi hg =>
    have hne : m.chain.drop (i + 1) ≠ [] := by
      have hc' : m.chain.drop (i + 1) = link :: rest := hc
      simp [hc']
    exact if_pos hne

/-- Stage `n` of the chain that starts with `m`, whose task is `q`, has succeeded, is
carried by a stored body, or was the last and was discarded. -/
def World.Accounts (w : World) (m : TaskMessage) (n : Nat) (q : TaskMessage) : Prop :=
  w.Succeeded q.id ∨
    w.Stores (TaskMessage.Carries m.chainID q.id (fun link => ∃ l, n = l + 1 ∧
      m.chain[l]? = some link) n) ∨ w.Discarded q

variable {b : TaskMessage} {queue : String}

/-- The body of a stage carries all later stages. -/
theorem Accounts.of_stage (hm : FirstLink m) (hp : StageTask m i p) (hn : StageTask m n q)
    (hlt : i < n) (hh : (w.slot p.queue).Holds p) : w.Accounts m n q := by
  obtain ⟨b, hb, rfl, hst⟩ := hh
  have hle := hn.le_length
  obtain ⟨l, rfl⟩ : ∃ l, n = i + l + 1 := ⟨n - i - 1, by omega⟩
  have hlink : m.chain[i + l]? = some m.chain[i + l] := List.getElem?_eq_getElem (by omega)
  have hchain : b.chain = m.chain.drop i := hp.chain
  have hcons : m.chain.drop i = m.chain[i] :: m.chain.drop (i + 1) :=
    List.drop_eq_getElem_cons (by omega)
  obtain ⟨hid, hidx⟩ := hp.place hm (hchain.trans hcons)
  refine Or.inr (Or.inl ⟨_, _, b, hb, hst, .chain (j := l) ⟨i + l, rfl, hlink⟩ hid ?_ ?_⟩)
  · have hidx' : b.chainIndex = i := hidx
    omega
  · rw [hchain, List.getElem?_drop, hlink]

/-- The body of a member of stage `i + 1` carries that stage and all later ones. -/
theorem Accounts.of_member {link : ChainLink} {gm : GroupMemberLink} {j : Nat}
    (hi : m.chain[i]? = some link) (hn : StageTask m n q) (hlt : i < n)
    (hh : (w.slot queue).Holds (memberTask m.chainID (i + 1) link (m.chain.drop (i + 1)) j gm)) :
    w.Accounts m n q := by
  obtain ⟨b, hb, hstatic, hst⟩ := hh
  have hgid : b.groupID = linkID m.chainID (i + 1) := congrArg TaskMessage.groupID hstatic
  have hcb : b.groupCallback = some (callbackLink link) :=
    congrArg TaskMessage.groupCallback hstatic
  have hcc : b.groupCallbackChain = m.chain.drop (i + 1) :=
    congrArg TaskMessage.groupCallbackChain hstatic
  have hcid : b.static.chainID = m.chainID := by
    rw [hstatic]
    rfl
  have hidx : b.chainIndex = i + 1 := congrArg TaskMessage.chainIndex hstatic
  have hle := hn.le_length
  refine Or.inr (Or.inl ⟨_, _, b, hb, hst, ?_⟩)
  by_cases hnext : n = i + 1
  · subst hnext
    exact .callback ⟨i, rfl, hi⟩ hgid hcb
  · obtain ⟨l, rfl⟩ : ∃ l, n = i + 1 + l + 1 := ⟨n - i - 2, by omega⟩
    have hlink : m.chain[i + 1 + l]? = some m.chain[i + 1 + l] :=
      List.getElem?_eq_getElem (by omega)
    refine .callbackChain (j := l) ⟨i + 1 + l, rfl, hlink⟩ hcid (by omega) ?_
    rw [hcc, List.getElem?_drop, hlink]

/-- The pending set of a stage names members of that stage. -/
theorem Listed.member (hm : FirstLink m) (hp : StageTask m i p) {link : ChainLink}
    (hc : p.chain = link :: rest) (hx : (chainWorkflow m hm).Listed (stageID p) x) :
    ∃ j gm, link.group[j]? = some gm ∧ x = memberID (stageID p) j := by
  obtain ⟨p', link', rest', j, gm, hp', hc', hgid, hj, hx⟩ := hx
  obtain ⟨hid, hidx⟩ := hp.place hm hc
  obtain ⟨i', hi', hrest', hid', hidx', -⟩ := ChainTask.successor hm hp' hc'
  have hi : m.chain[i]? = some link := (drop_eq_cons (hp.chain ▸ hc)).1
  have hii : i = i' := by
    have h := (linkID_inj hgid).2
    omega
  subst hii
  cases hi.symm.trans hi'
  exact ⟨j, gm, hj, hx⟩

/-- **Following a chain.**  From a stage that was created, every later stage is
accounted for. -/
theorem Workflow.Unbroken.accounts (hm : FirstLink m) (h : (chainWorkflow m hm).Unbroken m t)
    (hn : StageTask m n q) (d : Nat) :
    ∀ i p, StageTask m i p → i + d = n → t.world.Created p.id → t.world.Accounts m n q := by
  induction d with
  | zero =>
    intro i p hp hd hc
    obtain rfl : i = n := hd
    obtain rfl := hp.unique hn
    rcases h.stored p hp.task hc with ⟨b, hb, rfl, hst⟩ | ⟨hs, -⟩ | hs
    · exact Or.inr (Or.inl ⟨_, _, b, hb, hst, .own rfl⟩)
    · exact Or.inl hs
    · exact Or.inr (Or.inr hs)
  | succ d ih =>
    intro i p hp hd hc
    have hlt : i < m.chain.length := by
      have := hn.le_length
      omega
    have hi : m.chain[i]? = some m.chain[i] := List.getElem?_eq_getElem hlt
    have hchain : p.chain = m.chain[i] :: m.chain.drop (i + 1) :=
      hp.chain.trans (List.drop_eq_getElem_cons hlt)
    have hstage : stageID p = linkID m.chainID (i + 1) := by
      obtain ⟨hid, hidx⟩ := hp.place hm hchain
      rw [stageID, hid, hidx]
    rcases h.stored p hp.task hc with hh | ⟨-, hon⟩ | ⟨hnil, -⟩
    · exact Accounts.of_stage hm hp hn (by omega) hh
    · by_cases hg : m.chain[i].group = []
      · have hnext := hon.link _ _ hchain hg
        rw [hstage] at hnext
        exact ih (i + 1) _ (.link hi hg) (by omega) hnext
      · -- a parallel stage: its callback exists, or a member still has to report
        have hcb : t.world.Created (callbackID (stageID p)) → t.world.Accounts m n q := by
          intro hcb
          rw [hstage] at hcb
          exact ih (i + 1) _ (.callback hi hg) (by omega) hcb
        obtain ⟨hstart, hmembers⟩ := hon.stage _ _ hchain hg
        rcases hstart with hne | hdone
        · obtain ⟨x, hx⟩ := List.exists_mem_of_ne_nil _ hne
          have hu : Under m.chainID (stageID p) := hstage ▸ (Under.refl _).linkID _
          obtain ⟨j, gm, hj, rfl⟩ := Listed.member hm hp hchain (h.listed _ _ x hu hx)
          have hleft : t.world.Left m.chain[i].queue (stageID p) (memberID (stageID p) j) →
              t.world.Accounts m n q := by
            rintro (hdone | ⟨-, hout⟩)
            · exact hcb hdone
            · exact absurd hx hout
          rcases hmembers j gm hj with hcr | hout
          · rw [hstage] at hcr
            rcases h.stored _ (ChainTask.member hi hj) hcr with hh | ⟨-, hon'⟩ | ⟨-, hgid, -⟩
            · exact Accounts.of_member hi hn (by omega) hh
            · refine hleft ?_
              have hrep := hon'.report rfl (linkID_ne_empty _ _)
              rw [hstage]
              exact hrep
            · exact absurd hgid (linkID_ne_empty _ _)
          · exact hleft hout
        · exact hcb hdone
    · rw [hchain] at hnil
      cases hnil

end StageTask

/-! ## The stages of a builder -/

section Builder
variable {now : Int} {ch : Chain} {l : Nat} {link : ChainLink}

/-- The task that completes stage `i`: the link itself, or the callback of a parallel
stage. -/
def Chain.taskID (c : String) (ch : Chain) (i : Nat) : String :=
  match ch.stages[i]? with
  | some (.parallel _) => callbackID (linkID c i)
  | _ => linkID c i

/-- What stage `i` is frozen to when the chain is enqueued. -/
def Chain.Frozen (now : Int) (ch : Chain) (i : Nat) (link : ChainLink) : Prop :=
  ∃ st, ch.stages[i]? = some st ∧ snapshotStage now ch.stages.length i st = .ok link

theorem Chain.frozen_of_tail {tail : List ChainLink} (h : ch.snapshotTail now = .ok tail)
    (hl : tail[l]? = some link) : ch.Frozen now (l + 1) link := by
  obtain ⟨st, hst, hf⟩ := (snapshotEach_ok h).2 l link hl
  rw [List.getElem?_drop, Nat.add_comm] at hst
  rw [Nat.add_comm] at hf
  exact ⟨st, hst, hf⟩

theorem snapshotGroupStage_members {g : Option Group} {isLast : Bool}
    (h : snapshotGroupStage now g i isLast = .ok link) : link.group ≠ [] := by
  unfold snapshotGroupStage at h
  split at h
  · cases h
  · split at h
    · cases h
    · rename_i hne
      split at h
      · cases h
      · obtain ⟨l, -, h⟩ := bind_ok h
        obtain ⟨ms, hms, h⟩ := bind_ok h
        cases h
        intro hnil
        have hlen := (snapshotEach_ok hms).1
        have hnil' : ms = [] := hnil
        rw [hnil'] at hlen
        exact hne (List.length_eq_zero_iff.mp hlen.symm)

/-- A stage is frozen to a link with members if and only if it is parallel. -/
theorem Chain.Frozen.taskID (h : ch.Frozen now i link) (c : String) :
    ch.taskID c i = if link.group = [] then linkID c i else callbackID (linkID c i) := by
  obtain ⟨st, hst, hf⟩ := h
  unfold Chain.taskID
  rw [hst]
  cases st with
  | single args opts => rw [if_pos (snapshotChainLink_ok (about_ok hf)).1]
  | parallel g => rw [if_neg (snapshotGroupStage_members hf)]

theorem Chain.first_single (h : ch.enqueue now c = .ok op) :
    ∃ args opts stages, ch.stages = .single args opts :: stages := by
  unfold Chain.enqueue at h
  split at h
  · cases h
  · cases h
  · rename_i args opts stages hst
    exact ⟨args, opts, stages, hst⟩

/-- Each stage of an accepted chain has its task. -/
theorem Chain.exists_stageTask (h : ch.enqueue now c = .ok op) (hm : FirstLink m)
    (hid : m.chainID = c) (htail : ch.snapshotTail now = .ok m.chain) (hi : i < ch.stages.length) :
    ∃ q, StageTask m i q ∧ q.id = ch.taskID c i := by
  cases i with
  | zero =>
    obtain ⟨args, opts, stages, hst⟩ := Chain.first_single h
    refine ⟨m, .first, ?_⟩
    rw [hm.plain, hid, Chain.taskID, hst]
    rfl
  | succ l =>
    have hlen := (snapshotTail_ok htail).1
    have hl : m.chain[l]? = some m.chain[l] := List.getElem?_eq_getElem (by omega)
    have htask := (Chain.frozen_of_tail htail hl).taskID c
    by_cases hg : m.chain[l].group = []
    · rw [if_pos hg] at htask
      exact ⟨_, .link hl hg, by rw [htask, ← hid]; rfl⟩
    · rw [if_neg hg] at htask
      exact ⟨_, .callback hl hg, by rw [htask, ← hid]; rfl⟩

end Builder

/-- Runs around the chain `c`, which the request `start` starts.  Workers, recovery,
forwarding and re-runs are unrestricted, and so are other tasks and workflows; every
request may fail before or after its effect, and every process may stop at any
command.  Excluded are the janitor, the deletion of the chain's tasks, and the expiry
of groups. -/
def unharmed (c : String) (start : Op) : Regime where
  spawn := fun j => j = .send start ∨ j.External ∧ j.Client (fun op => op.Spares c ∧
    ∀ q z cutoff maxSize batch, op ≠ .trim q z cutoff maxSize batch) (Apart c)
  allow := fun _ _ _ => True
  handler := fun _ _ _ => True
  tick := World.KeepsGroups
  faults := True
  crash := True

theorem unharmed_spawn (hm : FirstLink m) {start : Op}
    (hstart : start = .enqueue m ∨ ∃ t, start = .schedule m t) (j : Job)
    (hj : (unharmed m.chainID start).spawn j) :
    j.External ∧ j.Client ((chainWorkflow m hm).Tolerates m) (Apart m.chainID) := by
  rcases hj with rfl | ⟨hx, hc⟩
  · refine ⟨?_, Or.inr hstart⟩
    rcases hstart with rfl | ⟨t, rfl⟩
    · exact Traffic.enqueue m
    · exact Traffic.schedule m t
  · refine ⟨hx, ?_⟩
    cases j with
    | send op => exact Or.inl ⟨hx, hc⟩
    | sendAll ops => exact fun op ho => Or.inl ⟨hx op ho, hc op ho⟩
    | deleteTask => exact hc
    | fetch | work | recover => trivial

/-- **No continuation is lost.**  Whatever workers, recovery and re-runs do around a
chain that was accepted and enqueued, and wherever they stop: the task of each stage
has succeeded, or a stored body that is not completed carries the stage.  The only
exception is a last link that was to be discarded and failed for good. -/
theorem stage_succeeded_or_carried (k : Keys) {now : Int} {c : String} {ch : Chain} {start : Op}
    (hch : ch.enqueue now c = .ok start) {d : Deployment}
    (hr : ((unharmed c start).machine k).Reaches World.init [] d)
    (hsent : d.world.Created (linkID c 0)) {i : Nat} (hi : i < ch.stages.length) :
    d.world.Succeeded (ch.taskID c i) ∨
      d.world.Stores (TaskMessage.Carries c (ch.taskID c i) (ch.Frozen now i) i) ∨
      i + 1 = ch.stages.length ∧ d.world.Discards (ch.taskID c i) := by
  obtain ⟨m, hm, rfl, htail, hstart⟩ := Chain.enqueue_ok hch
  obtain ⟨q, hq, hqid⟩ := Chain.exists_stageTask hch hm rfl htail hi
  have hfirst : m.id = linkID m.chainID 0 := by rw [hm.plain]
  have hgroup : m.groupID = "" := by rw [hm.plain]
  obtain ⟨hs, hinv, -⟩ := Discipline.invariant (obeys_protocol (unharmed m.chainID start) k)
    (I := (chainWorkflow m hm).Unbroken m) Workflow.Unbroken.init
    (fun s t h ha => h.act ChainTask.first (unharmed_spawn hm hstart) (fun _ ht => ht) hgroup ha) hr
  rw [← hqid]
  rcases hinv.accounts hm hq i 0 m .first (by omega) (hfirst ▸ hsent) with h | h | ⟨hnil, -, h⟩
  · exact Or.inl h
  · obtain ⟨qn, x, b, hb, hst, hc⟩ := h
    refine Or.inr (Or.inl ⟨qn, x, b, hb, hst, ?_⟩)
    cases hc with
    | own hid => exact .own hid
    | chain hl hc hi hb =>
      obtain ⟨l, rfl, hl⟩ := hl
      exact .chain (Chain.frozen_of_tail htail hl) hc hi hb
    | callback hl hg hb =>
      obtain ⟨l, rfl, hl⟩ := hl
      exact .callback (Chain.frozen_of_tail htail hl) hg hb
    | callbackChain hl hc hi hb =>
      obtain ⟨l, rfl, hl⟩ := hl
      exact .callbackChain (Chain.frozen_of_tail htail hl) hc hi hb
  · refine Or.inr (Or.inr ⟨?_, h⟩)
    rw [hq.chain] at hnil
    have hlen := (snapshotTail_ok htail).1
    have hle := List.drop_eq_nil_iff.mp hnil
    omega

/-- A chain of one task and a group of two. -/
def sampleChain : Chain :=
  .mk [.single ⟨"load", .ok []⟩ [], .parallel (some (.mk
    [.single ⟨"left", .ok []⟩ [], .single ⟨"right", .ok []⟩ []] (some (⟨"join", .ok []⟩, []))))]

/-- The first task of the sample chain. -/
def sampleFirst : TaskMessage where
  id := "c:0"
  kind := "load"
  payload := []
  queue := "default"
  maxRetry := 25
  chain := [⟨"join", [], "default", 25, false, 0, 0,
    [⟨"left", [], "default", 25, 0, 0⟩, ⟨"right", [], "default", 25, 0, 0⟩]⟩]
  chainID := "c"

/-- The first task is done and the second stage waits for its members, which carry
it. -/
theorem parallel_stage_carried : ∃ d : Deployment,
    ((unharmed "c" (.enqueue sampleFirst)).machine sampleKeys).Reaches World.init [] d ∧
      d.world.members "default" "c:1" = ["c:1:m0", "c:1:m1"] ∧
      (d.world.Succeeded (sampleChain.taskID "c" 1) ∨
        d.world.Stores
            (TaskMessage.Carries "c" (sampleChain.taskID "c" 1) (sampleChain.Frozen 0 1) 1) ∨
        1 + 1 = sampleChain.stages.length ∧ d.world.Discards (sampleChain.taskID "c" 1)) := by
  have hlets : (unharmed "c" (.enqueue sampleFirst)).Lets fun _ _ _ => true :=
    ⟨fun _ _ _ _ => trivial, fun _ _ _ => trivial⟩
  obtain ⟨d, hr, hw⟩ := (player_sound (k := sampleKeys) hlets).exists_reaches
    [.spawn (.send (.enqueue sampleFirst)), Choice.go 0,
      .spawn (.fetch "default" "w" 1 0), Choice.go 1, Choice.go 1, Choice.go 1, Choice.go 1,
      Choice.go 2, Choice.go 2, Choice.go 2, Choice.go 2, Choice.go 2]
    ⟨Or.inl rfl, Or.inr ⟨trivial, trivial⟩, trivial⟩
    World.init []
    (fun w => decide (w.members "default" "c:1" = ["c:1:m0", "c:1:m1"] ∧
      ∃ r ∈ w.log, r = .created sampleFirst)) (by decide +kernel)
  obtain ⟨hmem, r, hr', rfl⟩ := of_decide_eq_true hw
  have hch : sampleChain.enqueue 0 "c" = .ok (.enqueue sampleFirst) := rfl
  exact ⟨d, hr, hmem, stage_succeeded_or_carried sampleKeys hch hr ⟨sampleFirst, hr', rfl⟩
    (by decide)⟩

end ChronosGo
