import ChronosGo.Workflow
import ChronosGo.WorkflowRuns

/-! # Which messages a workflow can meet

A store is shared by many workflows.  In a run in which nobody else uses the
identifiers of a workflow, every message that is stored or held by a process is
either foreign to it or a copy of one of its tasks: the whole message, or, once
the task has handed over, the message without its successors.

`Workflow.copies_act` is the step lemma for this.  It leaves open what is known of
the task of a copy (`E`) and of a task whose successors have been cleared (`D`),
so that each result about workflows can add what it needs.
-/
namespace ChronosGo
open Interleaving

variable {X : String → Prop} {hist : Hist} {op : Op} {k : Keys} {x q : String} {m : TaskMessage}
  {sid : Nat}

/-! ## Clients -/

/-- The request uses no identifier that begins with `c`. -/
def Op.Spares (c : String) : Op → Prop
  | enqueue msg | schedule msg _ | enqueueUnique msg _ | scheduleUnique msg _ _ => Foreign c msg
  | enqueuePeriodic msg _ _ | chainEnqueue msg | chainSchedule msg _ => Foreign c msg
  | createGroup _ gid _ => Apart c gid
  | _ => True

/-- What clients ask for: requests with property `S`, and the deletion of tasks with
property `X`. -/
def Job.Client (S : Op → Prop) (X : String → Prop) : Job → Prop
  | send op => S op
  | sendAll ops => ∀ op ∈ ops, S op
  | deleteTask _ id => X id
  | _ => True

/-- A client sends what it was given. -/
theorem Job.Client.request {S : Op → Prop} {j : Job} (h : j.Client S X) (hj : j.Sends)
    (hr : j.Request hist op) : S op := by
  cases j with
  | send o =>
    obtain rfl := List.mem_singleton.mp (List.mem_of_getElem? hr.next)
    exact h
  | sendAll ops => exact h op (List.mem_of_getElem? hr.next)
  | _ => exact hj.elim

theorem Op.Spares.stored {c : String} (h : op.Spares c) (ht : Traffic op) (hs : op.Stored k x m) :
    Foreign c m := by
  obtain ⟨msg', st, hs, rfl, rfl⟩ := hs
  cases hs with
  | enqueue ho => cases ho with
    | plain | periodic => exact Foreign.stamp (m := msg') h _ st
    | unique msg => exact Foreign.stamp (m := msg) h _ st
  | schedule ho => cases ho with
    | plain => exact Foreign.stamp (m := msg') h _ st
    | unique msg => exact Foreign.stamp (m := msg) h _ st
  | create ho => cases ho with
    | callback => cases ht
    | enqueue msg | schedule msg => exact Foreign.stamp (m := msg) h _ st
  | move ho =>
    subst ho
    cases ht

section Stored
variable {msg : TaskMessage}

/-- What a successor is stored as. -/
theorem LinkOp.stored_eq {delay : Int} (ho : LinkOp msg delay op) (h : op.Stored k x m) :
    ∃ st, m = { msg with state := st } := by
  obtain ⟨msg', st, hs, rfl, rfl⟩ := h
  cases ho with
  | enqueue | schedule => cases hs with
    | create h =>
      cases h
      exact ⟨st, rfl⟩
    | enqueue h | schedule h | move h => cases h

theorem LinkOp.stored {delay : Int} (ho : LinkOp msg delay op) (h : op.Stored k x m) :
    m.static = msg.static := by
  obtain ⟨st, rfl⟩ := ho.stored_eq h
  rfl

theorem ReportOp.stored (ho : ReportOp msg op) (h : op.Stored k x m) :
    ∃ link, msg.groupCallback = some link ∧ m.static = (groupCallbackMessage msg link).static := by
  obtain ⟨msg', st, hs, rfl, rfl⟩ := h
  cases ho with
  | enqueue hl | schedule _ hl => cases hs with
    | create h =>
      cases h
      exact ⟨_, hl, rfl⟩
    | enqueue h | schedule h | move h => cases h

theorem Op.Stored.move_eq {z : ZKey} {score : Int}
    (h : (Op.moveToZSet q sid msg z score).Stored k x m) : ∃ st, m = { msg with state := st } := by
  obtain ⟨msg', st, hs, rfl, rfl⟩ := h
  cases hs with
  | move h =>
    cases h
    exact ⟨st, rfl⟩
  | enqueue h | schedule h | create h => cases h

theorem Op.Stored.move {z : ZKey} {score : Int}
    (h : (Op.moveToZSet q sid msg z score).Stored k x m) : m.static = msg.static := by
  obtain ⟨st, rfl⟩ := h.move_eq
  rfl

/-- What a task is stored as when it is enqueued or scheduled. -/
theorem Op.Stored.start_eq (ho : op = .enqueue msg ∨ ∃ processAt, op = .schedule msg processAt)
    (h : op.Stored k x m) : ∃ st, m = { msg with state := st } := by
  obtain ⟨msg', st, hs, rfl, rfl⟩ := h
  rcases ho with rfl | ⟨at', rfl⟩
  · cases hs with
    | enqueue h =>
      cases h
      exact ⟨st, rfl⟩
    | schedule h | create h | move h => cases h
  · cases hs with
    | schedule h =>
      cases h
      exact ⟨st, rfl⟩
    | enqueue h | create h | move h => cases h

theorem Op.Stored.absurd {P : Prop} (h : op.Stored k x m) (hn : op.target = none) : P := by
  have ht := h.target.1
  rw [hn] at ht
  cases ht

end Stored

/-! ## Copies -/

namespace Workflow
variable {W : Workflow} {E D : World → TaskMessage → Prop} {w : World} {m' p : TaskMessage}

/-- The message is foreign, or a copy of a task: whole, or without its successors. -/
def Copy (W : Workflow) (E D : World → TaskMessage → Prop) (w : World) (m : TaskMessage) : Prop :=
  Foreign W.root m ∨ ∃ p, W.Task p ∧ E w p ∧ (m.static = p ∨ m.static = p.cleared ∧ D w p)

theorem Copy.congr (h : W.Copy E D w m) (hs : m'.static = m.static) : W.Copy E D w m' := by
  rcases h with hf | ⟨p, hp, hE, hm⟩
  · exact Or.inl (hf.of_static (Or.inl hs))
  · exact Or.inr ⟨p, hp, hE, by rwa [hs]⟩

theorem Copy.mono {w' : World} (hE : ∀ p, W.Task p → E w p → E w' p)
    (hD : ∀ p, W.Task p → D w p → D w' p) (h : W.Copy E D w m) : W.Copy E D w' m := by
  rcases h with hf | ⟨p, hp, hp', hm⟩
  · exact Or.inl hf
  · exact Or.inr ⟨p, hp, hE p hp hp', hm.imp id fun hm => ⟨hm.1, hD p hp hm.2⟩⟩

/-- A message with successors is a whole copy. -/
theorem Copy.whole (h : W.Copy E D w m) (hc : m.chain ≠ []) :
    Foreign W.root m ∨ W.Task m.static ∧ E w m.static := by
  rcases h with hf | ⟨p, hp, hE, rfl | ⟨hm, -⟩⟩
  · exact Or.inl hf
  · exact Or.inr ⟨hp, hE⟩
  · have hnil : m.static.chain = [] := by
      rw [hm]
      rfl
    exact absurd hnil hc

/-- The copy of a task of the workflow. -/
theorem Copy.task (h : W.Copy E D w m) (hp : W.Task p) (hid : m.id = p.id) :
    E w p ∧ (m.static = p ∨ m.static = p.cleared ∧ D w p) := by
  rcases h with hf | ⟨p', hp', hE, hm⟩
  · exact absurd hid (hf.id.ne (W.under hp))
  · have hid' : p'.id = m.id := by
      rcases hm with rfl | ⟨hm, -⟩
      · rfl
      · exact (congrArg TaskMessage.id hm).symm
    obtain rfl := W.unique hp' hp (hid'.trans hid)
    exact ⟨hE, hm⟩

/-- What is known of tasks is handed on: to the successors that a worker builds, and
to the retained copy of a message that has handed over. -/
structure HandsOn (W : Workflow) (E D : World → TaskMessage → Prop)
    (s t : Chronicle) : Prop where
  kept : ∀ p, W.Task p → E s.world p → E t.world p
  keptCleared : ∀ p, W.Task p → D s.world p → D t.world p
  link : ∀ p link rest, W.Task p → E t.world p → p.chain = link :: rest →
    E t.world (nextLink p link rest).static
  member : ∀ q sid m hist r link rest st j gm, ⟨.work q sid m, hist⟩ ∈ s.procs →
    W.Task m.static → E t.world m.static → m.chain = link :: rest →
    Did hist (stageOp (withResult m r) link) st →
    E t.world (stageMember m.static link rest j gm).static
  callback : ∀ p link, W.Task p → E t.world p → E t.world (groupCallbackMessage p link).static
  retained : ∀ q sid m hist r, ⟨.work q sid m, hist⟩ ∈ s.procs → W.Task m.static →
    Ran hist m (.ok r) → HandedOver hist (withResult m r) → D t.world m.static

section Step
variable {S : Op → Prop} {g : Regime} {s t : Chronicle}

/-- A callback is built by a member, from a whole copy or from a retained one. -/
theorem HandsOn.callback_copy (hh : W.HandsOn E D s t) {link : ChainLink}
    (hm : W.Copy E D s.world m) (hc : m.groupCallback = some link) :
    W.Copy E D t.world (groupCallbackMessage m link) := by
  rcases hm with hf | ⟨p, hp, hE, hm⟩
  · exact Or.inl (hf.callback hc)
  · have hm' := hm.imp id And.left
    have hc' : p.groupCallback = some link := by
      rw [← hc]
      rcases hm' with rfl | hm'
      · rfl
      · exact (congrArg TaskMessage.groupCallback hm').symm
    have hs := static_groupCallback link hm'
    exact Or.inr ⟨_, W.callback hp hc', hh.callback p link hp (hh.kept p hp hE), Or.inl hs⟩

/-- A retained message. -/
theorem HandsOn.retained_copy (hh : W.HandsOn E D s t) {r : Option Bytes}
    (hp : ⟨.work q sid m, hist⟩ ∈ s.procs) (hm : W.Copy E D s.world m) (ok : Ran hist m (.ok r))
    (hd : HandedOver hist (withResult m r)) (hs : m'.static = m.static.cleared) :
    W.Copy E D t.world m' := by
  rcases hm with hf | ⟨p, hp', hE, rfl | ⟨hm, hD⟩⟩
  · exact Or.inl (hf.of_static (Or.inr hs))
  · exact Or.inr ⟨_, hp', hh.kept _ hp' hE, Or.inr ⟨hs, hh.retained q sid m hist r hp hp' ok hd⟩⟩
  · refine Or.inr ⟨p, hp', hh.kept _ hp' hE, Or.inr ⟨?_, hh.keptCleared _ hp' hD⟩⟩
    rw [hs, hm]
    rfl

/-- **What a worker stores** is a copy of a task, if it works on one. -/
theorem HandsOn.work_stores (hh : W.HandsOn E D s t) (h : Held (W.Copy E D) s)
    (hp : ⟨.work q sid m, hist⟩ ∈ s.procs) (hr : WorkOp q sid m hist op) (hs : op.Stored k x m') :
    W.Copy E D t.world m' := by
  have hm := h.work hp
  cases hr with
  | @link r link rest _ ok hc hg ho =>
    rcases hm.whole (by simp [hc]) with hf | ⟨hp', hE⟩
    · refine Or.inl ((hf.nextLink hc).of_static (Or.inl ?_))
      rw [ho.stored hs, static_nextLink (static_withResult m r)]
      rfl
    · refine Or.inr ⟨_, W.link hp' hc hg, hh.link _ _ _ hp' (hh.kept _ hp' hE) hc, Or.inl ?_⟩
      rw [ho.stored hs, static_nextLink (static_withResult m r)]
  | @member r link rest j gm st _ ok hc hd hst hj ho =>
    rcases hm.whole (by simp [hc]) with hf | ⟨hp', hE⟩
    · refine Or.inl ((hf.stageMember hc j gm).of_static (Or.inl ?_))
      rw [ho.stored hs, static_stageMember (static_withResult m r)]
      rfl
    · refine Or.inr ⟨_, W.member hp' hc hj,
        hh.member q sid m hist r link rest st j gm hp hp' (hh.kept _ hp' hE) hc hd, Or.inl ?_⟩
      rw [ho.stored hs, static_stageMember (static_withResult m r)]
  | drain _ hb ho =>
    obtain ⟨link, hc, hst⟩ := ho.stored hs
    exact (hh.callback_copy (h.read hp hb) hc).congr hst
  | @report r _ ok hc hg ho =>
    obtain ⟨link, hc, hst⟩ := ho.stored hs
    exact (hh.callback_copy (hm.congr (static_withResult m r)) hc).congr hst
  | @retain r now ok hd =>
    refine hh.retained_copy hp hm ok hd ?_
    rw [hs.move, ← static_withResult m r]
    rfl
  | archive | retry => exact (hm.mono hh.kept hh.keptCleared).congr hs.move
  | stage | pending | drainState | drainGet | delete | discard | release => exact hs.absurd rfl

/-- **Every message is foreign or a copy of a task.** -/
theorem copies_act (hg : ∀ j, g.spawn j → j.External) (h : Held (W.Copy E D) s)
    (ha : (g.machine k).Act protocol s t) (hh : W.HandsOn E D s t)
    (hclient : ∀ p op x m, p ∈ s.procs → p.job.Sends → p.job.Request p.hist op → op.Stored k x m →
      W.Copy E D t.world m) : Held (W.Copy E D) t := by
  refine h.act hg ha (fun m hm => hm.mono hh.kept hh.keptCleared) (fun _ _ hm => hm.congr rfl) ?_
  intro i p op hp hr _ _ x m hm
  rcases body_run hm with hm | hs
  · exact Or.inl hm
  · right
    have hmem := List.mem_of_getElem? hp
    obtain ⟨job, hist⟩ := p
    cases job with
    | send | sendAll => exact hclient _ op x m hmem trivial hr hs
    | deleteTask | fetch => cases hr <;> exact hs.absurd rfl
    | work => exact hh.work_stores h hmem hr hs
    | recover =>
      cases hr with
      | archive hc | retry hc =>
        obtain ⟨id, -, hd⟩ := hc
        exact ((h.read hmem hd).mono hh.kept hh.keptCleared).congr hs.move
      | claim | load | orphan | release => exact hs.absurd rfl

/-- What clients ask for stays within bounds. -/
theorem clients_act (hg : ∀ j, g.spawn j → j.Client S X) (hj : ∀ p ∈ s.procs, p.job.Client S X)
    (ha : (g.machine k).Act protocol s t) : ∀ p ∈ t.procs, p.job.Client S X := by
  have hk : s.Knows (fun _ j => j.Client S X) fun _ _ => True :=
    fun p hp => ⟨hj p hp, fun _ _ => trivial⟩
  refine fun p hp => (hk.act ha (fun _ hj => hj) (fun _ h => h) (fun _ _ _ _ _ _ _ => trivial)
    ?_ hg p hp).1
  rintro i ⟨job, hist⟩ j - hf
  cases job with
  | fetch =>
    cases hf
    exact ⟨trivial, trivial⟩
  | _ => exact hf.elim

end Step
end Workflow
end ChronosGo
