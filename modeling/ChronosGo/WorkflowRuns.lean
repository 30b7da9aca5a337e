import ChronosGo.StoreRuns

/-! # What runs leave behind

The log of a world only grows, so what it says about a task stays true: that it
was created, that its handler has succeeded.  Every identifier that occurs in a
store was once created (`Known`), every message that is stored or held by a
process has what all messages had when they were stored (`Held`), and the pending
set of a group shrinks until the group's callback exists (`Started`, `Left`).
-/
namespace ChronosGo
open Interleaving Redis

variable {w w' : World} {id x q gid member : String} {g : Regime} {k : Keys}
  {t : Chronicle} {s : Slot} {C : String → Prop} {op : Op}
  {msg m : TaskMessage} {p : Party} {i : Nat}

/-! ## The log -/

namespace World

/-- A body was once stored under the identifier. -/
def Created (w : World) (id : String) : Prop := ∃ m, Record.created m ∈ w.log ∧ m.id = id

/-- The task's handler has once returned without an error. -/
def Succeeded (w : World) (id : String) : Prop :=
  ∃ m r, Record.handled m (.ok r) ∈ w.log ∧ m.id = id

/-- Nothing is taken back. -/
def Extends (w w' : World) : Prop := ∀ r ∈ w.log, r ∈ w'.log

theorem Created.mono (h : w.Created id) (he : w.Extends w') :
    w'.Created id := by
  obtain ⟨m, hm, hid⟩ := h
  exact ⟨m, he _ hm, hid⟩

theorem Succeeded.mono (h : w.Succeeded id) (he : w.Extends w') :
    w'.Succeeded id := by
  obtain ⟨m, r, hm, hid⟩ := h
  exact ⟨m, r, he _ hm, hid⟩

theorem extends_perform (w : World) (k : Keys) (i : Nat) (op : Op) :
    w.Extends (w.perform k i op) := fun _ hr => List.mem_append_right _ hr

theorem extends_handled (w : World) (msg : TaskMessage) (out : Outcome) :
    w.Extends (w.handled msg out) := fun _ hr => List.mem_cons_of_mem _ hr

theorem log_give (w : World) (i n : Nat) (j : Job) : (w.give i n j).log = w.log := by
  cases j <;> rfl

theorem extends_give (w : World) (i n : Nat) (j : Job) : w.Extends (w.give i n j) := by
  intro r hr
  rwa [log_give]

end World

theorem extends_act {s : Chronicle} (ha : (g.machine k).Act protocol s t) :
    s.world.Extends t.world := by
  refine world_act (P := s.world.Extends) ha (fun _ hr => hr)
    (fun _ _ _ _ _ _ _ => World.extends_handled _ _ _)
    (fun _ _ _ _ _ _ _ => World.extends_perform _ _ _ _) (World.extends_give _)
    (fun _ _ _ hr => hr)

/-! ## Identifiers were created -/

namespace Slot

/-- What the store knows of has the property. -/
structure Knows (s : Slot) (C : String → Prop) : Prop where
  task : ∀ x, (s.task x).present = true → C x
  zset : ∀ z x, x ∈ s.zset z → C x

theorem Knows.body (h : s.Knows C) (hb : (s.body x).isSome) : C x :=
  h.task x (by simp [TaskHash.present, Slot.body] at hb ⊢; exact Or.inl hb)

theorem Knows.mono {D : String → Prop} (h : s.Knows C) (hCD : ∀ x, C x → D x) :
    s.Knows D := ⟨fun x hx => hCD x (h.task x hx), fun z x hx => hCD x (h.zset z x hx)⟩

variable {t : Slot}

/-- Writing to one hash makes no other one appear. -/
theorem Knows.update (h : s.Knows C) (hid : C id) (htask : ∀ x, x ≠ id → t.task x = s.task x)
    (hz : ∀ z x, x ∈ t.zset z → x = id ∨ x ∈ s.zset z) :
    t.Knows C := by
  refine ⟨fun x hx => ?_, fun z x hx => ?_⟩
  · by_cases hxid : x = id
    · exact hxid ▸ hid
    · exact h.task x (htask x hxid ▸ hx)
  · rcases hz z x hx with rfl | hx
    · exact hid
    · exact h.zset z x hx

theorem Agree.knows (ha : s.Agree t) (h : s.Knows C) : t.Knows C := by
  refine ⟨fun x hx => h.task x ?_, fun z x hx => h.zset z x ?_⟩
  · rwa [ha.task] at hx
  · rwa [ha.zset] at hx

theorem task_put_ne (s : Slot) (msg : TaskMessage) (st : TaskState) (hx : x ≠ msg.id) :
    (s.put msg st).task x = s.task x := Function.update_of_ne hx ..

theorem task_setState_ne (s : Slot) (id : String) (st : TaskState) (hx : x ≠ id) :
    (s.setState id st).task x = s.task x := Function.update_of_ne hx ..

theorem task_del_ne (s : Slot) (id : String) (hx : x ≠ id) :
    (s.del id).task x = s.task x := Function.update_of_ne hx ..

/-- A deleted hash is not there, and the others are as before. -/
theorem Knows.delete (h : s.Knows C) (htask : t.task = (s.del id).task)
    (hz : ∀ z x, x ∈ t.zset z → x ∈ s.zset z) : t.Knows C := by
  refine ⟨fun x hx => ?_, fun z x hx => h.zset z x (hz z x hx)⟩
  rw [htask] at hx
  by_cases hxid : x = id
  · subst hxid
    simp [del, TaskHash.present] at hx
  · rw [task_del_ne s id hxid] at hx
    exact h.task x hx

end Slot

theorem Op.Enqueues.target (h : op.Enqueues k msg) : op.target = some msg.id := by
  cases h <;> rfl

theorem Op.Schedules.target (h : op.Schedules k msg) : op.target = some msg.id := by
  cases h <;> rfl

theorem Op.Creates.target (h : op.Creates msg) : op.target = some msg.id := by
  cases h <;> rfl

/-- A move makes known what it stores and what it marks, and nothing else. -/
theorem knows_move {t : Slot} (hm : Move k op s t) (h : s.Knows C)
    (hmark : ∀ q id, op = .markActive q id → C id)
    (hstore : ∀ x, op.target = some x → (t.body x).isSome → C x) : t.Knows C := by
  cases hm with
  | quiet ha => exact ha.knows h
  | @enqueue _ msg _ ho =>
    refine h.update (hstore msg.id ho.target (by simp)) (fun x hx => s.task_put_ne _ _ hx) ?_
    exact fun z x hx => Or.inr ((Slot.mem_zset_enqueue s msg x z).mp hx).1
  | @schedule _ msg _ at' ho =>
    refine h.update (hstore msg.id ho.target (by simp)) (fun x hx => s.task_put_ne _ _ hx) ?_
    intro z x hx
    rcases (Slot.mem_zset_schedule s msg x z at').mp hx with ⟨-, rfl⟩ | ⟨hx, -⟩
    · exact Or.inl rfl
    · exact Or.inr hx
  | @create _ msg _ score ho _ =>
    have hid := hstore msg.id ho.target (by simp)
    cases score with
    | none => exact h.update hid (fun x hx => s.task_put_ne _ _ hx) (fun z x hx => Or.inr hx)
    | some score =>
      refine h.update hid (fun x hx => s.task_put_ne _ _ hx) fun z x hx => ?_
      rcases (Slot.mem_zset_zadd _ msg.id x .scheduled z score).mp hx with ⟨-, rfl⟩ | hx
      · exact Or.inl rfl
      · exact Or.inr hx
  | read | claim | ack => exact ⟨h.task, h.zset⟩
  | mark _ q id =>
    exact h.update (hmark q id rfl) (fun x hx => s.task_setState_ne id _ hx)
      (fun z x hx => Or.inr hx)
  | requeue _ q sid id =>
    unfold Slot.requeue
    dsimp only
    split
    · rename_i hp
      exact h.update (h.task id hp) (fun x hx => (s.ack [sid]).task_setState_ne id _ hx)
        (fun z x hx => Or.inr hx)
    · exact ⟨h.task, h.zset⟩
  | ackDelete => exact h.delete rfl (fun _ _ hx => hx)
  | move _ q sid msg z score =>
    refine h.update (hstore msg.id rfl (by simp)) (fun x hx => (s.ack [sid]).task_put_ne _ _ hx) ?_
    intro z' x hx
    rcases (Slot.mem_zset_moveToZSet s msg x sid z z' score).mp hx with ⟨-, rfl⟩ | hx
    · exact Or.inl rfl
    · exact Or.inr hx
  | forward _ q z now max id hid =>
    refine h.update (h.zset z id hid) (fun x hx => (s.append id).task_setState_ne id _ hx) ?_
    exact fun z' x hx => Or.inr ((Slot.mem_zset_forwardOne s id x z z').mp hx).1
  | trim _ q z cutoff maxSize batch id =>
    exact h.delete rfl (fun z' x hx => ((Slot.mem_zset_trimOne s id x z z').mp hx).1)
  | run _ q id _ hp =>
    refine h.update (h.task id hp) (fun x hx => Slot.task_setState_ne _ id _ hx) ?_
    exact fun z x hx => Or.inr ((Slot.mem_zset_zremAll s id x z).mp hx).1
  | forget _ q id =>
    exact ⟨h.task, fun z x hx => h.zset z x ((Slot.mem_zset_zremAll s id x z).mp hx).1⟩
  | delete _ q id =>
    exact h.delete rfl (fun z x hx => ((Slot.mem_zset_zremAll s id x z).mp hx).1)

theorem Op.Batch.target (h : op.Batch) : op.target = none := by
  cases op with
  | forward | trim => rfl
  | _ => exact h.elim

/-- A request makes known what it stores and what it marks, and nothing else. -/
theorem knows_run (now : Int) (h : s.Knows C) (hmark : ∀ q id, op = .markActive q id → C id)
    (hstore : ∀ x, op.target = some x → ((op.run k now s).1.body x).isSome → C x) :
    (op.run k now s).1.Knows C := by
  by_cases hb : op.Batch
  · exact run_invariant (I := fun t => t.Knows C) (fun _ _ hm h => knows_move hm h hmark
      fun x hx => by rw [hb.target] at hx; cases hx) now h
  · obtain ⟨s₁, ha, ht | hm⟩ := run_once k now s hb
    · rw [ht]
      exact ha.knows h
    · exact knows_move hm (ha.knows h) hmark hstore

/-! ## Messages that are stored or held -/

/-- The message a worker was started with. -/
def JobHolds (P : World → TaskMessage → Prop) (w : World) : Job → Prop
  | .work _ _ m => P w m
  | _ => True

/-- The message a process has read. -/
def EventHolds (P : World → TaskMessage → Prop) (w : World) : Event Cmd Cmd.Reply Job → Prop
  | .call (.redis (.getTask _ _)) (some (some m)) => P w m
  | _ => True

/-- All messages that are stored or held by a process have the property. -/
structure Held (P : World → TaskMessage → Prop) (t : Chronicle) : Prop where
  body : ∀ q x m, (t.world.slot q).body x = some m → P t.world m
  knows : t.Knows (JobHolds P) (EventHolds P)

section Held
variable {P : World → TaskMessage → Prop} {s : Chronicle}

theorem Held.read (h : Held P t) (hp : p ∈ t.procs) (hd : Did p.hist (.getTask q id) (some m)) :
    P t.world m := (h.knows p hp).2 _ hd

theorem Held.work (h : Held P t) {sid : Nat} {hist : Hist} (hp : ⟨.work q sid m, hist⟩ ∈ t.procs) :
    P t.world m := (h.knows _ hp).1

/-- **A property that no step destroys and that every stored message has is held by
all messages.** -/
theorem Held.act (hg : ∀ j, g.spawn j → j.External) (h : Held P s)
    (ha : (g.machine k).Act protocol s t) (hmono : ∀ m, P s.world m → P t.world m)
    (hstate : ∀ m st, P t.world m → P t.world { m with state := st })
    (hop : ∀ i p op, s.procs[i]? = some p → p.job.Request p.hist op → g.allow i op s.world →
      t.world = s.world.perform k i op → ∀ x m, (s.world.slotAfter k op).body x = some m →
        (s.world.slot op.queue).body x = some m ∨ P t.world m) : Held P t := by
  refine ⟨?_, h.knows.act ha ?_ ?_ ?_ ?_ ?_⟩
  · have hold : ∀ q x m, (s.world.slot q).body x = some m → P t.world m :=
      fun q x m hm => hmono m (h.body q x m hm)
    refine world_act (P := fun w => ∀ q x m, (w.slot q).body x = some m → P t.world m) ha hold
      (fun _ _ _ _ _ _ _ => hold) ?_ (fun i n j q x m hm => ?_) (fun _ _ => hold)
    · intro i p op hp hr hok ht q x m hm
      by_cases hq : q = op.queue
      · subst hq
        rw [World.slot_perform_self] at hm
        exact (hop i p op hp hr hok ht x m hm).elim (hold _ x m) id
      · rw [World.slot_perform_ne hq] at hm
        exact hold q x m hm
    · rw [World.slot_give] at hm
      exact hold q x m hm
  · intro j hj
    cases j with
    | work => exact hmono _ hj
    | _ => trivial
  · intro e he
    unfold EventHolds at he ⊢
    split
    · exact hmono _ he
    · trivial
  · intro i p c r hp hc he
    unfold EventHolds
    split
    · rename_i heq
      cases heq
      obtain ⟨-, -, hr⟩ := Regime.exec_answered he
      exact hmono _ (h.body _ _ _ hr.symm)
    · trivial
  · intro i p j hp hf
    refine ⟨trivial, ?_⟩
    have hmem := List.mem_of_getElem? hp
    obtain ⟨job, hist⟩ := p
    cases job with
    | fetch q consumer count keep =>
      cases hf with
      | work hl =>
        obtain ⟨id, hfe, hd⟩ := hl
        exact hstate _ _ (hmono _ (h.read hmem hd))
    | _ => exact hf.elim
  · intro j hj
    have hx := hg j hj
    cases j with
    | work => exact hx.elim
    | _ => trivial

end Held

/-- Every identifier that occurs in a store or that a process holds was created. -/
structure Known (t : Chronicle) : Prop where
  slot : ∀ q, (t.world.slot q).Knows t.world.Created
  held : Held (fun w m => w.Created m.id) t

theorem Op.Stored.target (h : op.Stored k x m) : op.target = some x ∧ m.id = x := by
  obtain ⟨msg, st, hs, rfl, rfl⟩ := h
  cases hs with
  | enqueue h | schedule h | create h => exact ⟨h.target, rfl⟩
  | move h =>
    subst h
    exact ⟨rfl, rfl⟩

/-- What a request may store is created once it is there. -/
theorem World.created_perform (hw : (w.slotAfter k op).WellKept op.queue)
    (hk : (w.slot op.queue).Knows w.Created) (ht : op.target = some x)
    (hb : ((w.slotAfter k op).body x).isSome) :
    (w.perform k i op).Created x := by
  by_cases hold : ((w.slot op.queue).body x).isSome
  · exact (hk.body hold).mono (w.extends_perform k i op)
  · obtain ⟨m, hm⟩ := Option.isSome_iff_exists.mp hb
    refine ⟨m, List.mem_append_left _ ?_, (hw.keyed x m hm).1⟩
    simp [Op.creates, ht, hold, hm]

/-- Only a fetch round marks a task, and only one that it has read. -/
theorem known_of_mark {s : Chronicle} (hs : Sane s) (h : Known s)
    (hp : p ∈ s.procs) (hr : p.job.Request p.hist (.markActive q id)) : s.world.Created id := by
  obtain ⟨job, hist⟩ := p
  cases job with
  | fetch =>
    cases hr with
    | mark hl =>
      obtain ⟨id, -, hd⟩ := hl
      exact h.held.read hp hd
  | send | sendAll => cases hs.traffic hp trivial hr
  | deleteTask | recover => exact nomatch hr
  | work =>
    cases hr with
    | link _ _ _ ho | member _ _ _ _ _ ho | drain _ _ ho | report _ _ _ ho => cases ho

/-- Only a task that is known is moved to a sorted set. -/
theorem known_of_move {s : Chronicle} (hs : Sane s) (h : Known s)
    (hp : p ∈ s.procs) {sid : Nat} {z : ZKey} {score : Int}
    (hr : p.job.Request p.hist (.moveToZSet q sid msg z score)) :
    s.world.Created msg.id := by
  obtain ⟨job, hist⟩ := p
  cases job with
  | send | sendAll => cases hs.traffic hp trivial hr
  | deleteTask | fetch => exact nomatch hr
  | recover =>
    cases hr with
    | archive hc | retry hc =>
      obtain ⟨id, -, hd⟩ := hc
      have hm := h.held.read hp hd
      exact hm
  | work q sid m =>
    have hm := h.held.work hp
    cases hr with
    | link _ _ _ ho | member _ _ _ _ _ ho | drain _ _ ho | report _ _ _ ho => cases ho
    | @retain r => cases r <;> exact hm
    | archive | retry => exact hm

theorem known_act (hg : ∀ j, g.spawn j → j.External) {s : Chronicle}
    (hs : Sane s) (h : Known s) (ha : (g.machine k).Act protocol s t) : Known t := by
  have hext := extends_act ha
  refine ⟨fun q => ?_, h.held.act hg ha (fun _ hm => hm.mono hext) (fun _ _ hm => hm) ?_⟩
  · have hold : ∀ q, (s.world.slot q).Knows t.world.Created :=
      fun q => (h.slot q).mono fun x hx => hx.mono hext
    refine world_act (P := fun w => (w.slot q).Knows t.world.Created) ha (hold q)
      (fun _ _ _ _ _ _ _ => hold q) ?_ (fun i n j => ?_)
      (fun _ _ => ⟨(hold q).task, (hold q).zset⟩)
    · intro i p op hp hr hok ht
      by_cases hq : q = op.queue
      · subst hq
        rw [World.slot_perform_self]
        have hmem := List.mem_of_getElem? hp
        refine knows_run s.world.now (hold _) (fun q' id ho => ?_) fun x hx hb => ht ▸
          World.created_perform (wellKept_run (hs.request hmem hr).local _ (hs.wellKept _))
            (h.slot _) hx hb
        subst ho
        exact (known_of_mark hs h hmem hr).mono hext
      · rw [World.slot_perform_ne hq]
        exact hold q
    · rw [World.slot_give]
      exact hold q
  · intro i p op hp hr _ ht x m hm
    rcases body_run hm with hm' | hst
    · exact Or.inl hm'
    · obtain ⟨htarget, hid⟩ := hst.target
      rw [ht, hid]
      exact Or.inr (World.created_perform
        (wellKept_run (hs.request (List.mem_of_getElem? hp) hr).local _ (hs.wellKept _)) (h.slot _)
        htarget (by rw [hm]; rfl))

theorem Known.init : Known ⟨World.init, []⟩ where
  slot := fun _ => ⟨fun _ h => (nomatch h), fun _ _ h => absurd h List.not_mem_nil⟩
  held := ⟨fun _ _ _ h => (nomatch h), fun _ hp => absurd hp List.not_mem_nil⟩

/-- What a request has created: there was no body, and now there is one. -/
theorem World.created_cases (hw : (w.slotAfter k op).WellKept op.queue)
    (h : (w.perform k i op).Created x) :
    w.Created x ∨ op.target = some x ∧ (w.slot op.queue).body x = none ∧
      ∃ m, Record.created m ∈ (w.perform k i op).log ∧ (w.slotAfter k op).body x = some m := by
  obtain ⟨m, hm, hid⟩ := h
  rcases List.mem_append.mp hm with hnew | hold
  · right
    obtain ⟨m', hc, hmm⟩ := Option.map_eq_some_iff.mp (Option.mem_toList.mp hnew)
    cases hmm
    obtain ⟨id, ht, hid'⟩ := Option.bind_eq_some_iff.mp hc
    split at hid'
    · cases hid'
    · rename_i hnone
      obtain rfl : id = x := (hw.keyed id m hid').1.symm.trans hid
      exact ⟨ht, by simpa using hnone, m, hm, hid'⟩
  · exact Or.inl ⟨m, hold, hid⟩

/-! ## Pending sets -/

/-- The requests that touch groups. -/
def Op.Groups : Op → Prop
  | createGroup .. | createGroupIfAbsent .. | groupComplete .. => True
  | _ => False

namespace Slot

theorem groups_foldl {f : Slot → String → Slot}
    (hf : ∀ u id, (f u id).group = u.group ∧ (f u id).groupResult = u.groupResult)
    (ids : List String) (s : Slot) :
    (ids.foldl f s).group = s.group ∧ (ids.foldl f s).groupResult = s.groupResult := by
  induction ids generalizing s with
  | nil => exact ⟨rfl, rfl⟩
  | cons a ids ih =>
    rw [List.foldl_cons]
    exact ⟨(ih _).1.trans (hf s a).1, (ih _).2.trans (hf s a).2⟩

/-- Other requests leave groups alone. -/
theorem groups_run (now : Int) (hop : ¬ op.Groups) :
    (op.run k now s).1.group = s.group ∧ (op.run k now s).1.groupResult = s.groupResult := by
  cases op with
  | createGroup | createGroupIfAbsent | groupComplete => exact absurd trivial hop
  | enqueueUnique | scheduleUnique | enqueuePeriodic | chainEnqueue | chainSchedule =>
    simp only [Op.run, Slot.enqueueUnique, Slot.scheduleUnique, Slot.enqueuePeriodic,
      Slot.chainEnqueue, Slot.chainSchedule]
    split <;> exact ⟨rfl, rfl⟩
  | requeue =>
    simp only [Op.run, Slot.requeue]
    split <;> exact ⟨rfl, rfl⟩
  | releaseUnique =>
    simp only [Op.run, Slot.releaseUnique]
    split <;> exact ⟨rfl, rfl⟩
  | forward q z => exact groups_foldl (f := forwardOne z) (fun _ _ => ⟨rfl, rfl⟩) _ _
  | trim q z cutoff maxSize batch =>
    have h₁ := groups_foldl (f := trimOne z) (fun _ _ => ⟨rfl, rfl⟩)
      ((s.zset z).zrangebyscore cutoff batch) s
    refine ⟨Eq.trans ?_ h₁.1, Eq.trans ?_ h₁.2⟩
    · exact (groups_foldl (f := trimOne z) (fun _ _ => ⟨rfl, rfl⟩) _ _).1
    · exact (groups_foldl (f := trimOne z) (fun _ _ => ⟨rfl, rfl⟩) _ _).2
  | runTask =>
    simp only [Op.run, Slot.runTask]
    split
    · exact ⟨rfl, rfl⟩
    · split <;> exact ⟨rfl, rfl⟩
  | _ => exact ⟨rfl, rfl⟩

/-- A report takes its member out of the pending set. -/
theorem members_groupComplete (s : Slot) (r : Report) (now : Int) (gid : String) :
    ((s.groupComplete r now).1.group gid).members =
      if gid = r.groupID then srem (s.group gid).members r.member else (s.group gid).members := by
  by_cases hg : gid = r.groupID
  · subst hg
    rw [if_pos rfl]
    unfold groupComplete
    split
    · rename_i hnil
      rw [hnil]
      rfl
    · dsimp only
      split
      · simp
      · rename_i hrest
        split
        all_goals simp [dropGroup, not_not.mp hrest]
  · rw [if_neg hg]
    unfold groupComplete
    split
    · rfl
    · dsimp only
      split
      · simp [Function.update_of_ne hg]
      · split
        all_goals simp [dropGroup, Function.update_of_ne hg]

/-- A report is recorded while the group waits, and dropped with the pending set. -/
theorem fields_groupComplete (s : Slot) (r : Report) (now : Int) :
    ((s.groupComplete r now).1.groupResult r.groupID).fields =
      if (s.group r.groupID).members = [] then (s.groupResult r.groupID).fields
      else if srem (s.group r.groupID).members r.member = [] then [] else s.reportedFields r := by
  unfold groupComplete
  split
  · rfl
  · dsimp only
    split
    · simp
    · rename_i hrest
      rw [if_pos (not_not.mp hrest)]
      split
      · simp [dropGroup]
      · simp [groupResult_placeCallback, dropGroup]

/-- A body after a report is an old one, or the callback with the collected results. -/
theorem body_groupComplete (s : Slot) (r : Report) (now : Int)
    (h : (s.groupComplete r now).1.body x = some m) : s.body x = some m ∨
      (s.group r.groupID).members ≠ [] ∧ srem (s.group r.groupID).members r.member = [] ∧
        m = withResults r.callback (s.reportedFields r) r.size := by
  unfold groupComplete at h
  split at h
  · exact Or.inl h
  · rename_i hne
    dsimp only at h
    split at h
    · exact Or.inl h
    · rename_i hrest
      split at h
      · exact Or.inl h
      · rw [body_placeCallback] at h
        split at h
        · exact Or.inr ⟨hne, not_not.mp hrest, (Option.some.inj h).symm⟩
        · exact Or.inl h

/-- When the last member has reported, the callback exists. -/
theorem present_groupComplete (s : Slot) (r : Report) (now : Int)
    (hne : (s.group r.groupID).members ≠ [])
    (hrest : srem (s.group r.groupID).members r.member = []) :
    ((s.groupComplete r now).1.task r.callback.id).present = true := by
  unfold groupComplete
  rw [if_neg hne]
  dsimp only
  rw [if_neg (not_not.mpr hrest)]
  split
  · assumption
  · cases r.score with
    | none => simp [placeCallback, put, append, TaskHash.present]
    | some score => simp [placeCallback, put, zadd, TaskHash.present]

/-- Where there is nothing of a stage, its pending set is created as that of a group. -/
theorem createGroupIfAbsent_of_none {cb : String} (ids : List String) (now : Int)
    (hcb : (s.task cb).present = false) (hset : (s.group gid).members = [])
    (hres : s.groupResult gid = {}) :
    s.createGroupIfAbsent gid ids cb now = (s.createGroup gid ids now, .created) := by
  have hsame : Function.update s.groupResult gid {} = s.groupResult := by
    rw [← hres]
    exact Function.update_eq_self gid s.groupResult
  unfold createGroupIfAbsent createGroup
  rw [hcb, hset, hsame]
  rfl

/-- The pending set of a stage is created only when there is none and no callback. -/
theorem members_createGroupIfAbsent (s : Slot) (gid' : String) (ids : List String) (cb : String)
    (now : Int) (gid : String) :
    ((s.createGroupIfAbsent gid' ids cb now).1.group gid).members =
      if gid = gid' ∧ (s.group gid').members = [] ∧ (s.task cb).present = false then sadd [] ids
      else (s.group gid).members := by
  unfold createGroupIfAbsent
  by_cases hp : (s.task cb).present = true
  · simp [hp]
  · by_cases hm : (s.group gid').members = []
    · by_cases hg : gid = gid'
      · subst hg
        simp [hp, hm]
      · simp [hp, hm, hg]
    · by_cases hg : gid = gid'
      · subst hg
        simp [hp, hm]
      · simp [hp, hm, hg]

end Slot

/-- The request is about the group. -/
def Op.Touches (gid : String) : Op → Prop
  | createGroup _ gid' _ | createGroupIfAbsent _ gid' _ _ => gid' = gid
  | groupComplete _ r => r.groupID = gid
  | _ => False

/-- A request leaves other groups alone. -/
theorem Slot.group_run_of_not_touches (now : Int) (h : ¬ op.Touches gid) :
    (op.run k now s).1.group gid = s.group gid ∧
      (op.run k now s).1.groupResult gid = s.groupResult gid := by
  by_cases hg : op.Groups
  · cases op with
    | createGroup q gid' ids => exact ⟨Function.update_of_ne (Ne.symm h) .., rfl⟩
    | createGroupIfAbsent q gid' ids cb =>
      have hne : gid ≠ gid' := Ne.symm h
      simp only [Op.run, Slot.createGroupIfAbsent]
      split
      · exact ⟨rfl, rfl⟩
      · split
        · exact ⟨Function.update_of_ne hne .., rfl⟩
        · exact ⟨Function.update_of_ne hne .., Function.update_of_ne hne ..⟩
    | groupComplete q r =>
      have hne : gid ≠ r.groupID := Ne.symm h
      simp only [Op.run, Slot.groupComplete]
      split
      · exact ⟨rfl, rfl⟩
      · split
        · exact ⟨Function.update_of_ne hne .., Function.update_of_ne hne ..⟩
        · split
          · exact ⟨Function.update_of_ne hne .., Function.update_of_ne hne ..⟩
          · rw [Slot.group_placeCallback, Slot.groupResult_placeCallback]
            exact ⟨Function.update_of_ne hne .., Function.update_of_ne hne ..⟩
    | _ => exact hg.elim
  · obtain ⟨h₁, h₂⟩ := Slot.groups_run (k := k) (s := s) now hg
    exact ⟨congrFun h₁ gid, congrFun h₂ gid⟩

/-- The request does not start the group over; it names the group's callback, and a
pending set that it creates has members. -/
def Op.Proper (gid : String) : Op → Prop
  | createGroup _ gid' _ => gid' ≠ gid
  | createGroupIfAbsent _ gid' ids cb => gid' = gid → cb = callbackID gid ∧ ids ≠ []
  | groupComplete _ r => r.groupID = gid → r.callback.id = callbackID gid
  | _ => True

namespace World

/-- The members of a group that have not reported yet. -/
def members (w : World) (q gid : String) : List String := ((w.slot q).group gid).members

/-- The group waits for its members, or has completed. -/
def Started (w : World) (q gid : String) : Prop :=
  w.members q gid ≠ [] ∨ w.Created (callbackID gid)

/-- The group does not wait for the member any more. -/
def Left (w : World) (q gid member : String) : Prop :=
  w.Created (callbackID gid) ∨ w.members q gid ≠ [] ∧ member ∉ w.members q gid

/-- No pending set and no result of a group expires. -/
def KeepsGroups (w : World) (t : Int) : Prop := ∀ q gid,
  (((w.slot q).group gid).members ≠ [] → t < ((w.slot q).group gid).expireAt) ∧
    (((w.slot q).groupResult gid).fields ≠ [] → t < ((w.slot q).groupResult gid).expireAt)

theorem KeepsGroups.members {t : Int} (h : w.KeepsGroups t) (q gid : String) :
    (w.tick t).members q gid = w.members q gid := by
  change (if ((w.slot q).group gid).expireAt ≤ t then ({} : GroupSet)
    else (w.slot q).group gid).members = ((w.slot q).group gid).members
  split
  · rename_i hle
    by_contra hne
    have hlt := (h q gid).1 (Ne.symm hne)
    omega
  · rfl

/-- How a request changes a pending set. -/
theorem members_perform (w : World) (k : Keys) (i : Nat) (q gid : String) (hop : op.Proper gid) :
    (w.perform k i op).members q gid = w.members q gid ∨
    (w.members q gid = [] ∧ (w.perform k i op).members q gid ≠ []) ∨
    ∃ r, op = .groupComplete q r ∧ r.groupID = gid ∧
      (w.perform k i op).members q gid = srem (w.members q gid) r.member := by
  by_cases hq : q = op.queue
  · subst hq
    unfold World.members
    rw [World.slot_perform_self]
    by_cases hg : op.Groups
    · cases op with
      | createGroup q gid' ids =>
        left
        simp only [World.slotAfter, Op.run, Op.queue, Slot.createGroup]
        rw [Function.update_of_ne (Ne.symm hop)]
      | createGroupIfAbsent q gid' ids cb =>
        have hm := Slot.members_createGroupIfAbsent (w.slot q) gid' ids cb w.now gid
        simp only [World.slotAfter, Op.run, Op.queue, hm]
        split
        · rename_i hcond
          obtain ⟨rfl, hnil, -⟩ := hcond
          refine Or.inr (Or.inl ⟨hnil, ?_⟩)
          obtain ⟨x, hx⟩ := List.exists_mem_of_ne_nil ids (hop rfl).2
          exact List.ne_nil_of_mem (mem_sadd.mpr (Or.inr hx))
        · exact Or.inl rfl
      | groupComplete q r =>
        have hm := Slot.members_groupComplete (w.slot q) r w.now gid
        simp only [World.slotAfter, Op.run, Op.queue, hm]
        split
        · rename_i hgid
          exact Or.inr (Or.inr ⟨r, rfl, hgid.symm, rfl⟩)
        · exact Or.inl rfl
      | _ => exact hg.elim
    · left
      rw [World.slotAfter, (Slot.groups_run w.now hg).1]
  · left
    unfold World.members
    rw [World.slot_perform_ne hq]

/-- The members of a pending set were put there when it was created. -/
theorem mem_members_perform (w : World) (k : Keys) (i : Nat) (q gid : String)
    (hx : x ∈ (w.perform k i op).members q gid) : x ∈ w.members q gid ∨
      ∃ ids, x ∈ ids ∧ (op = .createGroup q gid ids ∨
        ∃ cb, op = .createGroupIfAbsent q gid ids cb) := by
  by_cases hq : q = op.queue
  · subst hq
    unfold World.members at hx ⊢
    rw [World.slot_perform_self] at hx
    by_cases hg : op.Groups
    · cases op with
      | createGroup q gid' ids =>
        by_cases hgid : gid = gid'
        · subst hgid
          simp only [World.slotAfter, Op.run, Op.queue, Slot.createGroup, Function.update_self,
            mem_sadd] at hx
          exact hx.imp id fun hx => ⟨ids, hx, Or.inl rfl⟩
        · simp only [World.slotAfter, Op.run, Op.queue, Slot.createGroup,
            Function.update_of_ne hgid] at hx
          exact Or.inl hx
      | createGroupIfAbsent q gid' ids cb =>
        simp only [World.slotAfter, Op.run, Op.queue, Slot.members_createGroupIfAbsent] at hx
        split at hx
        · rename_i hcond
          obtain ⟨rfl, -⟩ := hcond
          rw [mem_sadd] at hx
          exact Or.inr ⟨ids, hx.resolve_left List.not_mem_nil, Or.inr ⟨cb, rfl⟩⟩
        · exact Or.inl hx
      | groupComplete q r =>
        simp only [World.slotAfter, Op.run, Op.queue, Slot.members_groupComplete] at hx
        split at hx
        · exact Or.inl (mem_srem.mp hx).1
        · exact Or.inl hx
      | _ => exact hg.elim
    · rw [World.slotAfter, (Slot.groups_run w.now hg).1] at hx
      exact Or.inl hx
  · unfold World.members at hx ⊢
    rw [World.slot_perform_ne hq] at hx
    exact Or.inl hx

/-- A report that empties the pending set has created the callback, or found it. -/
theorem created_of_report (hk : ((w.perform k i op).slot op.queue).Knows (w.perform k i op).Created)
    {r : Slot.Report} (hop : op.Proper r.groupID) (ho : op = .groupComplete q r)
    (hne : w.members q r.groupID ≠ []) (hnil : srem (w.members q r.groupID) r.member = []) :
    (w.perform k i op).Created (callbackID r.groupID) := by
  subst ho
  refine hop rfl ▸ hk.task r.callback.id ?_
  rw [World.slot_perform_self]
  exact Slot.present_groupComplete (w.slot q) r w.now hne hnil

theorem Started.perform (hop : op.Proper gid)
    (hk : ((w.perform k i op).slot op.queue).Knows (w.perform k i op).Created)
    (h : w.Started q gid) : (w.perform k i op).Started q gid := by
  rcases h with hne | hc
  · rcases members_perform w k i q gid hop with heq | ⟨hnil, -⟩ | ⟨r, ho, rfl, heq⟩
    · exact Or.inl (heq ▸ hne)
    · exact absurd hnil hne
    · by_cases hrest : srem (w.members q r.groupID) r.member = []
      · exact Or.inr (created_of_report hk hop ho hne hrest)
      · exact Or.inl (heq ▸ hrest)
  · exact Or.inr (hc.mono (w.extends_perform k i op))

theorem Left.perform (hop : op.Proper gid)
    (hk : ((w.perform k i op).slot op.queue).Knows (w.perform k i op).Created)
    (h : w.Left q gid member) : (w.perform k i op).Left q gid member := by
  rcases h with hc | ⟨hne, hmem⟩
  · exact Or.inl (hc.mono (w.extends_perform k i op))
  · rcases members_perform w k i q gid hop with heq | ⟨hnil, -⟩ | ⟨r, ho, rfl, heq⟩
    · exact Or.inr ⟨heq ▸ hne, heq ▸ hmem⟩
    · exact absurd hnil hne
    · by_cases hrest : srem (w.members q r.groupID) r.member = []
      · exact Or.inl (created_of_report hk hop ho hne hrest)
      · refine Or.inr ⟨heq ▸ hrest, ?_⟩
        rw [heq, mem_srem]
        exact fun hm => hmem hm.1

/-- After a report, its group does not wait for the member. -/
theorem left_of_report {r : Slot.Report} (hop : (Op.groupComplete q r).Proper r.groupID)
    (hk : ((w.perform k i (.groupComplete q r)).slot q).Knows
      (w.perform k i (.groupComplete q r)).Created)
    (h : w.Started q r.groupID) :
    (w.perform k i (.groupComplete q r)).Left q r.groupID r.member := by
  rcases h with hne | hc
  · have heq : (w.perform k i (.groupComplete q r)).members q r.groupID =
        srem (w.members q r.groupID) r.member := by
      have hm := Slot.members_groupComplete (w.slot q) r w.now r.groupID
      rw [if_pos rfl] at hm
      have hslot : (w.perform k i (.groupComplete q r)).slot q =
          ((w.slot q).groupComplete r w.now).1 := World.slot_perform_self
      unfold World.members
      rw [hslot, hm]
    by_cases hrest : srem (w.members q r.groupID) r.member = []
    · exact Or.inl (created_of_report hk hop rfl hne hrest)
    · exact Or.inr ⟨heq ▸ hrest, by rw [heq, mem_srem]; exact fun hm => hm.2 rfl⟩
  · exact Or.inl (hc.mono (w.extends_perform k i _))

/-- After a stage was created or found, it has started; if it was found complete, its
callback exists. -/
theorem started_of_stage {ids : List String} {cb : String}
    (hop : (Op.createGroupIfAbsent q gid ids cb).Proper gid)
    (hk : ((w.perform k i (.createGroupIfAbsent q gid ids cb)).slot q).Knows
      (w.perform k i (.createGroupIfAbsent q gid ids cb)).Created) :
    (w.perform k i (.createGroupIfAbsent q gid ids cb)).Started q gid ∧
      (w.reply k (.createGroupIfAbsent q gid ids cb) = .done →
        (w.perform k i (.createGroupIfAbsent q gid ids cb)).Created (callbackID gid)) := by
  obtain ⟨rfl, hids⟩ := hop rfl
  have hslot : (w.perform k i (.createGroupIfAbsent q gid ids (callbackID gid))).slot q =
      ((w.slot q).createGroupIfAbsent gid ids (callbackID gid) w.now).1 :=
    World.slot_perform_self
  by_cases hp : ((w.slot q).task (callbackID gid)).present = true
  · have hc : (w.perform k i (.createGroupIfAbsent q gid ids (callbackID gid))).Created
        (callbackID gid) := by
      refine hk.task _ ?_
      rw [hslot]
      unfold Slot.createGroupIfAbsent
      rwa [if_pos hp]
    exact ⟨Or.inr hc, fun _ => hc⟩
  · refine ⟨Or.inl ?_, fun hr => ?_⟩
    · unfold World.members
      rw [hslot, Slot.members_createGroupIfAbsent]
      split
      · obtain ⟨x, hx⟩ := List.exists_mem_of_ne_nil ids hids
        exact List.ne_nil_of_mem (mem_sadd.mpr (Or.inr hx))
      · rename_i hcond
        exact fun hnil => hcond ⟨rfl, hnil, Bool.eq_false_iff.mpr hp⟩
    · have hr' : ((w.slot q).createGroupIfAbsent gid ids (callbackID gid) w.now).2 = .done := hr
      unfold Slot.createGroupIfAbsent at hr'
      rw [if_neg hp] at hr'
      split at hr' <;> cases hr'

section Act
variable {s : Chronicle}

theorem Started.mono (h : w.Started q gid) (hm : w'.members q gid = w.members q gid)
    (he : w.Extends w') : w'.Started q gid := by
  rcases h with h | h
  · exact Or.inl (hm ▸ h)
  · exact Or.inr (h.mono he)

theorem Left.mono (h : w.Left q gid member) (hm : w'.members q gid = w.members q gid)
    (he : w.Extends w') : w'.Left q gid member := by
  rcases h with h | h
  · exact Or.inl (h.mono he)
  · exact Or.inr (hm ▸ h)

theorem members_give (w : World) (i n : Nat) (j : Job) (q gid : String) :
    (w.give i n j).members q gid = w.members q gid := by
  rw [World.members, slot_give]
  rfl

/-- A group that has started does not stop before its callback exists, as long as it
does not expire. -/
theorem Started.act (h : s.world.Started q gid) (ha : (g.machine k).Act protocol s t)
    (hk : Known t) (hop : ∀ p op, p ∈ s.procs → p.job.Request p.hist op → op.Proper gid)
    (htick : ∀ now, g.tick s.world now → s.world.KeepsGroups now) : t.world.Started q gid := by
  refine world_act (P := fun w => w.Started q gid) ha h ?_ ?_ ?_ ?_
  · exact fun _ _ msg out _ _ _ => h.mono rfl (extends_handled _ msg out)
  · intro i p op hp hr _ ht
    exact h.perform (hop p op (List.mem_of_getElem? hp) hr) (ht ▸ hk.slot _)
  · exact fun i n j => h.mono (members_give _ i n j q gid) (extends_give _ i n j)
  · exact fun now hn => h.mono ((htick now hn).members q gid) (fun _ hr => hr)

/-- A member that has left its group does not come back. -/
theorem Left.act (h : s.world.Left q gid member) (ha : (g.machine k).Act protocol s t)
    (hk : Known t) (hop : ∀ p op, p ∈ s.procs → p.job.Request p.hist op → op.Proper gid)
    (htick : ∀ now, g.tick s.world now → s.world.KeepsGroups now) :
    t.world.Left q gid member := by
  refine world_act (P := fun w => w.Left q gid member) ha h ?_ ?_ ?_ ?_
  · exact fun _ _ msg out _ _ _ => h.mono rfl (extends_handled _ msg out)
  · intro i p op hp hr _ ht
    exact h.perform (hop p op (List.mem_of_getElem? hp) hr) (ht ▸ hk.slot _)
  · exact fun i n j => h.mono (members_give _ i n j q gid) (extends_give _ i n j)
  · exact fun now hn => h.mono ((htick now hn).members q gid) (fun _ hr => hr)

end Act

end World

end ChronosGo
