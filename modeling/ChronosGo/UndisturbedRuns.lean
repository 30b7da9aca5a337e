import ChronosGo.Undisturbed

/-! # Undisturbed runs are steady

Every step of an undisturbed run keeps `Steady`.  The requests are those of `Deed`;
each changes the course of one task or of one group, and for each part of the
invariant there is a lemma that says what an answered request makes of it.  The other
steps change no key: a handler returns, a worker is started, time passes.
-/
namespace ChronosGo
open Interleaving Redis GroupCompletion

variable {hist : Hist} {sid i n j : Nat} {f : Handlers} {P : Plan} {ops : List Op} {k : Keys}
  {s t : Chronicle} {g x q id : String} {link : ChainLink} {u : Slot}
  {score : Option Int} {now : Int} {p p' : Party} {op : Op} {a b : P.Step}
  {fin : Nat → P.Step}

/-! ## Histories and processes -/

theorem Unacked.of_append {h es : Hist} (hu : Unacked (h ++ es)) : Unacked h := by
  rintro op ⟨r, hr⟩
  exact hu op ⟨r, List.mem_append_left es hr⟩

theorem Undispatched.of_append {h es : Hist} (hu : Undispatched (h ++ es) sid) :
    Undispatched h sid := by
  refine ⟨fun q m hm => hu.1 q m (List.mem_append_left es hm), ?_⟩
  rintro q id ⟨r, hr⟩
  exact hu.2 q id ⟨r, List.mem_append_left es hr⟩

theorem Heard.mono {w w' : World} (hext : w.Extends w') {e : Event Cmd Cmd.Reply Job}
    (h : Heard f w e) : Heard f w' e := by
  cases e with
  | fork => trivial
  | call c r =>
    cases c with
    | redis op => cases op <;> first | exact ⟨h.1, h.2.mono hext⟩ | exact h
    | handle => exact ⟨h.1, hext _ h.2⟩
    | _ => trivial

section Act
variable {g : Regime}

/-- Whoever works on a task goes on. -/
theorem works_act (ha : (g.machine k).Act protocol s t) (hw : Works P s i a sid hist) :
    ∃ es, Works P t i a sid (hist ++ es) :=
  Trace.exists_proc_act ha hw

theorem Origin.act (ha : (g.machine k).Act protocol s t) (h : Origin P ops s b) :
    Origin P ops t b := by
  rcases h with ⟨h, n, op, hp, hn, hop, hs⟩ | ⟨i, a, sid, h, op, hw, hn, ⟨r, hr⟩, ht⟩
  · obtain ⟨es, hp'⟩ := Trace.exists_proc_act ha hp
    exact Or.inl ⟨_, n, op, hp', by simp; omega, hop, hs⟩
  · obtain ⟨es, hw'⟩ := works_act ha hw
    exact Or.inr ⟨i, a, sid, _, op, hw', hn, ⟨r, List.mem_append_left es hr⟩, ht⟩

theorem Opened.act (ha : (g.machine k).Act protocol s t) {gid : String}
    (h : Opened P f ops s gid) : Opened P f ops t gid := by
  rcases h with ⟨q, ids, h, hop, hp, hd⟩ | ⟨i, a, sid, h, link, rest, st, hw, hc, hg, hid, hd⟩
  · obtain ⟨es, hp'⟩ := Trace.exists_proc_act ha hp
    exact Or.inl ⟨q, ids, _, hop, hp', hd.mono (List.subset_append_left _ _)⟩
  · obtain ⟨es, hw'⟩ := works_act ha hw
    exact Or.inr ⟨i, a, sid, _, link, rest, st, hw', hc, hg, hid,
      hd.mono (List.subset_append_left _ _)⟩

end Act

theorem Works.inj (hP : P.Sound f) {sid' : Nat} {h h' : Hist} (ha : Works P s i a sid h)
    (hb : Works P s i b sid' h') : a = b := by
  have heq := ha.symm.trans hb
  simp only [Option.some.injEq, Proc.mk.injEq, Job.work.injEq] at heq
  have hid := congrArg TaskMessage.id heq.1.2.2
  exact hP.inj a b hid

theorem Plan.Gathers.callback_id (hG : P.Gathers f g link n fin b) :
    (P.message b).id = callbackID g := by
  obtain ⟨st, hcb⟩ := hG.callback
  have hid := congrArg TaskMessage.id hcb
  rw [← hG.isGroup.groupID 0 hG.isGroup.size]
  exact hid.symm

theorem Plan.Gathers.callback_queue (hG : P.Gathers f g link n fin b) :
    (P.message b).queue = link.queue := by
  obtain ⟨st, hcb⟩ := hG.callback
  exact (congrArg TaskMessage.queue hcb).symm

theorem Plan.Gathers.callback_groupID (hG : P.Gathers f g link n fin b) :
    (P.message b).groupID = "" := by
  obtain ⟨st, hcb⟩ := hG.callback
  exact (congrArg TaskMessage.groupID hcb).symm

/-- The report of a member is a call of the completion protocol. -/
theorem Plan.Gathers.report_id (hG : P.Gathers f g link n fin b) (hj : j < n) (score : Option Int) :
    (P.report f (fin j) link score).callback.id = (P.message b).id := by
  rw [hG.callback_id, ← hG.isGroup.groupID j hj]
  rfl

section Report
variable {cs : List Call}

/-- What a report does to the keys of its group. -/
theorem Plan.Gathers.callSpec (hG : P.Gathers f g link n fin b) (hj : j < n)
    (ht : Tracks g n (P.message b).id cs u) (score : Option Int) (now : Int) :
    CallSpec g n (groupCallbackMessage (P.message (fin 0)) link) cs
      ⟨j, resultOf f (P.message (fin j)), score, now⟩ u
      (u.groupComplete (P.report f (fin j) link score) now) := by
  have hid : (groupCallbackMessage (P.message (fin 0)) link).id = (P.message b).id :=
    hG.report_id hG.isGroup.size none
  rw [← hid] at ht
  have hspec := tracks_call (c := ⟨j, resultOf f (P.message (fin j)), score, now⟩) hG.isGroup hj ht
  exact hspec

/-- The report that completes a group creates the callback that the plan prescribes. -/
theorem Plan.Gathers.fires (hG : P.Gathers f g link n fin b) (hj : j < n)
    (ht : Tracks g n (P.message b).id cs u)
    (hcs : ∀ c ∈ cs, c.slot < n ∧ c.result = resultOf f (P.message (fin c.slot)))
    (hr : (u.groupComplete (P.report f (fin j) link score) now).2 = true) :
    ∃ st, (u.groupComplete (P.report f (fin j) link score) now).1 =
      (u.dropGroup g).placeCallback { P.message b with state := st } score := by
  have hspec := hG.callSpec hj ht score now
  have hcs' : ∀ c ∈ cs ++ [⟨j, resultOf f (P.message (fin j)), score, now⟩],
      c.slot < n ∧ c.result = resultOf f (P.message (fin c.slot)) := by
    intro c hc
    rcases List.mem_append.mp hc with hc | hc
    · exact hcs c hc
    · rw [List.mem_singleton.mp hc]
      exact ⟨hj, rfl⟩
  obtain ⟨st, hcb⟩ := hG.callback
  refine ⟨st, ?_⟩
  rw [hspec.placed hr, collected_steady (hspec.fires.mp hr).1 (fun c hc => (hcs' c hc).1)
    (f := fun j => resultOf f (P.message (fin j))) (fun c hc => (hcs' c hc).2), hcb]

end Report

/-! ## What an answer leaves behind -/

/-- Process `i` has sent a request and got its answer. -/
def answered (k : Keys) (s : Chronicle) (i : Nat)
    (p : Party) (op : Op) : Chronicle :=
  ⟨s.world.perform k i op,
    s.procs.set i ⟨p.job, p.hist ++ [.call (.redis op) (some (s.world.reply k op))]⟩⟩

theorem procs_answered_self (hp : s.procs[i]? = some p) : (answered k s i p op).procs[i]? =
    some ⟨p.job, p.hist ++ [.call (.redis op) (some (s.world.reply k op))]⟩ :=
  List.getElem?_set_self (List.getElem?_eq_some_iff.mp hp).1

theorem procs_answered_ne (hj : j ≠ i) : (answered k s i p op).procs[j]? = s.procs[j]? :=
  List.getElem?_set_ne (Ne.symm hj)

/-- The processes after an answer. -/
theorem procs_answered (hp : s.procs[i]? = some p)
    (hp' : (answered k s i p op).procs[j]? = some p') : j ≠ i ∧ s.procs[j]? = some p' ∨
      j = i ∧ p' = ⟨p.job, p.hist ++ [.call (.redis op) (some (s.world.reply k op))]⟩ := by
  by_cases hj : j = i
  · subst hj
    exact Or.inr ⟨rfl, Option.some.inj (hp'.symm.trans (procs_answered_self hp))⟩
  · exact Or.inl ⟨hj, (procs_answered_ne hj).symm.trans hp'⟩

/-- Who works on a task after an answer. -/
theorem works_answered (hp : s.procs[i]? = some p)
    (hw : Works P (answered k s i p op) j a sid hist) :
    j ≠ i ∧ Works P s j a sid hist ∨ j = i ∧ Works P s i a sid p.hist ∧
      hist = p.hist ++ [.call (.redis op) (some (s.world.reply k op))] := by
  rcases procs_answered hp hw with ⟨hj, hw⟩ | ⟨rfl, heq⟩
  · exact Or.inl ⟨hj, hw⟩
  · obtain ⟨job, h⟩ := p
    cases heq
    exact Or.inr ⟨rfl, hp, rfl⟩

theorem exists_works_answered (hp : s.procs[i]? = some p) (hw : Works P s j a sid hist) :
    ∃ es, Works P (answered k s i p op) j a sid (hist ++ es) := by
  by_cases hj : j = i
  · subst hj
    obtain ⟨job, h⟩ := p
    cases hp.symm.trans hw
    exact ⟨_, procs_answered_self hp⟩
  · exact ⟨[], by rw [List.append_nil]; exact (procs_answered_ne hj).trans hw⟩

/-- The worker that has sent the request, as it is after the answer. -/
theorem works_answered_self (hp : s.procs[i]? = some p) (hw : Works P s i a sid p.hist) :
    Works P (answered k s i p op) i a sid
      (p.hist ++ [.call (.redis op) (some (s.world.reply k op))]) := by
  obtain ⟨job, h⟩ := p
  cases hp.symm.trans hw
  exact procs_answered_self hp

/-- A request leaves other tasks alone. -/
theorem same_perform (hr : (s.world.slot op.queue).Ready op) (hb : ¬ op.Batch)
    (hx : q = op.queue → op.subject ≠ some x) :
    (s.world.slot q).Same x ((s.world.perform k i op).slot q) := by
  by_cases hq : q = op.queue
  · subst hq
    rw [World.slot_perform_self]
    exact Slot.same_run _ hr hb (hx rfl)
  · rw [World.slot_perform_ne hq]
    exact ⟨rfl, fun _ => Iff.rfl⟩

theorem Op.subject_eq_of_target (h : op.target = some x) : op.subject = some x := by
  cases op <;> first | exact h | cases h

/-- A task that nobody creates or acknowledges goes on as before. -/
theorem Phase.step (h : Phase P s a)
    (habsent : (s.world.slot (P.message a).queue).Absent (P.message a).id →
      (t.world.slot (P.message a).queue).Absent (P.message a).id)
    (hwaits : (s.world.slot (P.message a).queue).Waits (P.message a) →
      (t.world.slot (P.message a).queue).Waits (P.message a))
    (hsettled : (s.world.slot (P.message a).queue).Settled (P.message a).id →
      (t.world.slot (P.message a).queue).Settled (P.message a).id)
    (hnew : t.world.Created (P.message a).id → s.world.Created (P.message a).id)
    (hext : s.world.Extends t.world)
    (hback : ∀ j sid h', Works P t j a sid h' →
      h' = [] ∨ ∃ h, Works P s j a sid h ∧ (Unacked h → Unacked h'))
    (hforth : ∀ j sid h, Works P s j a sid h → ∃ es, Works P t j a sid (h ++ es)) :
    Phase P t a := by
  cases h with
  | unborn hc hs => exact .unborn (fun hc' => hc (hnew hc')) (habsent hs)
  | waits hc hw hs =>
    refine .waits (hc.mono hext) (fun j sid h' hw' => ?_) (hwaits hs)
    rcases hback j sid h' hw' with rfl | ⟨h, hw₀, hu⟩
    · exact unacked_nil
    · exact hu (hw j sid h hw₀)
  | settled hw hs =>
    obtain ⟨j, sid, h, hw, hu⟩ := hw
    obtain ⟨es, hw'⟩ := hforth j sid h hw
    exact .settled ⟨j, sid, _, hw', fun hu' => hu hu'.of_append⟩ (hsettled hs)

theorem Works.job (hw : Works P s i a sid hist) (hp : s.procs[i]? = some p) :
    p.job = .work (P.message a).queue sid (P.message a).active := by
  cases hp.symm.trans hw
  rfl

namespace Steady

theorem absent_of_new (h : Steady P f ops s) (hc : ¬ s.world.Created (P.message a).id) :
    (s.world.slot (P.message a).queue).Absent (P.message a).id := by
  cases h.phase a with
  | unborn _ hs => exact hs
  | waits hc' => exact absurd hc' hc
  | settled hw =>
    obtain ⟨j, sid, hist, hw, -⟩ := hw
    exact absurd (h.created_of_works hw) hc

/-- The entry a worker works on is its own until it is acknowledged. -/
theorem lent_of_works (h : Steady P f ops s) (hw : Works P s i a sid hist) (hu : Unacked hist) :
    s.world.Lent i (P.message a).queue sid (P.message a).id :=
  h.lent i _ _ _ _ hw ⟨rfl, rfl, rfl, hu⟩

theorem waits_of_lent (h : Steady P f ops s) (hP : P.Sound f)
    (hl : s.world.Lent i (P.message a).queue sid (P.message a).id) :
    (∀ i sid h, Works P s i a sid h → Unacked h) ∧
      (s.world.slot (P.message a).queue).Waits (P.message a) := by
  obtain ⟨c, hid, hq, hu, hwaits⟩ := h.waits_of_entry hl.entry
  obtain rfl := hP.inj c a hid
  exact ⟨hu, hwaits⟩

/-- What is sent leaves every task in one place. -/
theorem ready (h : Steady P f ops s) (hp : s.procs[i]? = some p)
    (hd : Deed P f ops s i p op) : (s.world.slot op.queue).Ready op := by
  have hbody : ∀ {b}, ¬ s.world.Created (P.message b).id →
      (s.world.slot (P.message b).queue).body (P.message b).id = none := by
    intro b hnew
    unfold Slot.body
    rw [(h.absent_of_new hnew).task]
  cases hd with
  | submit _ _ ho _ hnew => cases ho <;> exact hbody hnew
  | next _ _ _ ho => cases ho <;> trivial
  | retain hw hu =>
    change (_, (finished f (P.message _)).id) ∈ _
    rw [id_finished]
    exact (h.lent_of_works hw hu).entry
  | delete hw hu => exact (h.lent_of_works hw hu).entry
  | mark hh => exact ⟨_, (h.lent i p _ _ _ hp hh).entry⟩
  | requeue _ hh => exact (h.lent i p _ _ _ hp hh).entry
  | look _ _ _ _ hr => exact hr
  | openGroup | stage | report | read | load | forward => trivial

end Steady

namespace Deed

/-- What is acknowledged is held by the process that does so: by a worker that has handed
over, or by a fetch round that returns it. -/
theorem acks (hd : Deed P f ops s i p op) (hs : sid ∈ op.acks) :
    op.acks = [sid] ∧ ((∃ a, Works P s i a sid p.hist ∧ Unacked p.hist ∧
      op.subject = some (P.message a).id ∧ op.queue = (P.message a).queue ∧
      HandedOver p.hist (finished f (P.message a)) ∧ P.ran f a ∈ s.world.log) ∨
    ∃ q consumer count keep id, p.job = .fetch q consumer count keep ∧ Holds p op.queue sid id ∧
      op = .requeue op.queue sid id) := by
  cases hd with
  | submit _ _ ho | next _ _ _ ho => cases ho <;> exact absurd hs List.not_mem_nil
  | @retain a _ _ _ hw hu hd ok =>
    obtain rfl := List.mem_singleton.mp hs
    refine ⟨rfl, Or.inl ⟨a, hw, hu, ?_, rfl, hd, ok⟩⟩
    exact congrArg some id_finished
  | @delete a _ hw hu hd ok =>
    obtain rfl := List.mem_singleton.mp hs
    exact ⟨rfl, Or.inl ⟨a, hw, hu, rfl, rfl, hd, ok⟩⟩
  | requeue hj hh =>
    obtain rfl := List.mem_singleton.mp hs
    exact ⟨rfl, Or.inr ⟨_, _, _, _, _, hj, hh, rfl⟩⟩
  | look _ ha =>
    rw [ha] at hs
    exact absurd hs List.not_mem_nil
  | openGroup | stage | report | read | load | mark | forward => exact absurd hs List.not_mem_nil

/-- A request is sent to the queue of its task. -/
theorem subject (hP : P.Sound f) (hd : Deed P f ops s i p op)
    (hx : op.subject = some (P.message a).id) : op.queue = (P.message a).queue := by
  have hinj : ∀ {b}, (P.message b).id = (P.message a).id →
      (P.message b).queue = (P.message a).queue := by
    intro b hid
    rw [hP.inj b a hid]
  cases hd with
  | submit _ _ ho | next _ _ _ ho => cases ho <;> exact hinj (Option.some.inj hx)
  | @report g link n j fin b _ _ hw ok hj hG =>
    have hx' := Option.some.inj hx
    rw [hG.report_id hj] at hx'
    exact hG.callback_queue.symm.trans (hinj hx')
  | @retain a _ _ _ hw hu hd =>
    exact hinj (id_finished.symm.trans (Option.some.inj hx))
  | delete | mark | requeue => exact hinj (Option.some.inj hx)
  | look hs =>
    rw [hs] at hx
    cases hx
  | openGroup | stage | read | load | forward => cases hx

end Deed

/-! ## Tasks -/

namespace Steady

theorem wellKept_answered (ht : Sane (answered k s i p op)) :
    (s.world.slotAfter k op).WellKept op.queue := by
  have hw : ((s.world.perform k i op).slot op.queue).WellKept op.queue := ht.wellKept op.queue
  rwa [World.slot_perform_self] at hw

/-- What a request has created. -/
theorem created_answered (ht : Sane (answered k s i p op))
    (hc : (answered k s i p op).world.Created x) : s.world.Created x ∨
      op.target = some x ∧ (s.world.slot op.queue).body x = none ∧
        ∃ m, (s.world.slotAfter k op).body x = some m := by
  rcases World.created_cases (wellKept_answered ht) hc with hold | ⟨htarget, hnone, m, -, hm⟩
  · exact Or.inl hold
  · exact Or.inr ⟨htarget, hnone, m, hm⟩

theorem created_of_waits (h : Steady P f ops s) (ht : Sane (answered k s i p op))
    (htarget : op.target = some (P.message a).id)
    (hs : (s.world.slotAfter k op).Waits (P.message a)) :
    (answered k s i p op).world.Created (P.message a).id := by
  refine World.created_perform (wellKept_answered ht) (h.known.slot _) htarget ?_
  obtain ⟨-, st, hb⟩ := hs
  rw [hb]
  rfl

theorem created_of_target_none (ht : Sane (answered k s i p op)) (hno : op.target = none)
    (hc : (answered k s i p op).world.Created x) : s.world.Created x := by
  rcases created_answered ht hc with hold | ⟨htarget, -⟩
  · exact hold
  · rw [hno] at htarget
    cases htarget

section
variable (h : Steady P f ops s) (hp : s.procs[i]? = some p)
include h hp

theorem created_of_works_answered (hw : Works P (answered k s i p op) j a sid hist) :
    s.world.Created (P.message a).id := by
  rcases works_answered hp hw with ⟨-, hw⟩ | ⟨-, hw, -⟩
  all_goals exact h.created_of_works hw

/-- A task that is created waits. -/
theorem phase_of_new (ht : Sane (answered k s i p op)) (hnew : ¬ s.world.Created (P.message a).id)
    (htarget : op.target = some (P.message a).id) (hq : op.queue = (P.message a).queue)
    (hs : (s.world.slotAfter k op).Waits (P.message a)) : Phase P (answered k s i p op) a := by
  refine .waits (h.created_of_waits ht htarget hs)
    (fun j sid hist hw => absurd (h.created_of_works_answered hp hw) hnew) ?_
  change ((s.world.perform k i op).slot (P.message a).queue).Waits _
  rw [← hq, World.slot_perform_self]
  exact hs

/-- A task that is neither created nor acknowledged goes on as before. -/
theorem phase_of_kept
    (habsent : (s.world.slot (P.message a).queue).Absent (P.message a).id →
      ((s.world.perform k i op).slot (P.message a).queue).Absent (P.message a).id)
    (hwaits : (s.world.slot (P.message a).queue).Waits (P.message a) →
      ((s.world.perform k i op).slot (P.message a).queue).Waits (P.message a))
    (hsettled : (s.world.slot (P.message a).queue).Settled (P.message a).id →
      ((s.world.perform k i op).slot (P.message a).queue).Settled (P.message a).id)
    (hnew : (answered k s i p op).world.Created (P.message a).id → s.world.Created (P.message a).id)
    (hacks : ∀ sid, Works P s i a sid p.hist → op.acks = []) : Phase P (answered k s i p op) a := by
  refine (h.phase a).step habsent hwaits hsettled hnew (World.extends_perform _ _ _ _)
    (fun j sid h' hw => ?_) fun _ _ _ hw => exists_works_answered hp hw
  rcases works_answered hp hw with ⟨-, hw₀⟩ | ⟨rfl, hw₀, rfl⟩
  · exact Or.inr ⟨_, hw₀, fun hu => hu⟩
  · exact Or.inr ⟨_, hw₀,
      (Extends.request (X := Set.univ) (hacks sid hw₀) (fun _ _ => trivial) _).unacked⟩

theorem phase_of_same
    (hsame : (s.world.slot (P.message a).queue).Same (P.message a).id
      ((s.world.perform k i op).slot (P.message a).queue))
    (hnew : (answered k s i p op).world.Created (P.message a).id → s.world.Created (P.message a).id)
    (hacks : ∀ sid, Works P s i a sid p.hist → op.acks = []) : Phase P (answered k s i p op) a :=
  h.phase_of_kept hp hsame.absent hsame.waits hsame.settled hnew hacks

/-- A task of a request that leaves it waiting. -/
theorem phase_of_waits (ht : Sane (answered k s i p op))
    (hbefore : (s.world.slot (P.message a).queue).Waits (P.message a))
    (hafter : ((s.world.perform k i op).slot (P.message a).queue).Waits (P.message a))
    (hno : op.target = none) (hacks : ∀ sid, Works P s i a sid p.hist → op.acks = []) :
    Phase P (answered k s i p op) a := by
  exact h.phase_of_kept hp (fun ha => (hbefore.not_settled (Or.inl ha)).elim) (fun _ => hafter)
    (fun hs => (hbefore.not_settled hs).elim) (created_of_target_none ht hno) hacks

end

/-- A task whose worker acknowledges it has settled. -/
theorem phase_of_acked (hp : s.procs[i]? = some p) (hw : Works P s i a sid p.hist)
    (hacks : op.acks = [sid])
    (hs : ((s.world.perform k i op).slot (P.message a).queue).Settled (P.message a).id) :
    Phase P (answered k s i p op) a := by
  refine .settled ⟨i, sid, _, works_answered_self hp hw, fun hu => ?_⟩ hs
  have hnil := hu op ⟨_, List.mem_concat_self⟩
  rw [hacks] at hnil
  cases hnil

/-- What a report does, given those before it: the keys of the group track it, and it
creates the callback if it completes the group, and otherwise changes no task. -/
theorem report_spec (h : Steady P f ops s) (hG : P.Gathers f g link n fin b) (hj : j < n)
    (hw : Works P s i (fin j) sid hist) (ok : P.ran f (fin j) ∈ s.world.log) (score : Option Int)
    (hu : ((s.world.slot link.queue).groupComplete (P.report f (fin j) link score)
      s.world.now).1 = u) :
    ∃ cs c, c.slot = j ∧
      (∀ d ∈ cs ++ [c], d.slot < n ∧ d.result = resultOf f (P.message (fin d.slot)) ∧
        P.ran f (fin d.slot) ∈ s.world.log) ∧
      (∀ j < n, HasReported P s (fin j) → ∃ c ∈ cs, c.slot = j) ∧
      (s.world.Created (P.message b).id ↔ Complete n cs) ∧
      Tracks g n (P.message b).id (cs ++ [c]) u ∧
      ((s.world.slot link.queue).Agree u ∧ (Complete n (cs ++ [c]) → Complete n cs) ∨
        ¬ s.world.Created (P.message b).id ∧ Complete n (cs ++ [c]) ∧ u.Waits (P.message b)) := by
  cases h.group g link n fin b hG with
  | closed _ _ _ _ hm =>
    exact absurd (h.created_of_works hw) (hm _ (hG.isGroup.groupID j hj))
  | @opened ho cs ht hc hr hb =>
    have hspec := hG.callSpec hj ht score s.world.now
    have hid : (groupCallbackMessage (P.message (fin 0)) link).id = (P.message b).id :=
      hG.report_id hG.isGroup.size none
    have htracks := hspec.tracks
    rw [hid, hu] at htracks
    refine ⟨cs, ⟨j, resultOf f (P.message (fin j)), score, s.world.now⟩, rfl, ?_, hr,
      hb, htracks, ?_⟩
    · intro d hd
      rcases List.mem_append.mp hd with hd | hd
      · exact hc d hd
      · rw [List.mem_singleton.mp hd]
        exact ⟨hj, rfl, ok⟩
    · cases hreply : ((s.world.slot link.queue).groupComplete (P.report f (fin j) link score)
          s.world.now).2 with
      | true =>
        obtain ⟨hall, hnot⟩ := hspec.fires.mp hreply
        obtain ⟨st, heq⟩ := hG.fires hj ht (fun c hc' => ⟨(hc c hc').1, (hc c hc').2.1⟩) hreply
        have hnew : ¬ s.world.Created (P.message b).id := fun hc => hnot (hb.mp hc)
        have habs : (s.world.slot link.queue).Absent (P.message b).id := by
          have habs := h.absent_of_new hnew
          rwa [hG.callback_queue] at habs
        have hdrop : (s.world.slot link.queue).Agree ((s.world.slot link.queue).dropGroup g) :=
          ⟨rfl, rfl, rfl⟩
        refine Or.inr ⟨hnew, hall, ?_⟩
        rw [← hu, heq]
        exact (hdrop.same.absent habs).waits_placeCallback st score
      | false =>
        rcases Slot.groupComplete_cases (s.world.slot link.queue) (P.report f (fin j) link score)
          s.world.now with ⟨hagree, -⟩ | ⟨htrue, -⟩
        · refine Or.inl ⟨hu ▸ hagree, fun hall => ?_⟩
          by_contra hnot
          rw [hspec.fires.mpr ⟨hall, hnot⟩] at hreply
          cases hreply
        · rw [hreply] at htrue
          cases htrue

/-- The callback of a group when a member reports. -/
theorem phase_of_report (h : Steady P f ops s) (hp : s.procs[i]? = some p)
    (hw : Works P s i (fin j) sid p.hist) (ok : P.ran f (fin j) ∈ s.world.log) (hj : j < n)
    (hG : P.Gathers f g link n fin b)
    (ht : Sane (answered k s i p (.groupComplete link.queue (P.report f (fin j) link score)))) :
    Phase P (answered k s i p (.groupComplete link.queue (P.report f (fin j) link score))) b := by
  obtain ⟨cs, c, -, -, -, -, -, ⟨hagree, -⟩ | ⟨hnew, -, hwaits⟩⟩ :=
    h.report_spec hG hj hw ok score rfl
  · refine h.phase_of_same hp ?_ (fun hc => ?_) fun _ _ => rfl
    · have hslot : (s.world.perform k i (.groupComplete link.queue
          (P.report f (fin j) link score))).slot link.queue =
          ((s.world.slot link.queue).groupComplete (P.report f (fin j) link score) s.world.now).1 :=
        World.slot_perform_self
      rw [hG.callback_queue, hslot]
      exact hagree.same
    · rcases created_answered ht hc with hold | ⟨-, hnone, m, hm⟩
      · exact hold
      · have hbody := (hagree.same (x := (P.message b).id)).body
        cases hm.symm.trans (hbody.trans hnone)
  · exact h.phase_of_new hp ht hnew (congrArg some (hG.report_id hj score))
      hG.callback_queue.symm hwaits

/-- Forwarding moves tasks that wait, and no others. -/
theorem phase_of_forward (h : Steady P f ops s) (hp : s.procs[i]? = some p) {z : ZKey} {max : Nat}
    (ht : Sane (answered k s i p (.forward q z now max))) (hz : z ≠ .completed) :
    Phase P (answered k s i p (.forward q z now max)) a := by
  have hnew : (answered k s i p (.forward q z now max)).world.Created (P.message a).id →
      s.world.Created (P.message a).id := created_of_target_none ht rfl
  by_cases hq : (P.message a).queue = q
  · have hslot : (s.world.perform k i (.forward q z now max)).slot (P.message a).queue =
        ((Op.forward q z now max).run k s.world.now (s.world.slot (P.message a).queue)).1 := by
      rw [hq]
      exact World.slot_perform_self
    refine h.phase_of_kept hp (fun hs => ?_) (fun hs => ?_) (fun hs => ?_) hnew fun _ _ => rfl
    · rw [hslot]
      exact Slot.absent_forward _ hs
    · rw [hslot]
      exact Slot.waits_forward _ hs
    · rw [hslot]
      exact Slot.settled_forward _ hz hs
  · refine h.phase_of_same hp ?_ hnew fun _ _ => rfl
    rw [World.slot_perform_ne hq]
    exact ⟨rfl, fun _ => Iff.rfl⟩

/-- **The course of a task over an answered request.** -/
theorem phase_answered (h : Steady P f ops s) (hP : P.Sound f) (hp : s.procs[i]? = some p)
    (hd : Deed P f ops s i p op) (ht : Sane (answered k s i p op)) (a : P.Step) :
    Phase P (answered k s i p op) a := by
  have hslot : ∀ {op : Op} {u : Slot}, op.queue = (P.message a).queue →
      s.world.slotAfter k op = u → (s.world.perform k i op).slot (P.message a).queue = u := by
    rintro op u hq rfl
    rw [← hq, World.slot_perform_self]
  by_cases hx : op.subject = some (P.message a).id
  · cases hd with
    | submit _ _ ho _ hnew =>
      cases ho with
      | enqueue =>
        obtain rfl := hP.inj _ a (Option.some.inj hx)
        exact h.phase_of_new hp ht hnew rfl rfl (h.absent_of_new hnew).waits_enqueue
      | schedule =>
        obtain rfl := hP.inj _ a (Option.some.inj hx)
        exact h.phase_of_new hp ht hnew rfl rfl ((h.absent_of_new hnew).waits_schedule _)
    | next _ _ _ ho _ hnew =>
      have hwaits := (h.absent_of_new hnew).waits_link (k := k) ho s.world.now
      cases ho with
      | enqueue | schedule =>
        obtain rfl := hP.inj _ a (Option.some.inj hx)
        exact h.phase_of_new hp ht hnew rfl rfl hwaits
    | report hw ok hj hG =>
      obtain rfl := hP.inj _ a ((hG.report_id hj _).symm.trans (Option.some.inj hx))
      exact h.phase_of_report hp hw ok hj hG ht
    | @retain c sid now score hw hu hd =>
      have hid : ({ finished f (P.message c) with chain := [], completedAt := unix now } :
          TaskMessage).id = (P.message c).id := id_finished
      obtain rfl := hP.inj c a (hid.symm.trans (Option.some.inj hx))
      have hlent := h.lent_of_works hw hu
      have hsits := (h.waits_of_lent hP hlent).2.sits hlent.entry
      refine phase_of_acked hp hw rfl (Or.inr ?_)
      rw [hslot rfl rfl]
      rw [← hid] at hsits ⊢
      exact hsits.moveToZSet
    | delete hw hu =>
      obtain rfl := hP.inj _ a (Option.some.inj hx)
      have hlent := h.lent_of_works hw hu
      have hsits := (h.waits_of_lent hP hlent).2.sits hlent.entry
      refine phase_of_acked hp hw rfl (Or.inl ?_)
      rw [hslot rfl rfl]
      exact hsits.ackDelete
    | mark hh =>
      obtain rfl := hP.inj _ a (Option.some.inj hx)
      have hlent := h.lent _ _ _ _ _ hp hh
      have hwaits := (h.waits_of_lent hP hlent).2
      refine h.phase_of_waits hp ht hwaits ?_ rfl fun _ _ => rfl
      rw [hslot rfl rfl]
      exact hwaits.setState hlent.entry
    | requeue hj hh =>
      obtain rfl := hP.inj _ a (Option.some.inj hx)
      have hlent := h.lent _ _ _ _ _ hp hh
      have hwaits := (h.waits_of_lent hP hlent).2
      refine h.phase_of_waits hp ht hwaits ?_ rfl fun _ hw => ?_
      · rw [hslot rfl rfl]
        exact hwaits.requeue hlent.entry
      · cases hj.symm.trans (hw.job hp)
    | look hs =>
      rw [hs] at hx
      cases hx
    | openGroup | stage | read | load | forward => cases hx
  · by_cases hb : op.Batch
    · cases hd with
      | forward hj hz =>
        refine h.phase_of_forward hp ht ?_
        rcases hz with rfl | rfl <;> decide
      | submit _ _ ho | next _ _ _ ho => cases ho <;> exact hb.elim
      | look _ _ _ hb' => exact absurd hb hb'
      | openGroup | stage | report | retain | delete | read | load | mark | requeue => exact hb.elim
    · refine h.phase_of_same hp (same_perform (h.ready hp hd) hb fun _ => hx) (fun hc => ?_)
        fun sid hw => ?_
      · rcases created_answered ht hc with hold | ⟨htarget, -⟩
        · exact hold
        · exact absurd (Op.subject_eq_of_target htarget) hx
      · -- a worker acknowledges its own task only
        cases hacks : op.acks with
        | nil => rfl
        | cons sid' =>
          exfalso
          obtain ⟨-, ⟨c, hc, -, hsub, -⟩ | ⟨_, _, _, _, _, hjob, -⟩⟩ :=
            hd.acks (hacks ▸ List.mem_cons_self)
          · obtain rfl := Works.inj hP hc hw
            exact hx hsub
          · cases hjob.symm.trans (hw.job hp)

end Steady

/-! ## Entries -/

section Lent
variable {w : World}

/-- An entry stays with its process when it is neither acknowledged nor delivered. -/
theorem World.Lent.perform (h : w.Lent j q sid id) (hacks : q = op.queue → sid ∉ op.acks)
    (hdel : q = op.queue → ∀ e ∈ op.delivers (w.reply k op), e.1 ≠ sid) :
    (w.perform k i op).Lent j q sid id := by
  by_cases hq : q = op.queue
  · subst hq
    have hnot : sid ∉ (op.delivers (w.reply k op)).map Prod.fst := by
      intro hm
      obtain ⟨e, he, rfl⟩ := List.mem_map.mp hm
      exact hdel rfl e he rfl
    refine ⟨?_, ?_, ?_⟩
    · change (if op.queue = op.queue then _ else _) = _
      rw [if_pos rfl, if_neg hnot, if_neg (hacks rfl)]
      exact h.owner
    · rw [World.slot_perform_self]
      exact entries_run k w.now _ (hacks rfl) h.entry
    · rw [World.slot_perform_self]
      exact Nat.le_trans h.delivered (Slot.lastDelivered_run k w.now _ op)
  · refine ⟨?_, ?_, ?_⟩
    · change (if q = op.queue then _ else _) = _
      rw [if_neg hq]
      exact h.owner
    · rw [World.slot_perform_ne hq]
      exact h.entry
    · rw [World.slot_perform_ne hq]
      exact h.delivered

/-- What a fetch round is given is its own. -/
theorem World.lent_read {consumer : String} {count : Nat}
    (he : (sid, id) ∈ w.reply k (.xReadGroup q consumer count)) :
    (w.perform k i (.xReadGroup q consumer count)).Lent i q sid id := by
  have he' : (sid, id) ∈ (w.slot q).stream.nextEntries count := he
  have hslot : (w.perform k i (.xReadGroup q consumer count)).slot q =
      { w.slot q with stream := (w.slot q).stream.xreadgroup consumer count w.now } :=
    World.slot_perform_self
  refine ⟨?_, ?_, ?_⟩
  · change (if q = q then _ else _) = _
    rw [if_pos rfl]
    exact if_pos (List.mem_map.mpr ⟨_, he, rfl⟩)
  · rw [hslot]
    exact ((w.slot q).stream.nextEntries_sublist count).subset he'
  · rw [hslot]
    exact Stream.le_nextDelivered he'

end Lent

namespace Steady

/-- What is acknowledged belongs to the process that does so. -/
theorem owner_of_acks (h : Steady P f ops s) (hp : s.procs[i]? = some p)
    (hd : Deed P f ops s i p op) (hs : sid ∈ op.acks) : s.world.owner op.queue sid = some i := by
  obtain ⟨-, ⟨a, hw, hu, -, hq, -⟩ | ⟨_, _, _, _, id, -, hh, -⟩⟩ := hd.acks hs
  · rw [hq]
    exact (h.lent_of_works hw hu).owner
  · exact (h.lent i p _ _ _ hp hh).owner

/-- What is delivered was not delivered before. -/
theorem delivers_new (hd : Deed P f ops s i p op) {e : Nat × String}
    (he : e ∈ op.delivers (s.world.reply k op)) :
    (s.world.slot op.queue).stream.lastDelivered < e.1 := by
  cases hd with
  | read => exact Stream.lt_of_mem_nextEntries he
  | submit _ _ ho | next _ _ _ ho => cases ho <;> cases he
  | look _ _ _ _ _ hdel =>
    rw [hdel k] at he
    cases he
  | openGroup | stage | report | retain | delete | load | mark | requeue | forward => cases he

theorem lent_answered (h : Steady P f ops s) (hp : s.procs[i]? = some p)
    (hd : Deed P f ops s i p op) (hp' : (answered k s i p op).procs[j]? = some p')
    (hh : Holds p' q sid id) :
    (answered k s i p op).world.Lent j q sid id := by
  -- an entry that was held before, and is not acknowledged now
  have hkept : ∀ {p : Party}, s.procs[j]? = some p → Holds p q sid id →
      (q = op.queue → sid ∉ op.acks) → (s.world.perform k i op).Lent j q sid id := by
    intro p hp hh hacks
    have hl := h.lent j p q sid id hp hh
    refine hl.perform hacks fun hq e he heq => ?_
    subst hq
    have hlt := delivers_new hd he
    have hle := hl.delivered
    omega
  rcases procs_answered hp hp' with ⟨hj, hp₀⟩ | ⟨rfl, rfl⟩
  · refine hkept hp₀ hh fun hq hs => hj ?_
    subst hq
    have hown := (h.lent j p' _ sid id hp₀ hh).owner
    rw [h.owner_of_acks hp hd hs] at hown
    exact (Option.some.inj hown).symm
  · obtain ⟨job, hist⟩ := p
    cases job with
    | work q' sid' m =>
      obtain ⟨rfl, rfl, rfl, hu⟩ := hh
      refine hkept hp ⟨rfl, rfl, rfl, hu.of_append⟩ fun _ hs => ?_
      rw [hu op ⟨_, List.mem_concat_self⟩] at hs
      cases hs
    | fetch q' consumer count keep =>
      obtain ⟨rfl, ⟨es, hread, hmem⟩, hund⟩ := hh
      rcases List.mem_append.mp hread with hread | hread
      · refine hkept hp ⟨rfl, ⟨es, hread, hmem⟩, hund.of_append⟩ fun _ hs => ?_
        obtain ⟨-, ⟨a, hw, -⟩ | ⟨_, _, _, _, id', -, -, hop⟩⟩ := hd.acks hs
        · cases hw.job hp
        · have hnot : ∀ op', op' = .requeue op.queue sid id' →
              ¬ Tried (hist ++ [.call (.redis op) (some (s.world.reply k op))]) op' := by
            rintro _ rfl
            exact hund.2 op.queue id'
          exact hnot op hop ⟨_, List.mem_concat_self⟩
      · have heq := List.mem_singleton.mp hread
        cases heq
        exact World.lent_read hmem
    | _ => exact hh.elim

/-- What a fetch round reads is the message of the task. -/
theorem loaded_answered (h : Steady P f ops s) (hP : P.Sound f) (hp : s.procs[i]? = some p)
    (hd : Deed P f ops s i p op) (hp' : (answered k s i p op).procs[j]? = some p') {c : String}
    {keep : Nat} (hj : p'.job = .fetch q c n keep) {r : Option TaskMessage}
    (hdid : Did p'.hist (.getTask q id) r) : ∃ a m, r = some m ∧ P.Is a m := by
  rcases procs_answered hp hp' with ⟨-, hp₀⟩ | ⟨rfl, rfl⟩
  · exact h.loaded p' (List.mem_of_getElem? hp₀) q c n keep hj id r hdid
  · rcases List.mem_append.mp hdid with hdid | hdid
    · exact h.loaded p (List.mem_of_getElem? hp) q c n keep hj id r hdid
    · have heq := List.mem_singleton.mp hdid
      cases heq
      cases hd with
      | @load a q' _ _ _ sid hj' hq hh =>
        have hl := h.lent j p _ _ _ hp hh
        rw [← hq] at hl
        obtain ⟨st, hbody⟩ := (h.waits_of_lent hP hl).2.body
        refine ⟨a, _, ?_, st, rfl⟩
        change (s.world.slot q).body _ = _
        rw [← hq]
        exact hbody
      | submit _ _ ho => cases ho
      | next _ _ _ ho => cases ho
      | look _ _ _ _ _ _ _ hno => exact absurd rfl (hno q c n keep hj q id)

end Steady

/-! ## Creation -/

namespace Deed

/-- How a request comes to store the task of a step: the client submits it, the worker of
a task it needs asks for it or reports to it, or its own worker keeps its record. -/
inductive Stores (P : Plan) (f : Handlers) (ops : List Op) (s : Chronicle)
    (i : Nat) (p : Party) (b : P.Step) : Op → Prop where
  | submit {op : Op} (hi : i = 0) (hp : ops[p.hist.length]? = some op)
      (ho : Submits (P.message b) op) (hn : ∀ c, ¬ P.Needs b c)
      (hnew : ¬ s.world.Created (P.message b).id)
      (hopen : (P.message b).groupID ≠ "" → Opened P f ops s (P.message b).groupID) :
      Stores P f ops s i p b op
  | next {a : P.Step} {sid : Nat} {op : Op} (hw : Works P s i a sid p.hist)
      (ok : P.ran f a ∈ s.world.log) (hc : (P.message a).chain ≠ [])
      (hn : ∀ c, P.Needs b c ↔ c = a) (hnew : ¬ s.world.Created (P.message b).id)
      (hopen : (P.message b).groupID ≠ "" → Opened P f ops s (P.message b).groupID) :
      Stores P f ops s i p b op
  | report {g : String} {link : ChainLink} {n j sid : Nat} {fin : Nat → P.Step}
      {score : Option Int} (hw : Works P s i (fin j) sid p.hist)
      (ok : P.ran f (fin j) ∈ s.world.log) (hj : j < n) (hG : P.Gathers f g link n fin b) :
      Stores P f ops s i p b (.groupComplete link.queue (P.report f (fin j) link score))
  | retain {sid : Nat} {op : Op} (hw : Works P s i b sid p.hist) (hu : Unacked p.hist) :
      Stores P f ops s i p b op

/-- What a request stores is a task of the plan. -/
theorem stores (hd : Deed P f ops s i p op) (hx : op.target = some x) :
    ∃ b, (P.message b).id = x ∧ Stores P f ops s i p b op := by
  cases hd with
  | submit hi hpos ho hn hnew hopen =>
    cases ho <;> exact ⟨_, Option.some.inj hx, .submit hi hpos (by constructor) hn hnew hopen⟩
  | next hw ok hc ho hn hnew hopen =>
    cases ho <;> exact ⟨_, Option.some.inj hx, .next hw ok hc hn hnew hopen⟩
  | report hw ok hj hG =>
    exact ⟨_, (hG.report_id hj _).symm.trans (Option.some.inj hx), .report hw ok hj hG⟩
  | retain hw hu => exact ⟨_, id_finished.symm.trans (Option.some.inj hx), .retain hw hu⟩
  | look hs =>
    have hx' := Op.subject_eq_of_target hx
    rw [hs] at hx'
    cases hx'
  | openGroup | stage | delete | read | load | mark | requeue | forward => cases hx

/-- What a request stores under the identifier of a step is the task of the step. -/
theorem stores_of_target (hP : P.Sound f) (hd : Deed P f ops s i p op)
    (hx : op.target = some (P.message b).id) : Stores P f ops s i p b op := by
  obtain ⟨c, hid, hst⟩ := hd.stores hx
  obtain rfl := hP.inj c b hid
  exact hst

end Deed

namespace Steady

theorem bodies_answered (h : Steady P f ops s) (hP : P.Sound f) (hd : Deed P f ops s i p op)
    {m : TaskMessage} (hm : ((answered k s i p op).world.slot q).body x = some m) :
    ∃ a, (P.message a).id = x ∧ (P.message a).queue = q := by
  change ((s.world.perform k i op).slot q).body x = some m at hm
  by_cases hq : q = op.queue
  · subst hq
    rw [World.slot_perform_self] at hm
    rcases body_run hm with hold | hst
    · exact h.bodies _ x m hold
    · obtain ⟨a, rfl, -⟩ := hd.stores hst.target.1
      exact ⟨a, rfl, (hd.subject hP (Op.subject_eq_of_target hst.target.1)).symm⟩
  · rw [World.slot_perform_ne hq] at hm
    exact h.bodies q x m hm

/-- A stage is created where there is nothing of it. -/
theorem stage_creates (h : Steady P f ops s)
    (hG : P.Gathers f (stageID (P.message a)) (callbackLink link) link.group.length fin b)
    (hclosed : ¬ Opened P f ops s (stageID (P.message a))) :
    (stageOp (finished f (P.message a)) link).run k s.world.now (s.world.slot link.queue) =
      ((s.world.slot link.queue).createGroup (stageID (P.message a))
        (slots (stageID (P.message a)) link.group.length) s.world.now, .created) := by
  cases h.group _ _ _ _ _ hG with
  | opened ho => exact absurd ho hclosed
  | closed _ hs hf hb =>
    have habs := h.absent_of_new hb
    rw [hG.callback_queue, hG.callback_id] at habs
    have hset : ((s.world.slot link.queue).group (stageID (P.message a))).members = [] := by
      change ((s.world.slot (callbackLink link).queue).group _).members = []
      rw [hs]
    change (s.world.slot link.queue).createGroupIfAbsent (stageID (finished f (P.message a)))
      ((List.range link.group.length).map (memberID (stageID (finished f (P.message a)))))
      (callbackID (stageID (finished f (P.message a)))) s.world.now = _
    rw [stageID_finished]
    exact Slot.createGroupIfAbsent_of_none _ _ habs.not_present hset hf

/-- What a process hears. -/
theorem heard_answered (h : Steady P f ops s)
    (hd : Deed P f ops s i p op) (ht : Sane (answered k s i p op)) :
    Heard f (answered k s i p op).world (.call (.redis op) (some (s.world.reply k op))) := by
  cases hd with
  | submit _ _ ho _ hnew =>
    cases ho with
    | enqueue =>
      exact ⟨by simp, h.created_of_waits ht rfl (h.absent_of_new hnew).waits_enqueue⟩
    | schedule t =>
      exact ⟨by simp, h.created_of_waits ht rfl ((h.absent_of_new hnew).waits_schedule t)⟩
  | next _ _ _ ho _ hnew =>
    have habs := h.absent_of_new hnew
    have hwaits := habs.waits_link (k := k) ho s.world.now
    cases ho with
    | enqueue =>
      have hreply := congrArg Prod.snd habs.chainEnqueue
      exact ⟨congrArg some hreply, h.created_of_waits ht rfl hwaits⟩
    | schedule t =>
      have hreply := fun score => congrArg Prod.snd (habs.chainSchedule score)
      exact ⟨congrArg some (hreply _), h.created_of_waits ht rfl hwaits⟩
  | stage _ _ _ hG hclosed =>
    have hreply := congrArg Prod.snd (h.stage_creates (k := k) hG hclosed)
    exact congrArg some hreply
  | read => exact ⟨_, rfl, Stream.nextEntries_nodup _ _⟩
  | look _ _ _ _ _ _ hh => exact hh k _
  | openGroup | report | retain | delete | load | mark | requeue | forward => simp [Heard]

/-- The first process sends the requests. -/
theorem procs_zero (h : Steady P f ops s) (hp : s.procs[0]? = some p) : p.job = .sendAll ops := by
  obtain ⟨hist, hp₀⟩ := h.first
  cases hp.symm.trans hp₀
  rfl

section
variable (h : Steady P f ops s) (hP : P.Sound f) (hp : s.procs[i]? = some p)
  (hd : Deed P f ops s i p op)
include h hP hp hd

theorem origin_answered (ht : Sane (answered k s i p op))
    (hold : ∀ b, Origin P ops s b → Origin P ops (answered k s i p op) b)
    (hc : (answered k s i p op).world.Created (P.message b).id) :
    Origin P ops (answered k s i p op) b := by
  -- a worker that has asked for the task
  have hby : ∀ {a sid}, Works P s i a sid p.hist → P.Needs b a →
      op.target = some (P.message b).id → Origin P ops (answered k s i p op) b :=
    fun hw hn htarget => Or.inr ⟨i, _, _, _, op, works_answered_self hp hw, hn,
      ⟨_, List.mem_concat_self⟩, htarget⟩
  rcases created_answered ht hc with hc | ⟨htarget, -⟩
  · exact hold b (h.origin b hc)
  · cases hd.stores_of_target hP htarget with
    | submit hi hpos ho =>
      subst hi
      refine Or.inl ⟨p.hist ++ [.call (.redis op) (some (s.world.reply k op))], p.hist.length, op,
        ?_, ?_, hpos, ho⟩
      · rw [← h.procs_zero hp]
        exact procs_answered_self hp
      · simp
    | next hw _ _ hn => exact hby hw ((hn _).mpr rfl) htarget
    | report hw _ hj hG => exact hby hw ((hG.needs _).mpr ⟨_, hj, rfl⟩) htarget
    | retain hw => exact hold b (h.origin b (h.created_of_works hw))

theorem handedOver_answered (hw : Works P (answered k s i p op) j a sid hist)
    (hu : ¬ Unacked hist) : HandedOver hist (finished f (P.message a)) ∧
      P.ran f a ∈ (answered k s i p op).world.log := by
  rcases works_answered hp hw with ⟨-, hw₀⟩ | ⟨rfl, hw₀, rfl⟩
  · obtain ⟨hdone, ok⟩ := h.handedOver j a sid hist hw₀ hu
    exact ⟨hdone, World.extends_perform _ _ _ _ _ ok⟩
  · suffices hsuff : HandedOver p.hist (finished f (P.message a)) ∧ P.ran f a ∈ s.world.log from
      ⟨hsuff.1.mono (List.subset_append_left _ _), World.extends_perform _ _ _ _ _ hsuff.2⟩
    by_cases hu₀ : Unacked p.hist
    · cases hacks : op.acks with
      | nil =>
        exact absurd ((Extends.request (X := Set.univ) hacks (fun _ _ => trivial) _).unacked hu₀) hu
      | cons sid' =>
        obtain ⟨-, ⟨c, hc, -, -, -, hdone⟩ | ⟨_, _, _, _, _, hjob, -⟩⟩ :=
          hd.acks (hacks ▸ List.mem_cons_self)
        · obtain rfl := Works.inj hP hc hw₀
          exact hdone
        · cases hjob.symm.trans (hw₀.job hp)
    · exact h.handedOver j a sid _ hw₀ hu₀

/-- What a request creates is as the plan prescribes, new, and due. -/
theorem creates_answered (ht : Sane (answered k s i p op)) {m : TaskMessage}
    (hm : op.creates (s.world.slot op.queue) (s.world.slotAfter k op) = some m) :
    ∃ b, P.Is b m ∧ ¬ s.world.Created (P.message b).id ∧
      ∀ a, P.Needs b a → P.ran f a ∈ s.world.log := by
  obtain ⟨x, htarget, hx⟩ := Option.bind_eq_some_iff.mp hm
  split at hx
  · cases hx
  rename_i hnone
  rw [Option.not_isSome_iff_eq_none] at hnone
  obtain ⟨b, rfl, -⟩ := hd.stores htarget
  have hq := hd.subject hP (Op.subject_eq_of_target htarget)
  have hdue : ¬ s.world.Created (P.message b).id ∧ ∀ a, P.Needs b a → P.ran f a ∈ s.world.log := by
    cases hd.stores_of_target hP htarget with
    | submit _ _ _ hn hnew => exact ⟨hnew, fun a ha => absurd ha (hn a)⟩
    | next _ ok _ hn hnew =>
      refine ⟨hnew, fun a' ha => ?_⟩
      rw [(hn a').mp ha]
      exact ok
    | @report g link n j _ fin score hw ok hj hG =>
      obtain ⟨cs, d, -, hcs, -, -, -, ⟨hagree, -⟩ | ⟨hnew, hall, -⟩⟩ :=
        h.report_spec hG hj hw ok score rfl
      · have hbody := (hagree.same (x := (P.message b).id)).body
        cases hx.symm.trans (hbody.trans hnone)
      · refine ⟨hnew, fun a ha => ?_⟩
        obtain ⟨j', hj', rfl⟩ := (hG.needs a).mp ha
        obtain ⟨e, he, rfl⟩ := hall j' hj'
        exact (hcs e he).2.2
    | retain hw hu =>
      obtain ⟨st, hbody⟩ := (h.waits_of_lent hP (h.lent_of_works hw hu)).2.body
      rw [← hq] at hbody
      cases hbody.symm.trans hnone
  refine ⟨b, ?_, hdue⟩
  have hc : (answered k s i p op).world.Created (P.message b).id :=
    World.created_perform (wellKept_answered ht) (h.known.slot _) htarget (by rw [hx]; rfl)
  cases h.phase_answered hP hp hd ht b with
  | unborn hc' => exact absurd hc hc'
  | waits hc' _ hs =>
    obtain ⟨st, hbody⟩ := hs.body
    have hslot : (answered k s i p op).world.slot (P.message b).queue = s.world.slotAfter k op := by
      rw [← hq]
      exact World.slot_perform_self
    rw [hslot] at hbody
    exact ⟨st, Option.some.inj (hx.symm.trans hbody)⟩
  | settled hw =>
    obtain ⟨j, sid, hist, hw, -⟩ := hw
    exact absurd (h.created_of_works_answered hp hw) hdue.1

theorem runs_answered (ht : Sane (answered k s i p op)) :
    P.Runs f (answered k s i p op).world.log := by
  change P.Runs f (((op.creates (s.world.slot op.queue) (s.world.slotAfter k op)).map
    Record.created).toList ++ s.world.log)
  cases hm : op.creates (s.world.slot op.queue) (s.world.slotAfter k op) with
  | none => exact h.runs
  | some m =>
    obtain ⟨b, his, hnew, hneeds⟩ := h.creates_answered hP hp hd ht hm
    refine .create h.runs his (fun m' hm' heq => hnew ⟨m', hm', ?_⟩) hneeds
    rw [heq, his.id]

end

end Steady

/-! ## Groups -/

/-- A group that is neither opened nor reported to goes on as before. -/
theorem GroupPhase.step (h : GroupPhase P f ops s g link n fin b)
    (hopen : Opened P f ops t g ↔ Opened P f ops s g)
    (hnone : (s.world.slot link.queue).group g = {} → (t.world.slot link.queue).group g = {})
    (hnone' : (s.world.slot link.queue).groupResult g = {} →
      (t.world.slot link.queue).groupResult g = {})
    (hset : ((t.world.slot link.queue).group g).members =
      ((s.world.slot link.queue).group g).members)
    (hres : ((t.world.slot link.queue).groupResult g).fields =
      ((s.world.slot link.queue).groupResult g).fields)
    (hcb : t.world.Created (P.message b).id ↔ s.world.Created (P.message b).id)
    (hmem : ¬ Opened P f ops s g → ∀ a, (P.message a).groupID = g →
      t.world.Created (P.message a).id → s.world.Created (P.message a).id)
    (hext : s.world.Extends t.world)
    (hrep : ∀ j < n, HasReported P t (fin j) → HasReported P s (fin j))
    (habs : ¬ t.world.Created (P.message b).id →
      ((t.world.slot link.queue).task (P.message b).id).present = false) :
    GroupPhase P f ops t g link n fin b := by
  cases h with
  | closed ho hs hf hb hm =>
    exact .closed (fun ho' => ho (hopen.mp ho')) (hnone hs) (hnone' hf) (fun hc => hb (hcb.mp hc))
      fun a ha hc => hm a ha (hmem ho a ha hc)
  | @opened ho cs ht hc hr hb =>
    refine .opened (hopen.mpr ho) (ht.congr hset hres fun hnot _ => habs fun hc' => ?_)
      (fun c hc' => ⟨(hc c hc').1, (hc c hc').2.1, hext _ (hc c hc').2.2⟩)
      (fun j hj hr' => hr j hj (hrep j hj hr')) (hcb.trans hb)
    exact hnot (hb.mp (hcb.mp hc'))

/-- A group that is opened has got no report. -/
theorem GroupPhase.open (hG : P.Gathers f g link n fin b)
    (hb : ¬ t.world.Created (P.message b).id)
    (hm : ∀ a, (P.message a).groupID = g → ∀ i sid h, ¬ Works P t i a sid h)
    (ho : Opened P f ops t g) (hset : (u.group g).members = [])
    (hres : (u.groupResult g).fields = []) (habs : (u.task (P.message b).id).present = false)
    (hslot : t.world.slot link.queue = u.createGroup g (slots g n) now) :
    GroupPhase P f ops t g link n fin b := by
  have htracks : Tracks g n (P.message b).id [] (t.world.slot link.queue) := by
    rw [hslot]
    exact tracks_createGroup hG.isGroup.size hset hres habs
  refine .opened ho htracks (fun _ hc => absurd hc List.not_mem_nil) ?_ ?_
  · rintro j hj ⟨i, sid, h, q, r, v, hw, -⟩
    exact absurd hw (hm (fin j) (hG.isGroup.groupID j hj) i sid h)
  · exact ⟨fun hc => absurd hc hb, fun hc => absurd hc (not_complete_nil hG.isGroup.size)⟩

/-- Who has opened a group before an answer, and what the answer may open. -/
theorem opened_answered (hp : s.procs[i]? = some p)
    (ho : Opened P f ops (answered k s i p op) g) : Opened P f ops s g ∨ op.Touches g := by
  -- the answer is the one that matters, or it was there before
  have hdid : ∀ {op' : Op} {r : op'.Reply},
      Did (p.hist ++ [.call (.redis op) (some (s.world.reply k op))]) op' r →
        Did p.hist op' r ∨ op' = op := by
    intro op' r hd
    rcases List.mem_append.mp hd with hd | hd
    · exact Or.inl hd
    · have heq := List.mem_singleton.mp hd
      injection heq with hcmd
      injection hcmd with hop
      exact Or.inr hop
  rcases ho with ⟨q, ids, h, hop, hp₀, hd⟩ | ⟨j, a, sid, h, link, rest, st, hw, hc, hg, hid, hd⟩
  · rcases procs_answered hp hp₀ with ⟨-, hp₀⟩ | ⟨rfl, heq⟩
    · exact Or.inl (Or.inl ⟨q, ids, h, hop, hp₀, hd⟩)
    · obtain ⟨job, hist⟩ := p
      cases heq
      rcases hdid hd with hd | rfl
      · exact Or.inl (Or.inl ⟨q, ids, _, hop, hp, hd⟩)
      · exact Or.inr rfl
  · rcases works_answered hp hw with ⟨-, hw₀⟩ | ⟨rfl, hw₀, rfl⟩
    · exact Or.inl (Or.inr ⟨j, a, sid, h, link, rest, st, hw₀, hc, hg, hid, hd⟩)
    · rcases hdid hd with hd | rfl
      · exact Or.inl (Or.inr ⟨j, a, sid, _, link, rest, st, hw₀, hc, hg, hid, hd⟩)
      · refine Or.inr ?_
        exact stageID_finished.trans hid

/-- Who has reported before an answer. -/
theorem hasReported_answered (hp : s.procs[i]? = some p)
    (hr : HasReported P (answered k s i p op) a) : HasReported P s a ∨
      ∃ sid q r, op = .groupComplete q r ∧ Works P s i a sid p.hist := by
  obtain ⟨j, sid, h, q, r, v, hw, hd⟩ := hr
  rcases works_answered hp hw with ⟨-, hw₀⟩ | ⟨rfl, hw₀, rfl⟩
  · exact Or.inl ⟨j, sid, h, q, r, v, hw₀, hd⟩
  · rcases List.mem_append.mp hd with hd | hd
    · exact Or.inl ⟨j, sid, _, q, r, v, hw₀, hd⟩
    · have heq := List.mem_singleton.mp hd
      injection heq with hcmd
      injection hcmd with hop
      exact Or.inr ⟨sid, q, r, hop.symm, hw₀⟩

/-- Two descriptions of one group name the same steps. -/
theorem Plan.Gathers.same (hP : P.Sound f) (hG : P.Gathers f g link n fin b) {link' : ChainLink}
    {n' : Nat} {fin' : Nat → P.Step} {b' : P.Step} (hG' : P.Gathers f g link' n' fin' b')
    (hj : j < n') : link' = link ∧ n' = n ∧ b' = b ∧ fin' j = fin j := by
  obtain ⟨rfl, rfl⟩ := hG.unique hG'
  refine ⟨rfl, rfl, hP.inj b' b (hG'.callback_id.trans hG.callback_id.symm), ?_⟩
  obtain ⟨j', hj', heq⟩ := hG.last (fin' j) (hG'.isGroup.groupID j hj) (hG'.chain j hj)
  have hindex := hG'.isGroup.groupIndex j hj
  rw [heq, hG.isGroup.groupIndex j' hj'] at hindex
  rw [heq, hindex]

namespace Steady

/-- A callback is created by a report to its group. -/
theorem callback_answered (h : Steady P f ops s) (hP : P.Sound f) (hd : Deed P f ops s i p op)
    (ht : Sane (answered k s i p op)) (hG : P.Gathers f g link n fin b)
    (hc : (answered k s i p op).world.Created (P.message b).id) :
    s.world.Created (P.message b).id ∨ op.Touches g := by
  have hneeds : P.Needs b (fin 0) := (hG.needs _).mpr ⟨0, hG.isGroup.size, rfl⟩
  rcases created_answered ht hc with hold | ⟨htarget, -⟩
  · exact Or.inl hold
  · cases hd.stores_of_target hP htarget with
    | submit _ _ _ hn => exact absurd hneeds (hn _)
    | next _ _ hch hn =>
      rw [← (hn _).mp hneeds] at hch
      exact absurd (hG.chain 0 hG.isGroup.size) hch
    | @report g' link' n' j _ fin' score hw ok hj hG' =>
      obtain ⟨j₀, hj₀, heq⟩ := (hG.needs _).mp ((hG'.needs _).mpr ⟨j, hj, rfl⟩)
      refine Or.inr ?_
      change (P.message (fin' j)).groupID = g
      rw [heq]
      exact hG.isGroup.groupID j₀ hj₀
    | retain hw => exact Or.inl (h.created_of_works hw)

/-- A task of a group is created once the group is open. -/
theorem member_answered (h : Steady P f ops s) (hP : P.Sound f) (hd : Deed P f ops s i p op)
    (ht : Sane (answered k s i p op)) (hg : g ≠ "") (ho : ¬ Opened P f ops s g)
    (ha : (P.message a).groupID = g)
    (hc : (answered k s i p op).world.Created (P.message a).id) :
    s.world.Created (P.message a).id := by
  rcases created_answered ht hc with hold | ⟨htarget, -⟩
  · exact hold
  · cases hd.stores_of_target hP htarget with
    | submit _ _ _ _ _ hopen | next _ _ _ _ _ hopen =>
      rw [ha] at hopen
      exact absurd (hopen hg) ho
    | report _ _ _ hG' => exact absurd (ha.symm.trans hG'.callback_groupID) hg
    | retain hw => exact h.created_of_works hw

/-- A group that a request is not about. -/
theorem group_untouched (h : Steady P f ops s) (hP : P.Sound f) (hp : s.procs[i]? = some p)
    (hd : Deed P f ops s i p op) (ht : Sane (answered k s i p op))
    (hold : Opened P f ops s g → Opened P f ops (answered k s i p op) g)
    (hG : P.Gathers f g link n fin b) (hno : ¬ op.Touches g) :
    GroupPhase P f ops (answered k s i p op) g link n fin b := by
  have hkeys : ((s.world.perform k i op).slot link.queue).group g =
        (s.world.slot link.queue).group g ∧
      ((s.world.perform k i op).slot link.queue).groupResult g =
        (s.world.slot link.queue).groupResult g := by
    by_cases hq : link.queue = op.queue
    · rw [hq, World.slot_perform_self]
      exact Slot.group_run_of_not_touches _ hno
    · rw [World.slot_perform_ne hq]
      exact ⟨rfl, rfl⟩
  refine (h.group g link n fin b hG).step ⟨fun ho => ?_, hold⟩ (fun hs => hkeys.1.trans hs)
    (fun hs => hkeys.2.trans hs) (congrArg GroupSet.members hkeys.1)
    (congrArg GroupHash.fields hkeys.2) ⟨fun hc => ?_, fun hc => ?_⟩ (fun ho a ha hc => ?_)
    (World.extends_perform _ _ _ _) (fun j hj hr => ?_) (fun hnew => ?_)
  · exact (opened_answered hp ho).resolve_right hno
  · exact (h.callback_answered hP hd ht hG hc).resolve_right hno
  · exact hc.mono (World.extends_perform _ _ _ _)
  · exact h.member_answered hP hd ht hG.named ho ha hc
  · rcases hasReported_answered hp hr with hr | ⟨sid, q, r, rfl, hw⟩
    · exact hr
    · exfalso
      cases hd with
      | report hw' _ hj' hG' =>
        refine hno ?_
        change (P.message _).groupID = g
        rw [Works.inj hP hw' hw]
        exact hG.isGroup.groupID j hj
      | submit _ _ ho => cases ho
      | next _ _ _ ho => cases ho
      | look _ _ hg => exact hg trivial
  · cases h.phase_answered hP hp hd ht b with
    | unborn _ hs =>
      rw [hG.callback_queue] at hs
      exact hs.not_present
    | waits hc => exact absurd hc hnew
    | settled hw =>
      obtain ⟨j, sid, hist, hw, -⟩ := hw
      exact absurd ((h.created_of_works_answered hp hw).mono (World.extends_perform _ _ _ _)) hnew

/-- A group that is opened. -/
theorem group_opened (h : Steady P f ops s) (hp : s.procs[i]? = some p)
    (ht : Sane (answered k s i p op)) (hG : P.Gathers f g link n fin b)
    (hclosed : ¬ Opened P f ops s g) (ho : Opened P f ops (answered k s i p op) g)
    (hno : op.target = none)
    (hslot : (s.world.perform k i op).slot link.queue =
      (s.world.slot link.queue).createGroup g (slots g n) s.world.now) :
    GroupPhase P f ops (answered k s i p op) g link n fin b := by
  cases h.group g link n fin b hG with
  | opened ho' => exact absurd ho' hclosed
  | closed _ hs hf hb hm =>
    have habs := h.absent_of_new hb
    rw [hG.callback_queue] at habs
    exact GroupPhase.open hG (fun hc => hb (created_of_target_none ht hno hc))
      (fun a ha _ _ _ hw => hm a ha (h.created_of_works_answered hp hw)) ho
      (congrArg GroupSet.members hs) (congrArg GroupHash.fields hf) habs.not_present hslot

/-- A group that a member reports to. -/
theorem group_reported (h : Steady P f ops s) (hP : P.Sound f) (hp : s.procs[i]? = some p)
    (ht : Sane (answered k s i p (.groupComplete link.queue (P.report f (fin j) link score))))
    (hold : Opened P f ops s g → Opened P f ops (answered k s i p (.groupComplete link.queue
      (P.report f (fin j) link score))) g) (hw : Works P s i (fin j) sid p.hist)
    (ok : P.ran f (fin j) ∈ s.world.log) (hj : j < n) (hG : P.Gathers f g link n fin b) :
    GroupPhase P f ops (answered k s i p (.groupComplete link.queue
      (P.report f (fin j) link score))) g link n fin b := by
  have hopen : Opened P f ops s g := by
    have hgid := hG.isGroup.groupID j hj
    have ho := h.opened_of_created hP (h.created_of_works hw) (by rw [hgid]; exact hG.named)
    rwa [hgid] at ho
  obtain ⟨cs, c, hcj, hcs, hr, hb, htracks, hcases⟩ := h.report_spec hG hj hw ok score rfl
  have htracks' : Tracks g n (P.message b).id (cs ++ [c]) ((s.world.perform k i
      (.groupComplete link.queue (P.report f (fin j) link score))).slot link.queue) := by
    rw [show (s.world.perform k i (.groupComplete link.queue
      (P.report f (fin j) link score))).slot link.queue = _ from World.slot_perform_self]
    exact htracks
  refine .opened (hold hopen) htracks' (fun d hd => ?_) (fun j' hj' hr' => ?_) ⟨fun hc => ?_,
    fun hall => ?_⟩
  · obtain ⟨h₁, h₂, h₃⟩ := hcs d hd
    exact ⟨h₁, h₂, World.extends_perform _ _ _ _ _ h₃⟩
  · rcases hasReported_answered hp hr' with hr' | ⟨sid', q, r, -, hw'⟩
    · obtain ⟨d, hd, hdj⟩ := hr j' hj' hr'
      exact ⟨d, List.mem_append_left _ hd, hdj⟩
    · refine ⟨c, List.mem_concat_self, hcj.trans ?_⟩
      have heq := Works.inj hP hw hw'
      rw [← hG.isGroup.groupIndex j hj, heq]
      exact hG.isGroup.groupIndex j' hj'
  · rcases hcases with ⟨hagree, -⟩ | ⟨-, hall, -⟩
    · rcases created_answered ht hc with hc | ⟨-, hnone, m, hm⟩
      · exact (hb.mp hc).mono (List.subset_append_left _ _)
      · have hbody := (hagree.same (x := (P.message b).id)).body
        cases hm.symm.trans (hbody.trans hnone)
    · exact hall
  · rcases hcases with ⟨-, hback⟩ | ⟨-, -, hwaits⟩
    · exact (hb.mpr (hback hall)).mono (World.extends_perform _ _ _ _)
    · exact h.created_of_waits ht (congrArg some (hG.report_id hj score)) hwaits

/-- **The course of a group over an answered request.** -/
theorem group_answered (h : Steady P f ops s) (hP : P.Sound f) (hp : s.procs[i]? = some p)
    (hd : Deed P f ops s i p op) (ht : Sane (answered k s i p op))
    (hold : Opened P f ops s g → Opened P f ops (answered k s i p op) g)
    (hG : P.Gathers f g link n fin b) :
    GroupPhase P f ops (answered k s i p op) g link n fin b := by
  by_cases htouch : op.Touches g
  · cases hd with
    | @openGroup g' link' n' fin' b' hi hh hG' ho hclosed =>
      obtain rfl : g' = g := htouch
      obtain ⟨rfl, rfl⟩ := hG.unique hG'
      subst hi
      refine h.group_opened hp ht hG hclosed ?_ rfl World.slot_perform_self
      refine Or.inl ⟨_, _, p.hist ++ [_], ho, ?_, did_snoc⟩
      rw [← h.procs_zero hp]
      exact procs_answered_self hp
    | @stage a sid link₀ rest fin' b' hw hc hg hG' hclosed =>
      obtain rfl : stageID (P.message a) = g := stageID_finished.symm.trans htouch
      obtain ⟨rfl, rfl⟩ := hG.unique hG'
      refine h.group_opened hp ht hG hclosed ?_ rfl ?_
      · exact Or.inr ⟨i, a, sid, _, link₀, rest, _, works_answered_self hp hw, hc,
          hg, rfl, did_snoc⟩
      · have hrun := congrArg Prod.fst (h.stage_creates (k := k) hG hclosed)
        exact World.slot_perform_self.trans hrun
    | @report g' link' n' j fin' b' sid score hw ok hj hG' =>
      obtain rfl : g' = g := (hG'.isGroup.groupID j hj).symm.trans htouch
      obtain ⟨rfl, rfl, rfl, hfin⟩ := hG.same hP hG' hj
      rw [hfin] at hw ok ht hold ⊢
      exact h.group_reported hP hp ht hold hw ok hj hG
    | submit _ _ ho | next _ _ _ ho => cases ho <;> exact htouch.elim
    | @look op _ _ hg =>
      refine absurd ?_ hg
      cases op with
      | createGroup | createGroupIfAbsent | groupComplete => trivial
      | _ => exact htouch.elim
    | retain | delete | read | load | mark | requeue | forward => exact htouch.elim
  · exact h.group_untouched hP hp hd ht hold hG htouch

end Steady
end ChronosGo
