import ChronosGo.Alone
import ChronosGo.Replay
import ChronosGo.StageCreation

/-! # Attempts to create a parallel stage

An attempt of `enqueueNextGroup` runs alone, at whatever times its requests are executed, and
ends with an error when one of them fails.
-/
namespace ChronosGo
open Interleaving Redis Resumption

variable {st : Contents} {n : Nat} {w : World} {op : Op} {rest : List ChainLink}

/-- Runs in which requests may fail, before or after their effect, and time passes without any
key expiring. -/
def attempts (faults : Prop) : Regime where
  spawn := fun _ => False
  allow := fun _ _ _ => True
  handler := fun _ _ _ => True
  tick := fun w t => (w.tick t).contents = w.contents
  faults := faults
  crash := False

/-- How often the task was created. -/
def World.creations (w : World) (q x : String) : Nat :=
  w.log.countP fun
    | .created m => m.id = x ∧ m.queue = q
    | .handled .. => false

/-- A world with these contents, in which the callback of the stage was created `n` times before,
and once more if it exists. -/
structure Stands (msg : TaskMessage) (link : ChainLink) (st : Contents) (n : Nat) (w : World) :
    Prop where
  contents : w.contents = st
  created : w.creations link.queue (callbackID (stageID msg)) =
    n + if ((st link.queue).task (callbackID (stageID msg))).present then 1 else 0

section Rules
variable {k : Keys} {faults : Prop} {msg : TaskMessage} {link : ChainLink} {st' : Contents}
  {w' : World} {α β : Type}

theorem Stands.env (h : Stands msg link st n w) (he : ((attempts faults).machine k).env w w') :
    Stands msg link st n w' := by
  obtain ⟨t, -, ht, rfl⟩ := he
  exact ⟨ht.trans h.contents, h.created⟩

variable (k faults msg link) in
/-- Started alone in a world with contents `st`, the routine ends with a value and contents as
`Q` says. -/
def Yields (p : Routine α) (st : Contents) (Q : α → Contents → Prop) : Prop :=
  ∀ n, ((attempts faults).machine k).Solo 0 (Stands msg link st n) p
    fun a w => ∃ st', Q a st' ∧ Stands msg link st' n w

namespace Yields
variable {Q : α → Contents → Prop}

theorem pure {a : α} (h : Q a st) : Yields k faults msg link (Pure.pure a) st Q :=
  fun _ => .pure (fun _ _ => Stands.env) fun _ hw => ⟨st, h, hw⟩

theorem bind {p : Routine α} {f : α → Routine β} {Mid : α → Contents → Prop}
    {Q : β → Contents → Prop} (hp : Yields k faults msg link p st Mid)
    (hf : ∀ a st', Mid a st' → Yields k faults msg link (f a) st' Q) :
    Yields k faults msg link (p >>= f) st Q :=
  fun n => .bind (hp n) fun a => .of_exists fun st' => .of_and fun hmid => hf a st' hmid n

theorem mono {p : Routine α} {Q' : α → Contents → Prop} (h : Yields k faults msg link p st Q)
    (hQ : ∀ a st', Q a st' → Q' a st') : Yields k faults msg link p st Q' :=
  fun n => (h n).mono fun a _ ⟨st', hq, hw⟩ => ⟨st', hQ a st' hq, hw⟩

theorem timeNow {Q : Int → Contents → Prop} (h : ∀ t, Q t st) :
    Yields k faults msg link timeNow st Q := by
  refine fun n => .call (fun _ => Stands msg link st n) (fun _ _ => Stands.env) ?_ fun t =>
    .pure (fun _ _ => Stands.env) fun w hw => ⟨st, h t, hw⟩
  rintro w r w' hw ⟨-, rfl⟩
  exact hw

/-- A request takes the contents from `st` to `st'`; if it fails, it may have done so or not. -/
theorem redis {Q : Option op.Reply → Contents → Prop}
    (hop : ∀ n w, Stands msg link st n w → Stands msg link st' n (w.perform k 0 op))
    (hans : ∀ w : World, w.contents = st → Q (some (w.reply k op)) st')
    (hlost : faults → Q none st ∧ Q none st') : Yields k faults msg link (redis op) st Q := by
  refine fun n => .call (fun r w => ∃ st', Q r st' ∧ Stands msg link st' n w)
    (fun _ _ => Stands.env) ?_ fun r => .pure ?_ fun w hw => hw
  · rintro w r w' hw (⟨-, rfl, rfl | ⟨hf, rfl⟩⟩ | ⟨hf, rfl, rfl⟩)
    · exact ⟨st', hans w hw.contents, hop n w hw⟩
    · exact ⟨st', (hlost hf).2, hop n w hw⟩
    · exact ⟨st, (hlost hf).1, hw⟩
  · rintro w w' ⟨st', hq, hw⟩ he
    exact ⟨st', hq, hw.env he⟩

end Yields

/-! ## The requests -/

/-- A request that does not create the task. -/
theorem World.creations_perform_of_ne {i : Nat} {q x : String}
    (h : ∀ m, op.creates (w.slot op.queue) (w.slotAfter k op) = some m → m.id = x → m.queue ≠ q) :
    (w.perform k i op).creations q x = w.creations q x := by
  rw [creations, perform, List.countP_append]
  cases hm : op.creates (w.slot op.queue) (w.slotAfter k op) with
  | none => exact Nat.zero_add _
  | some m =>
    have hno : ¬ (m.id = x ∧ m.queue = q) := fun hid => h m hm hid.1 hid.2
    simp [hno, creations]

/-- A request that creates the task. -/
theorem World.creations_perform_of_eq {i : Nat} {q x : String} {m : TaskMessage}
    (hm : op.creates (w.slot op.queue) (w.slotAfter k op) = some m) (hid : m.id = x)
    (hq : m.queue = q) : (w.perform k i op).creations q x = w.creations q x + 1 := by
  rw [creations, perform, List.countP_append, hm, Nat.add_comm]
  simp [hid, hq, creations]

/-- A request that does not touch the callback. -/
theorem Stands.perform (h : Stands msg link st n w) {c : Content}
    (hc : (w.slotAfter k op).content = c)
    (hcb : (Function.update st op.queue c link.queue).task (callbackID (stageID msg)) =
      (st link.queue).task (callbackID (stageID msg)))
    (hnew : ∀ m, op.creates (w.slot op.queue) (w.slotAfter k op) = some m →
      m.id ≠ callbackID (stageID msg)) :
    Stands msg link (Function.update st op.queue c) n (w.perform k 0 op) where
  contents := by rw [World.contents_perform, h.contents, hc]
  created := by
    rw [World.creations_perform_of_ne fun m hm hid => absurd hid (hnew m hm), h.created, hcb]

/-- A request that only reads. -/
theorem Stands.read (h : Stands msg link st n w) (hslot : w.slotAfter k op = w.slot op.queue)
    (hnew : op.target = none) : Stands msg link st n (w.perform k 0 op) := by
  have hc : (w.slotAfter k op).content = st op.queue := by
    rw [hslot, ← h.contents]
    rfl
  have hsame := h.perform (k := k) hc (by rw [Function.update_eq_self]) fun m hm => by
    rw [Op.creates, hnew] at hm
    cases hm
  rwa [Function.update_eq_self] at hsame

/-- A request that creates a task that is not the callback, if it does not exist. -/
theorem Stands.create (h : Stands msg link st n w) {x : TaskMessage × Int}
    (hx : x.1.id ≠ callbackID (stageID msg)) (hq : op.queue = x.1.queue)
    (ht : op.target = some x.1.id)
    (hc : (w.slotAfter k op).content = if ((st x.1.queue).task x.1.id).present then st x.1.queue
      else (st x.1.queue).place
        { x.1 with state := if 0 < x.2 then .scheduled else .pending } (decide (0 < x.2))) :
    Stands msg link (if ((st x.1.queue).task x.1.id).present then st else settle st x) n
      (w.perform k 0 op) := by
  have hbody : (w.slot op.queue).body x.1.id = ((st x.1.queue).task x.1.id).msg := by
    rw [← h.contents, hq]
    rfl
  have hnew (m : TaskMessage) (hm : op.creates (w.slot op.queue) (w.slotAfter k op) = some m) :
      (w.slot op.queue).body x.1.id = none ∧
        ((w.slotAfter k op).content.task x.1.id).msg = some m := by
    rw [Op.creates, ht] at hm
    cases hold : (w.slot op.queue).body x.1.id with
    | none =>
      rw [Option.bind_some, hold] at hm
      exact ⟨rfl, hm⟩
    | some b =>
      rw [Option.bind_some, hold] at hm
      cases hm
  split at hc
  · rename_i hpresent
    have hsame := h.perform (k := k) hc (by rw [hq, Function.update_eq_self]) fun m hm => by
      obtain ⟨hnone, hsome⟩ := hnew m hm
      rw [hc, ← hbody, hnone] at hsome
      cases hsome
    rw [hq, Function.update_eq_self] at hsame
    rwa [if_pos hpresent]
  · rename_i hpresent
    rw [if_neg hpresent, settle_of_absent (Bool.not_eq_true _ ▸ hpresent), ← hq]
    rw [← hq] at hc
    refine h.perform hc (task_update_place fun hid => hx hid.2.symm) fun m hm => ?_
    obtain ⟨-, hsome⟩ := hnew m hm
    rw [hc, Content.task_place_self] at hsome
    cases hsome
    exact hx

/-- A report to the stage. -/
theorem Stands.report (h : Stands msg link st n w) {r : Slot.Report}
    (hid : r.callback.id = callbackID (stageID msg)) (hqueue : r.callback.queue = link.queue) :
    Stands msg link (Function.update st link.queue ((st link.queue).report r)) n
      (w.perform k 0 (.groupComplete link.queue r)) := by
  have hslot : (w.slot link.queue).content = st link.queue := congrFun h.contents link.queue
  have hc : (w.slotAfter k (.groupComplete link.queue r)).content = (st link.queue).report r :=
    hslot ▸ Slot.content_groupComplete ..
  have hcreates : Op.creates (.groupComplete link.queue r) (w.slot link.queue)
      (w.slotAfter k (.groupComplete link.queue r)) =
        if ((st link.queue).task r.callback.id).msg.isSome then none
        else (((st link.queue).report r).task r.callback.id).msg := by
    rw [← hc, ← hslot]
    rfl
  rcases (st link.queue).task_report_callback r with hsame | ⟨hno, m, state, hm, hmq, hnew⟩
  · refine h.perform hc ?_ fun m hm => ?_
    · show (Function.update st link.queue _ link.queue).task _ = _
      rw [Function.update_self, ← hid, hsame]
    · -- nothing is created
      rw [hsame] at hcreates
      have hnone := hcreates.symm.trans hm
      cases hold : ((st link.queue).task r.callback.id).msg with
      | none | some => simp [hold] at hnone
  · have hnone : ((st link.queue).task r.callback.id).msg = none := by
      simpa using (Bool.or_eq_false_iff.mp hno).1
    rw [hnone, hnew] at hcreates
    refine ⟨by rw [World.contents_perform, h.contents, hc]; rfl, ?_⟩
    rw [World.creations_perform_of_eq hcreates (hm.trans hid) (hmq.trans hqueue), h.created,
      Function.update_self, ← hid, hno, hnew]
    rfl

end Rules

/-! ## The routines -/

section Routines
variable {k : Keys} {faults : Prop} {msg : TaskMessage} {link : ChainLink} {j : Nat}
  {m : GroupMemberLink} {st' : Contents}

/-- The contents go from `st` to `st'` unless a request fails; then they may have done so or
not. -/
def Reaches (faults : Prop) (st₀ st₁ : Contents) (ok : Bool) (st : Contents) : Prop :=
  ok = true ∧ st = st₁ ∨ ok = false ∧ faults ∧ (st = st₀ ∨ st = st₁)

/-- What the request of `EnqueueChainLink` does, delayed or not. -/
theorem slotAfter_link (w : World) (x : TaskMessage × Int)
    (hop : 0 < x.2 ∧ (∃ score, op = .chainSchedule x.1 score) ∨
      ¬ 0 < x.2 ∧ op = .chainEnqueue x.1) :
    (w.slotAfter k op).content = if ((w.contents x.1.queue).task x.1.id).present
      then w.contents x.1.queue
      else (w.contents x.1.queue).place
        { x.1 with state := if 0 < x.2 then .scheduled else .pending } (decide (0 < x.2)) := by
  rcases hop with ⟨hd, score, rfl⟩ | ⟨hd, rfl⟩
  · rw [if_pos hd, decide_eq_true hd]
    exact Slot.content_chainSchedule ..
  · rw [if_neg hd, decide_eq_false hd]
    exact Slot.content_chainEnqueue ..

theorem yields_enqueueChainLink {x : TaskMessage × Int} (hx : x.1.id ≠ callbackID (stageID msg)) :
    Yields k faults msg link (enqueueChainLink x.1 x.2) st fun r st' =>
      (r = some !((st x.1.queue).task x.1.id).present ∧
        st' = if ((st x.1.queue).task x.1.id).present then st else settle st x) ∨
      r = none ∧ faults ∧ (st' = st ∨ st' = settle st x) := by
  have hlost : (if ((st x.1.queue).task x.1.id).present then st else settle st x) = st ∨
      (if ((st x.1.queue).task x.1.id).present then st else settle st x) = settle st x := by
    split
    · exact .inl rfl
    · exact .inr rfl
  unfold enqueueChainLink
  split
  · rename_i hd
    refine .bind (.timeNow (Q := fun _ st' => st' = st) fun _ => rfl) ?_
    rintro t _ rfl
    refine .redis (fun n w hw => hw.create hx rfl rfl ?_) (fun w hw => .inl ⟨?_, rfl⟩)
      fun hf => ⟨.inr ⟨rfl, hf, .inl rfl⟩, .inr ⟨rfl, hf, hlost⟩⟩
    · exact hw.contents ▸ slotAfter_link w x (.inl ⟨hd, _, rfl⟩)
    · rw [← hw]
      exact congrArg some (Slot.chainSchedule_created ..)
  · rename_i hd
    refine .redis (fun n w hw => hw.create hx rfl rfl ?_) (fun w hw => .inl ⟨?_, rfl⟩)
      fun hf => ⟨.inr ⟨rfl, hf, .inl rfl⟩, .inr ⟨rfl, hf, hlost⟩⟩
    · exact hw.contents ▸ slotAfter_link w x (.inr ⟨hd, rfl⟩)
    · rw [← hw]
      exact congrArg some (Slot.chainEnqueue_created ..)

/-- A stored member reports. -/
theorem yields_completeGroupMember {b : TaskMessage} (hb : EarlierMember msg link rest j m b) :
    Yields k faults msg link (completeGroupMember b) st fun r st' =>
      Reaches faults st (reportStored st b) r.isSome st' := by
  have hreport (score : Option Int) (hscore : score.isSome = decide (0 < link.delay)) :
      Yields k faults msg link
        (redis (.groupComplete link.queue (memberReport b (callbackLink link) score))) st
        fun r st' => Reaches faults st (reportStored st b) r.isSome st' := by
    have hr := hb.report score
    refine .redis (fun n w hw => hb.reportStored st score hscore ▸ hw.report hr.callback hr.queue)
      (fun _ _ => .inl ⟨rfl, rfl⟩) fun hf => ⟨.inr ⟨rfl, hf, .inl rfl⟩, .inr ⟨rfl, hf, .inr rfl⟩⟩
  obtain ⟨hcb, hqueue⟩ := hb.groupCallback
  rw [completeGroupMember, hcb]
  dsimp only
  rw [if_neg (not_not.mpr hqueue)]
  split
  · rename_i hd
    refine .bind (.timeNow (Q := fun _ st' => st' = st) fun _ => rfl) ?_
    rintro t st' hst
    rw [hst]
    exact hreport _ (decide_eq_true hd).symm
  · rename_i hd
    exact hreport none (decide_eq_false hd).symm

/-- **The drain of a member that exists.** -/
theorem yields_drain (hopen : StageOpen msg link rest st) (hj : link.group[j]? = some m) (d : Int)
    (hpresent : ((st m.queue).task (memberID (stageID msg) j)).present = true) :
    Yields k faults msg link (drainCompletedStageMember m.queue (memberID (stageID msg) j)) st
      (Reaches faults st (settle st (stageMember msg link rest j m, d))) := by
  obtain habsent | ⟨b, state, hstored, hb⟩ := hopen.members j m hj
  · rw [hpresent] at habsent
    cases habsent
  have hread {op : Op} {Q : Option op.Reply → Contents → Prop}
      (hslot : ∀ w : World, w.slotAfter k op = w.slot op.queue) (ht : op.target = none)
      (hans : ∀ w : World, w.contents = st → Q (some (w.reply k op)) st)
      (hlost : faults → Q none st) :
      Yields k faults msg link (redis op) st Q :=
    .redis (fun n w hw => hw.read (hslot w) ht) hans fun hf => ⟨hlost hf, hlost hf⟩
  refine .bind (hread (Q := fun r st' => st' = st ∧ (r = some (some state) ∨ r = none ∧ faults))
    (fun _ => rfl) rfl (fun w hw => ⟨rfl, .inl ?_⟩) fun hf => ⟨rfl, .inr ⟨rfl, hf⟩⟩) ?_
  · subst hw
    exact congrArg (fun h => some (TaskHash.state h)) hstored
  rintro r st' ⟨hst, rfl | ⟨rfl, hf⟩⟩
  · rw [hst]
    dsimp only
    split
    · rename_i hstate
      refine .pure (.inl ⟨rfl, (settle_of_live (x := (stageMember msg link rest j m, d)) ?_).symm⟩)
      show ((st m.queue).task (memberID (stageID msg) j)).Live
      rw [hstored]
      exact ⟨rfl, fun h => hstate (Option.some.inj h)⟩
    · rename_i hstate
      rw [not_not.mp hstate] at hstored
      rw [settle_of_completed (x := (stageMember msg link rest j m, d)) hstored]
      refine .bind (hread (Q := fun r st' => st' = st ∧ (r = some (some b) ∨ r = none ∧ faults))
        (fun _ => rfl) rfl (fun w hw => ⟨rfl, .inl ?_⟩) fun hf => ⟨rfl, .inr ⟨rfl, hf⟩⟩) ?_
      · subst hw
        exact congrArg (fun h => some (TaskHash.msg h)) hstored
      rintro r st' ⟨hst, rfl | ⟨rfl, hf⟩⟩
      · rw [hst]
        exact .bind (yields_completeGroupMember hb) fun r st' h => .pure h
      · rw [hst]
        exact .pure (.inr ⟨rfl, hf, .inl rfl⟩)
  · rw [hst]
    exact .pure (.inr ⟨rfl, hf, .inl rfl⟩)

/-- **The loop settles its members in turn**, up to the request that fails. -/
theorem yields_enqueueMembers (hopen : StageOpen msg link rest st) {xs : List (TaskMessage × Int)}
    (hdue : (stageLoop msg link rest).Due st xs) :
    Yields k faults msg link (enqueueMembers xs) st fun ok st' =>
      ok = true ∧ st' = (stageLoop msg link rest).run st xs ∨
        ok = false ∧ faults ∧ ∃ n, st' = (stageLoop msg link rest).run st (xs.take n) := by
  induction xs generalizing st with
  | nil => exact .pure (.inl ⟨rfl, rfl⟩)
  | cons x xs ih =>
    have hx := hdue.mem x List.mem_cons_self
    have hnext := (stageLoop msg link rest).valid_step hopen hx (hdue.pending x List.mem_cons_self)
    obtain ⟨j, m, hj, hxj⟩ := mem_stageMembers.mp hx
    have hrest : Yields k faults msg link (enqueueMembers xs) (settle st x) fun ok st' =>
        ok = true ∧ st' = (stageLoop msg link rest).run st (x :: xs) ∨
          ok = false ∧ faults ∧ ∃ n, st' = (stageLoop msg link rest).run st ((x :: xs).take n) := by
      refine (ih hnext (hdue.tail hopen)).mono ?_
      rintro ok st' (⟨hok, hst⟩ | ⟨hok, hf, n, hst⟩)
      · exact .inl ⟨hok, hst⟩
      · exact .inr ⟨hok, hf, n + 1, hst⟩
    have hcut (hf : faults) (st' : Contents) (hst : st' = st ∨ st' = settle st x) :
        false = true ∧ st' = (stageLoop msg link rest).run st (x :: xs) ∨
          false = false ∧ faults ∧ ∃ n, st' = (stageLoop msg link rest).run st
            ((x :: xs).take n) := by
      rcases hst with hst | hst
      · exact .inr ⟨rfl, hf, 0, hst⟩
      · exact .inr ⟨rfl, hf, 1, hst⟩
    have hid : x.1.id ≠ callbackID (stageID msg) := by
      rw [hxj]
      exact memberID_ne_callbackID _ _ _
    refine .bind (yields_enqueueChainLink hid) ?_
    rintro r st' (⟨rfl, hst⟩ | ⟨rfl, hf, hst⟩)
    · cases hpresent : ((st x.1.queue).task x.1.id).present with
      | false =>
        rw [hpresent] at hst
        rw [hst]
        exact hrest
      | true =>
        rw [hpresent] at hst
        rw [hst]
        subst hxj
        refine .bind (yields_drain hopen hj (delayDuration m.delay) hpresent) ?_
        rintro ok st' (⟨rfl, hst⟩ | ⟨rfl, hf, hst⟩)
        · rw [hst]
          exact hrest
        · exact .pure (hcut hf st' hst)
    · exact .pure (hcut hf st' hst)

/-- The stage is registered, unless it is already or its callback exists. -/
theorem Stands.openStage (h : Stands msg link st n w) :
    Stands msg link (openStage msg link st) n (w.perform k 0 (.createGroupIfAbsent link.queue
      (stageID msg) (stageMemberIDs msg link) (callbackID (stageID msg)))) := by
  have hc : (w.slotAfter k (.createGroupIfAbsent link.queue (stageID msg) (stageMemberIDs msg link)
      (callbackID (stageID msg)))).content = (st link.queue).openGroup (stageID msg)
        (stageMemberIDs msg link) (callbackID (stageID msg)) := by
    rw [← h.contents]
    exact Slot.content_createGroupIfAbsent ..
  exact h.perform hc (task_openStage ..) fun m hm => nomatch hm

theorem yields_createGroupIfAbsent : Yields k faults msg link
    (redis (.createGroupIfAbsent link.queue (stageID msg) (stageMemberIDs msg link)
      (callbackID (stageID msg)))) st fun r st' =>
    (r = some ((st link.queue).stageState (stageID msg) (callbackID (stageID msg))) ∧
      st' = openStage msg link st) ∨
    r = none ∧ faults ∧ (st' = st ∨ st' = openStage msg link st) := by
  refine .redis (fun n w hw => hw.openStage) (fun w hw => .inl ⟨?_, rfl⟩)
    fun hf => ⟨.inr ⟨rfl, hf, .inl rfl⟩, .inr ⟨rfl, hf, .inr rfl⟩⟩
  rw [← hw]
  exact congrArg some (Slot.createGroupIfAbsent_state ..)

/-- **An attempt** registers the stage and settles its members in turn, up to the request that
fails. -/
theorem yields_enqueueNextGroup (h : StageShape msg link rest st) (hn : link.group ≠ []) :
    Yields k faults msg link (enqueueNextGroup msg link rest) st fun ok st' =>
      ok = true ∧ st' = createStage msg link rest st ∨
        ok = false ∧ faults ∧ (st' = st ∨ ∃ n, st' = (stageLoop msg link rest).run
          (openStage msg link st)
          (((stageLoop msg link rest).todo (openStage msg link st)).take n)) := by
  have hloop : Yields k faults msg link
      (enqueueMembers ((stageLoop msg link rest).todo (openStage msg link st)))
      (openStage msg link st) fun ok st' =>
        ok = true ∧ st' = createStage msg link rest st ∨
          ok = false ∧ faults ∧ (st' = st ∨ ∃ n, st' = (stageLoop msg link rest).run
            (openStage msg link st)
            (((stageLoop msg link rest).todo (openStage msg link st)).take n)) := by
    refine (yields_enqueueMembers (h.opened hn) (Loop.due_todo _)).mono ?_
    rintro ok st' (hok | ⟨hok, hf, hcut⟩)
    · exact .inl hok
    · exact .inr ⟨hok, hf, .inr hcut⟩
  refine .bind (yields_createGroupIfAbsent) ?_
  rintro r st' (⟨rfl, rfl⟩ | ⟨rfl, hf, hst⟩)
  · unfold Content.stageState
    by_cases hcb : ((st link.queue).task (callbackID (stageID msg))).present = true
    · -- the callback exists, and so no slot is left
      rw [if_pos hcb]
      have hsame : openStage msg link st = st := openStage_eq (.inl hcb)
      have hnone : (stageLoop msg link rest).todo st = [] :=
        List.filter_eq_nil_iff.mpr fun x _ hx => by
          have := of_decide_eq_true hx
          rw [h.done hcb] at this
          cases this
      refine .pure (.inl ⟨rfl, ?_⟩)
      rw [createStage, hsame, hnone]
      rfl
    · rw [if_neg hcb]
      by_cases hnil : (st link.queue).group (stageID msg) = []
      · rw [if_neg (not_not.mpr hnil)]
        have hall : (stageLoop msg link rest).todo (openStage msg link st) =
            stageMembers msg link rest := List.filter_eq_self.mpr fun x hx =>
          decide_eq_true ((mem_group_openStage (Bool.not_eq_true _ ▸ hcb)).mpr
            (.inr ⟨hnil, stageMembers_ids msg link rest ▸ List.mem_map_of_mem hx⟩))
        rw [← hall]
        exact hloop
      · rw [if_pos hnil]
        refine .bind (.redis (Q := fun r st' => st' = openStage msg link st ∧
          (r = some ((openStage msg link st link.queue).group (stageID msg)) ∨ r = none ∧ faults))
          (fun n w hw => hw.read rfl rfl) (fun w hw => ⟨rfl, .inl ?_⟩)
          fun hf => ⟨⟨rfl, .inr ⟨rfl, hf⟩⟩, ⟨rfl, .inr ⟨rfl, hf⟩⟩⟩) ?_
        · rw [← hw]
          rfl
        rintro r st' ⟨hst, rfl | ⟨rfl, hf⟩⟩
        · rw [hst]
          exact hloop
        · exact .pure (.inr ⟨rfl, hf, .inr ⟨0, hst⟩⟩)
  · exact .pure (.inr ⟨rfl, hf, hst.imp_right fun hst => ⟨0, hst⟩⟩)

end Routines

/-! ## Attempts end -/

section Ends
variable {k : Keys}

theorem ends_enqueueChainLink (b : TaskMessage) (d : Int) :
    World.Ends k (enqueueChainLink b d) := by
  unfold enqueueChainLink
  split
  · exact .bind World.ends_timeNow fun _ => World.ends_redis _
  · exact World.ends_redis _

theorem ends_completeGroupMember (b : TaskMessage) : World.Ends k (completeGroupMember b) := by
  unfold completeGroupMember
  split
  · exact World.ends_pure _
  · split
    · exact World.ends_pure _
    · split
      · exact .bind World.ends_timeNow fun _ => World.ends_redis _
      · exact World.ends_redis _

theorem ends_drain (q id : String) : World.Ends k (drainCompletedStageMember q id) := by
  refine .bind (World.ends_redis _) fun r => ?_
  split
  · exact World.ends_pure _
  · exact World.ends_pure _
  · split
    · exact World.ends_pure _
    · refine .bind (World.ends_redis _) fun r => ?_
      split
      · exact World.ends_pure _
      · exact World.ends_pure _
      · exact .bind (ends_completeGroupMember _) fun _ => World.ends_pure _

theorem ends_enqueueMembers (xs : List (TaskMessage × Int)) : World.Ends k (enqueueMembers xs) := by
  induction xs with
  | nil => exact World.ends_pure _
  | cons x xs ih =>
    refine .bind (ends_enqueueChainLink x.1 x.2) fun r => ?_
    split
    · exact World.ends_pure _
    · exact ih
    · refine .bind (ends_drain _ _) fun ok => ?_
      split
      · exact ih
      · exact World.ends_pure _

theorem ends_enqueueNextGroup (msg : TaskMessage) (link : ChainLink) (rest : List ChainLink) :
    World.Ends k (enqueueNextGroup msg link rest) := by
  refine .bind (World.ends_redis _) fun r => ?_
  split
  · exact World.ends_pure _
  · exact World.ends_pure _
  · refine .bind (World.ends_redis _) fun r => ?_
    split
    · exact World.ends_pure _
    · exact ends_enqueueMembers _
  · exact ends_enqueueMembers _

/-- The answers of a store that does not fail are possible ones. -/
theorem exec_answer (faults : Prop) (c : Cmd) (w : World) :
    ((attempts faults).machine k).exec 0 c w (World.answer k c w).1 (World.answer k c w).2 := by
  cases c with
  | now => exact ⟨rfl, rfl⟩
  | retryDelay => rfl
  | ctxDone => rfl
  | handle msg => exact ⟨trivial, rfl⟩
  | redis op => exact .inl ⟨trivial, rfl, .inl rfl⟩

end Ends

/-! ## Idempotence -/

/-- An attempt that succeeds, or fails. -/
def Attempt (k : Keys) (msg : TaskMessage) (link : ChainLink) (rest : List ChainLink) (w : World)
    (ok : Bool) (w' : World) : Prop :=
  ((attempts True).machine k).Alone 0 (enqueueNextGroup msg link rest) w ok w'

/-- Where the first attempt starts: the callback does not exist, the pending set is absent or
has slots of members, and members were written earlier if they exist. -/
structure StageStart (msg : TaskMessage) (link : ChainLink) (rest : List ChainLink) (w : World) :
    Prop where
  unfinished : ((w.slot link.queue).task (callbackID (stageID msg))).present = false
  pending : ∀ y ∈ ((w.slot link.queue).group (stageID msg)).members, y ∈ stageMemberIDs msg link
  members : ∀ j m, link.group[j]? = some m →
    MemberHash msg link rest j m ((w.slot m.queue).task (memberID (stageID msg) j))

section Idempotent
variable {k : Keys} {msg : TaskMessage} {link : ChainLink} {w' : World}

theorem StageStart.shape (h : StageStart msg link rest w) :
    StageShape msg link rest w.contents where
  pending := h.pending
  members := h.members
  done := fun hcb => absurd (h.unfinished.symm.trans hcb) Bool.false_ne_true

theorem StageStart.stands (h : StageStart msg link rest w) : Stands msg link w.contents
    (w.creations link.queue (callbackID (stageID msg))) w := by
  refine ⟨rfl, ?_⟩
  have hno : ((w.contents link.queue).task (callbackID (stageID msg))).present = false :=
    h.unfinished
  rw [hno]
  rfl

/-- A complete attempt is possible. -/
theorem exists_attempt (hw : Stands msg link st n w) (h : StageShape msg link rest st)
    (hn : link.group ≠ []) : ∃ w', Attempt k msg link rest w true w' := by
  obtain ⟨⟨ok, w'⟩, hrun⟩ := ends_enqueueNextGroup (k := k) msg link rest w
  have halone (faults : Prop) :
      ((attempts faults).machine k).Alone 0 (enqueueNextGroup msg link rest) w ok w' :=
    (Machine.alone_of_execute (P := fun _ => True)
      (fun c w _ => ⟨exec_answer faults c w, trivial⟩) trivial hrun).1
  -- without failures, an attempt succeeds
  obtain ⟨st', ⟨rfl, -⟩ | ⟨-, hf, -⟩, -⟩ := yields_enqueueNextGroup h hn n w ok w' hw (halone False)
  · exact ⟨w', halone True⟩
  · exact hf.elim

theorem Attempt.complete (ha : Attempt k msg link rest w true w') (hw : Stands msg link st n w)
    (h : StageShape msg link rest st) (hn : link.group ≠ []) :
    Stands msg link (createStage msg link rest st) n w' := by
  obtain ⟨st', ⟨-, rfl⟩ | ⟨hok, -⟩, hw'⟩ := yields_enqueueNextGroup h hn n w true w' hw ha
  · exact hw'
  · cases hok

/-- What a failed attempt leaves, a complete one can be started from, with the outcome of one
that did not fail. -/
theorem Attempt.failed (ha : Attempt k msg link rest w false w') (hw : Stands msg link st n w)
    (h : StageShape msg link rest st) (hn : link.group ≠ []) : ∃ st', Stands msg link st' n w' ∧
      StageShape msg link rest st' ∧
        createStage msg link rest st' = createStage msg link rest st := by
  obtain ⟨st', ⟨hok, -⟩ | ⟨-, -, rfl | ⟨c, rfl⟩⟩, hw'⟩ :=
    yields_enqueueNextGroup h hn n w false w' hw ha
  · cases hok
  · exact ⟨_, hw', h, rfl⟩
  · refine ⟨_, hw', StageOpen.shape (Loop.valid_run (L := stageLoop msg link rest) (h.opened hn)
      ((Loop.due_todo _).sublist (List.take_sublist ..))), h.resume hn c⟩

/-- **Creating a parallel stage is idempotent and leaves no dead slot.** -/
theorem stage_creation_idempotent (k : Keys) {msg : TaskMessage} {link : ChainLink}
    {rest : List ChainLink} {w : World} (hn : 1 ≤ link.group.length)
    (h : StageStart msg link rest w) :
    (∃ w', Attempt k msg link rest w true w') ∧
    (∀ w', Attempt k msg link rest w true w' →
      -- every slot that is left is that of a member that is stored and not completed
      (∀ y ∈ ((w'.slot link.queue).group (stageID msg)).members, ∃ j m b state,
        link.group[j]? = some m ∧ y = memberID (stageID msg) j ∧
          (w'.slot m.queue).task y = ⟨some b, some state⟩ ∧ state ≠ .completed) ∧
      -- the result of every completed member whose slot was pending is recorded
      (∀ j m b, link.group[j]? = some m →
        (w.slot m.queue).task (memberID (stageID msg) j) = ⟨some b, some .completed⟩ →
        ((w.slot link.queue).group (stageID msg)).members = [] ∨
          memberID (stageID msg) j ∈ ((w.slot link.queue).group (stageID msg)).members →
        b.result ≠ [] → ResultRecorded msg link w'.contents j b.result) ∧
      -- the callback is created, once, if no slot is left
      (((w'.slot link.queue).task (callbackID (stageID msg))).present = true ↔
        ((w'.slot link.queue).group (stageID msg)).members = []) ∧
      w'.creations link.queue (callbackID (stageID msg)) =
        w.creations link.queue (callbackID (stageID msg)) +
          if ((w'.slot link.queue).group (stageID msg)).members = [] then 1 else 0) ∧
    -- a failed attempt can be repeated, and leaves no trace if it is
    ∀ w₁, Attempt k msg link rest w false w₁ →
      (∃ w₂, Attempt k msg link rest w₁ true w₂) ∧
      ∀ w₂ w₃, Attempt k msg link rest w₁ true w₂ → Attempt k msg link rest w true w₃ →
        w₂.contents = w₃.contents := by
  have hne : link.group ≠ [] := List.length_pos_iff.mp hn
  refine ⟨exists_attempt h.stands h.shape hne, fun w' ha => ?_, fun w₁ hcut => ?_⟩
  · obtain ⟨hcontents, hcreated⟩ := ha.complete h.stands h.shape hne
    have hopen : StageOpen msg link rest w'.contents := hcontents ▸ h.shape.created hne
    refine ⟨fun y hy => ?_, fun j m b hj hstored hslot hresult => ?_, hopen.callback, ?_⟩
    · obtain ⟨j, hlt, rfl⟩ := List.mem_map.mp (hopen.pending y hy)
      obtain ⟨m, hj⟩ : ∃ m, link.group[j]? = some m :=
        ⟨_, List.getElem?_eq_getElem (List.mem_range.mp hlt)⟩
      have hlive := hcontents ▸ h.shape.live_of_slot hne hj (hcontents ▸ hy)
      obtain ⟨b, state, hstored, hstate⟩ := (hopen.members j m hj).stored hlive
      exact ⟨j, m, b, state, hj, rfl, hstored, hstate⟩
    · rw [hcontents]
      refine h.shape.recorded hne hj hstored ((mem_group_openStage h.unfinished).mpr ?_) hresult
      have hmem : memberID (stageID msg) j ∈ stageMemberIDs msg link :=
        List.mem_map_of_mem (List.mem_range.mpr (List.getElem?_eq_some_iff.mp hj).1)
      exact hslot.symm.imp_right fun hnil => ⟨hnil, hmem⟩
    · rw [hcreated, ← hcontents]
      exact congrArg _ (if_congr hopen.callback rfl rfl)
  · obtain ⟨st', hw₁, hshape, hsame⟩ := hcut.failed h.stands h.shape hne
    refine ⟨exists_attempt hw₁ hshape hne, fun w₂ w₃ h₂ h₃ => ?_⟩
    rw [(h₂.complete hw₁ hshape hne).contents, (h₃.complete h.stands h.shape hne).contents, hsame]

end Idempotent

/-- A member of the sample stage. -/
def samplePart : GroupMemberLink :=
  { kind := "part", payload := [], queue := "q", maxRetry := 3, retention := 60, delay := 0 }

/-- A stage with two members. -/
def sampleStage : ChainLink :=
  { kind := "merge", payload := [], queue := "q", maxRetry := 3, noArchive := false, retention := 0
    delay := 0, group := [samplePart, samplePart] }

/-- The task before the sample stage. -/
def sampleBefore : TaskMessage := { sampleTask "c:0" with chainID := "c" }

/-- The first member, completed in an earlier round. -/
def lingeringMember : TaskMessage :=
  { stageMember sampleBefore sampleStage [] 0 samplePart with state := .completed, result := [1] }

/-- Nothing else is left of that round. -/
def lingeringWorld : World :=
  { World.init with slot := fun _ => Slot.empty.put lingeringMember .completed }

/-- The result of the member that has completed is not lost. -/
theorem lingering_result_recorded : ∃ w',
    Attempt sampleKeys sampleBefore sampleStage [] lingeringWorld true w' ∧
      ResultRecorded sampleBefore sampleStage w'.contents 0 [1] := by
  have htask (q : String) : (lingeringWorld.slot q).task = Function.update (fun _ => {})
      (memberID (stageID sampleBefore) 0) ⟨some lingeringMember, some .completed⟩ := rfl
  have hstored (q : String) : (lingeringWorld.slot q).task (memberID (stageID sampleBefore) 0) =
      ⟨some lingeringMember, some .completed⟩ := by rw [htask, Function.update_self]
  have habsent (q : String) {x : String} (hx : x ≠ memberID (stageID sampleBefore) 0) :
      ((lingeringWorld.slot q).task x).present = false := by
    rw [htask, Function.update_of_ne hx]
    rfl
  have hstart : StageStart sampleBefore sampleStage [] lingeringWorld := by
    refine ⟨habsent _ (memberID_ne_callbackID _ _ _).symm, fun y hy => (nomatch hy),
      fun j m hj => ?_⟩
    cases j with
    | zero =>
      cases hj
      exact .inr ⟨_, _, hstored _, _, _, _, _, _, _, rfl⟩
    | succ j =>
      exact .inl (habsent _ fun hid => Nat.succ_ne_zero j (memberID_injective _ hid))
  obtain ⟨⟨w', ha⟩, hpost, -⟩ := stage_creation_idempotent sampleKeys (by decide) hstart
  exact ⟨w', ha, (hpost w' ha).2.1 0 samplePart lingeringMember rfl (hstored _) (.inl rfl)
    (List.cons_ne_nil _ _)⟩

end ChronosGo
