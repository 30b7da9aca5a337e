import ChronosGo.Contents
import ChronosGo.Resumption
import ChronosGo.Solo

/-! # Creating a parallel stage

`enqueueNextGroup` registers the members of a parallel stage, creates those that do not
exist, and reports those that are stored as completed.  It is repeated when it fails, and
it starts from whatever the earlier attempts and an earlier round of the stage have left.
-/
namespace ChronosGo
open Interleaving Redis Resumption

variable {st st' : Contents} {x : TaskMessage × Int} {b : TaskMessage} {j : Nat}
  {m : GroupMemberLink} {y : String}

/-! ## The loop over the members -/

/-- The stored member is reported as completed. -/
def reportStored (st : Contents) (b : TaskMessage) : Contents :=
  match b.groupCallback with
  | none => st
  | some link =>
    if b.groupQueue ≠ link.queue then st
    else Function.update st link.queue ((st link.queue).report
      (memberReport b link (if 0 < link.delay then some 0 else none)))

/-- The task exists and is not completed. -/
def TaskHash.Live (h : TaskHash) : Prop := h.present = true ∧ h.state ≠ some .completed

/-- One round of the loop of `enqueueNextGroup`: the member is created if it does not exist,
and reported if it is completed. -/
def settle (st : Contents) (x : TaskMessage × Int) : Contents :=
  let h := (st x.1.queue).task x.1.id
  if ¬ h.present then
    Function.update st x.1.queue ((st x.1.queue).place
      { x.1 with state := if 0 < x.2 then .scheduled else .pending } (decide (0 < x.2)))
  else if h.state = some .completed then h.msg.elim st (reportStored st)
  else st

theorem settle_of_absent (h : ((st x.1.queue).task x.1.id).present = false) : settle st x =
    Function.update st x.1.queue ((st x.1.queue).place
      { x.1 with state := if 0 < x.2 then .scheduled else .pending } (decide (0 < x.2))) :=
  if_pos (by simp [h])

theorem settle_of_completed (h : (st x.1.queue).task x.1.id = ⟨some b, some .completed⟩) :
    settle st x = reportStored st b := by
  simp [settle, h, TaskHash.present]

theorem settle_of_live (h : ((st x.1.queue).task x.1.id).Live) : settle st x = st := by
  simp [settle, h.1, h.2]

section Stage
variable (msg : TaskMessage) (link : ChainLink) (rest : List ChainLink)

/-- A body of member `j` as an earlier creation of the stage has written it, and deliveries
have left it. -/
def EarlierMember (j : Nat) (m : GroupMemberLink) (b : TaskMessage) : Prop :=
  ∃ state retried lastErr completedAt result prevResult, b =
    { stageMember msg link rest j m with
      state := state
      retried := retried
      lastErr := lastErr
      completedAt := completedAt
      result := result
      prevResult := prevResult }

/-- The hash of member `j` does not exist, or it has a body that was written earlier. -/
def MemberHash (j : Nat) (m : GroupMemberLink) (h : TaskHash) : Prop :=
  h.present = false ∨ ∃ b st, h = ⟨some b, some st⟩ ∧ EarlierMember msg link rest j m b

/-- What the stage looks like while it is created: its pending slots belong to members, and
the callback exists when no slot is left. -/
structure StageOpen (st : Contents) : Prop where
  pending : ∀ y ∈ (st link.queue).group (stageID msg), y ∈ stageMemberIDs msg link
  members : ∀ j m, link.group[j]? = some m →
    MemberHash msg link rest j m ((st m.queue).task (memberID (stageID msg) j))
  callback : ((st link.queue).task (callbackID (stageID msg))).present = true ↔
    (st link.queue).group (stageID msg) = []

/-- The report of member `j` of the stage, with this result. -/
structure StageReport (j : Nat) (result : Bytes) (r : Slot.Report) : Prop where
  groupID : r.groupID = stageID msg
  member : r.member = memberID (stageID msg) j
  callback : r.callback.id = callbackID (stageID msg)
  queue : r.callback.queue = link.queue
  index : r.index = j
  size : r.size = link.group.length
  result : r.result = result

/-- What one round of the loop does for member `j`. -/
inductive StageTurn (j : Nat) (m : GroupMemberLink) (st : Contents) : Contents → Prop where
  | created {b : TaskMessage} {delayed : Bool}
      (habsent : ((st m.queue).task (memberID (stageID msg) j)).present = false)
      (hb : EarlierMember msg link rest j m b) (hid : b.id = memberID (stageID msg) j) :
      StageTurn j m st (Function.update st m.queue ((st m.queue).place b delayed))
  | idle (hlive : ((st m.queue).task (memberID (stageID msg) j)).Live) : StageTurn j m st st
  | drained {b : TaskMessage} {r : Slot.Report}
      (hstored : (st m.queue).task (memberID (stageID msg) j) = ⟨some b, some .completed⟩)
      (hr : StageReport msg link j b.result r) :
      StageTurn j m st (Function.update st link.queue ((st link.queue).report r))

end Stage

section Turns
variable {msg : TaskMessage} {link : ChainLink} {rest : List ChainLink}

theorem StageOpen.unfinished (h : StageOpen msg link rest st)
    (hy : y ∈ (st link.queue).group (stageID msg)) : (st link.queue).group (stageID msg) ≠ [] ∧
      ((st link.queue).task (callbackID (stageID msg))).present = false := by
  have hne := List.ne_nil_of_mem hy
  exact ⟨hne, Bool.eq_false_iff.mpr fun hcb => hne (h.callback.mp hcb)⟩

theorem MemberHash.stored {h : TaskHash} (hm : MemberHash msg link rest j m h) (hl : h.Live) :
    ∃ b state, h = ⟨some b, some state⟩ ∧ state ≠ .completed := by
  rcases hm with habsent | ⟨b, state, rfl, -⟩
  · exact absurd (habsent.symm.trans hl.1) Bool.false_ne_true
  · exact ⟨b, state, rfl, fun h => hl.2 (congrArg some h)⟩

/-- A body that was written earlier makes a report of the stage. -/
theorem EarlierMember.report (h : EarlierMember msg link rest j m b) (score : Option Int) :
    StageReport msg link j b.result (memberReport b (callbackLink link) score) := by
  obtain ⟨state, retried, lastErr, completedAt, result, prevResult, rfl⟩ := h
  exact ⟨rfl, rfl, rfl, rfl, rfl, rfl, rfl⟩

theorem EarlierMember.groupCallback (h : EarlierMember msg link rest j m b) :
    b.groupCallback = some (callbackLink link) ∧ b.groupQueue = (callbackLink link).queue := by
  obtain ⟨state, retried, lastErr, completedAt, result, prevResult, rfl⟩ := h
  exact ⟨rfl, rfl⟩

theorem EarlierMember.reportStored (h : EarlierMember msg link rest j m b) (st : Contents)
    (score : Option Int) (hscore : score.isSome = decide (0 < link.delay)) :
    reportStored st b = Function.update st link.queue
      ((st link.queue).report (memberReport b (callbackLink link) score)) := by
  have heq : score.isSome = (if 0 < link.delay then some (0 : Int) else none).isSome := by
    rw [hscore]
    split <;> simp [*]
  rw [ChronosGo.reportStored, h.groupCallback.1]
  exact (if_neg (not_not.mpr h.groupCallback.2)).trans (congrArg (Function.update st link.queue)
    (Content.report_score _ (memberReport b (callbackLink link) _) heq).symm)

theorem settle_turn (h : StageOpen msg link rest st) (hj : link.group[j]? = some m) (d : Int) :
    StageTurn msg link rest j m st (settle st (stageMember msg link rest j m, d)) := by
  rcases h.members j m hj with habsent | ⟨b, state, hstored, hb⟩
  · rw [settle_of_absent (x := (stageMember msg link rest j m, d)) habsent]
    exact .created habsent ⟨_, _, _, _, _, _, rfl⟩ rfl
  · by_cases hstate : state = .completed
    · subst hstate
      rw [settle_of_completed (x := (stageMember msg link rest j m, d)) hstored,
        hb.reportStored st (if 0 < link.delay then some 0 else none) (by split <;> simp [*])]
      exact .drained hstored (hb.report _)
    · have hlive : ((st m.queue).task (memberID (stageID msg) j)).Live := by
        rw [hstored]
        exact ⟨rfl, fun h => hstate (Option.some.inj h)⟩
      rw [settle_of_live (x := (stageMember msg link rest j m, d)) hlive]
      exact .idle hlive

/-! ### What a round leaves alone -/

section Update
variable {delayed : Bool} {r : Slot.Report} {q q' : String}

theorem task_update_place (h : ¬ (q' = q ∧ y = b.id)) :
    (Function.update st q ((st q).place b delayed) q').task y = (st q').task y := by
  by_cases hq : q' = q
  · subst hq
    rw [Function.update_self, Content.task_place_ne _ _ _ fun hy => h ⟨rfl, hy⟩]
  · rw [Function.update_of_ne hq]

theorem group_update_place :
    (Function.update st q ((st q).place b delayed) q').group = (st q').group := by
  by_cases hq : q' = q
  · subst hq
    rw [Function.update_self, Content.group_place]
  · rw [Function.update_of_ne hq]

theorem groupResult_update_place :
    (Function.update st q ((st q).place b delayed) q').groupResult = (st q').groupResult := by
  by_cases hq : q' = q
  · subst hq
    rw [Function.update_self, Content.groupResult_place]
  · rw [Function.update_of_ne hq]

theorem task_update_report (h : ¬ (q' = q ∧ y = r.callback.id)) :
    (Function.update st q ((st q).report r) q').task y = (st q').task y := by
  by_cases hq : q' = q
  · subst hq
    rw [Function.update_self, Content.task_report_ne _ fun hy => h ⟨rfl, hy⟩]
  · rw [Function.update_of_ne hq]

end Update

namespace StageTurn

section
variable (h : StageTurn msg link rest j m st st')
include h

/-- A round touches no tasks but its member and the callback. -/
theorem task_ne {q : String} (hself : ¬ (q = m.queue ∧ y = memberID (stageID msg) j))
    (hcb : ¬ (q = link.queue ∧ y = callbackID (stageID msg))) : (st' q).task y = (st q).task y := by
  cases h with
  | created _ _ hid => exact task_update_place (hid ▸ hself)
  | idle => rfl
  | drained _ hr => exact task_update_report (hr.callback ▸ hcb)

/-- The slots of other members stay as they are. -/
theorem mem_group_ne (hy : y ≠ memberID (stageID msg) j) :
    y ∈ (st' link.queue).group (stageID msg) ↔ y ∈ (st link.queue).group (stageID msg) := by
  cases h with
  | created => rw [group_update_place]
  | idle => rfl
  | drained _ hr =>
    rw [Function.update_self, ← hr.groupID, Content.group_report, hr.member, mem_srem]
    exact and_iff_left hy

/-- A member whose slot is left exists and is not completed. -/
theorem live_of_mem (hmem : memberID (stageID msg) j ∈ (st' link.queue).group (stageID msg)) :
    ((st' m.queue).task (memberID (stageID msg) j)).Live := by
  cases h with
  | @created b delayed habsent hb hid =>
    rw [Function.update_self, ← hid, Content.task_place_self]
    refine ⟨rfl, ?_⟩
    cases delayed <;> simp
  | idle hlive => exact hlive
  | drained _ hr =>
    rw [Function.update_self, ← hr.groupID, Content.group_report, hr.member, mem_srem] at hmem
    exact absurd rfl (hr.groupID ▸ hmem.2)

/-- The callback is created when the last slot goes. -/
theorem callback_iff (hopen : StageOpen msg link rest st)
    (hmem : memberID (stageID msg) j ∈ (st link.queue).group (stageID msg)) :
    ((st' link.queue).task (callbackID (stageID msg))).present = true ↔
      (st' link.queue).group (stageID msg) = [] := by
  obtain ⟨hne, hno⟩ := hopen.unfinished hmem
  cases h with
  | created _ _ hid =>
    rw [group_update_place,
      task_update_place fun h => memberID_ne_callbackID _ _ _ (hid ▸ h.2.symm)]
    exact hopen.callback
  | idle => exact hopen.callback
  | @drained b r hstored hr =>
    obtain ⟨hgid, hmember, hcb, -⟩ := hr
    rw [Function.update_self, ← hgid, Content.group_report]
    rw [← hgid] at hne
    rw [← hcb] at hno
    by_cases hlast : srem ((st link.queue).group r.groupID) r.member = []
    · have hid : (Slot.withResults r.callback ((st link.queue).reportedFields r) r.size).id =
          callbackID r.groupID := by rw [Slot.withResults_id, hcb, hgid]
      rw [Content.report_of_last hne hlast hno, ← hid, Content.task_place_self]
      exact iff_of_true rfl hlast
    · rw [Content.report_of_more hlast, Content.task_setGroup, hgid, ← hcb, hno]
      exact iff_of_false Bool.false_ne_true (hgid ▸ hlast)

/-- **A round keeps the stage in shape.** -/
theorem stageOpen (hopen : StageOpen msg link rest st) (hj : link.group[j]? = some m)
    (hmem : memberID (stageID msg) j ∈ (st link.queue).group (stageID msg)) :
    StageOpen msg link rest st' where
  pending := fun y hy => by
    by_cases hself : y = memberID (stageID msg) j
    · exact hopen.pending y (hself ▸ hmem)
    · exact hopen.pending y ((h.mem_group_ne hself).mp hy)
  members := fun i m' hi => by
    by_cases hij : i = j
    · subst hij
      cases hj.symm.trans hi
      cases h with
      | @created b delayed habsent hb hid =>
        refine .inr ⟨_, if delayed then .scheduled else .pending, ?_, hb⟩
        rw [Function.update_self, ← hid, Content.task_place_self]
      | idle => exact hopen.members i m hi
      | drained _ hr =>
        rw [task_update_report fun h => memberID_ne_callbackID _ _ _ (h.2.trans hr.callback)]
        exact hopen.members i m hi
    · rw [h.task_ne (fun h => hij (memberID_injective _ h.2))
        fun h => memberID_ne_callbackID _ _ _ h.2]
      exact hopen.members i m' hi
  callback := h.callback_iff hopen hmem

end

end StageTurn

/-! ### The loop -/

variable (msg link rest) in
/-- The loop of `enqueueNextGroup` can be started again. -/
def stageLoop : Loop Contents (TaskMessage × Int) where
  items := stageMembers msg link rest
  step := settle
  pending := fun st x => x.1.id ∈ (st link.queue).group (stageID msg)
  idle := fun st x => ((st x.1.queue).task x.1.id).Live
  valid := StageOpen msg link rest
  nodup := (stageMembers_ids msg link rest ▸ stageMemberIDs_nodup msg link).of_map _
  valid_step := fun {st x} hopen hx hp => by
    obtain ⟨j, m, hj, rfl⟩ := mem_stageMembers.mp hx
    exact (settle_turn hopen hj _).stageOpen hopen hj (of_decide_eq_true hp)
  pending_step := fun {st x y} hopen hx hp hy hne => by
    obtain ⟨j, m, hj, rfl⟩ := mem_stageMembers.mp hx
    obtain ⟨i, m', hi, rfl⟩ := mem_stageMembers.mp hy
    refine decide_eq_decide.mpr ((settle_turn hopen hj _).mem_group_ne fun hid => hne ?_)
    obtain rfl : i = j := memberID_injective _ hid
    cases hj.symm.trans hi
    rfl
  idle_self := fun {st x} hopen hx hp hleft => by
    obtain ⟨j, m, hj, rfl⟩ := mem_stageMembers.mp hx
    exact (settle_turn hopen hj _).live_of_mem (of_decide_eq_true hleft)
  idle_step := fun {st x y} hopen hx hp hy hne hidle => by
    obtain ⟨j, m, hj, rfl⟩ := mem_stageMembers.mp hx
    obtain ⟨i, m', hi, rfl⟩ := mem_stageMembers.mp hy
    show (TaskHash.Live _)
    refine (settle_turn hopen hj (delayDuration m.delay)).task_ne (fun h => hne ?_)
      (fun h => memberID_ne_callbackID _ _ _ h.2) ▸ hidle
    obtain rfl : i = j := memberID_injective _ h.2
    cases hj.symm.trans hi
    rfl
  step_idle := settle_of_live

theorem mem_stageLoop_todo : x ∈ (stageLoop msg link rest).todo st ↔
    x ∈ stageMembers msg link rest ∧ x.1.id ∈ (st link.queue).group (stageID msg) := by
  simp [Loop.todo, stageLoop]

end Turns

/-! ## A whole attempt -/

section Attempt
variable (msg : TaskMessage) (link : ChainLink) (rest : List ChainLink)

/-- What an attempt may find: pending slots of members, members that were written earlier,
and no slots if the callback exists. -/
structure StageShape (st : Contents) : Prop where
  pending : ∀ y ∈ (st link.queue).group (stageID msg), y ∈ stageMemberIDs msg link
  members : ∀ j m, link.group[j]? = some m →
    MemberHash msg link rest j m ((st m.queue).task (memberID (stageID msg) j))
  done : ((st link.queue).task (callbackID (stageID msg))).present = true →
    (st link.queue).group (stageID msg) = []

/-- The stage is registered. -/
def openStage (st : Contents) : Contents :=
  Function.update st link.queue ((st link.queue).openGroup (stageID msg) (stageMemberIDs msg link)
    (callbackID (stageID msg)))

/-- What a complete attempt leaves. -/
def createStage (st : Contents) : Contents :=
  (stageLoop msg link rest).run (openStage msg link st)
    ((stageLoop msg link rest).todo (openStage msg link st))

end Attempt

section Attempts
variable {msg : TaskMessage} {link : ChainLink} {rest : List ChainLink}

theorem StageOpen.shape (h : StageOpen msg link rest st) : StageShape msg link rest st :=
  ⟨h.pending, h.members, h.callback.mp⟩

/-- A stage that is registered is not registered again. -/
theorem openStage_eq
    (h : ((st link.queue).task (callbackID (stageID msg))).present = true ∨
      (st link.queue).group (stageID msg) ≠ []) : openStage msg link st = st := by
  rw [openStage, Content.openGroup, if_pos h, Function.update_eq_self]

theorem StageOpen.openStage_eq (h : StageOpen msg link rest st) : openStage msg link st = st := by
  refine ChronosGo.openStage_eq ?_
  by_cases hnil : (st link.queue).group (stageID msg) = []
  · exact .inl (h.callback.mpr hnil)
  · exact .inr hnil

/-- The pending slots after the stage is registered: those there were, or all. -/
theorem mem_group_openStage
    (hcb : ((st link.queue).task (callbackID (stageID msg))).present = false) :
    y ∈ (openStage msg link st link.queue).group (stageID msg) ↔
      y ∈ (st link.queue).group (stageID msg) ∨
        (st link.queue).group (stageID msg) = [] ∧ y ∈ stageMemberIDs msg link := by
  by_cases hnil : (st link.queue).group (stageID msg) = []
  · have hnot : ¬ (((st link.queue).task (callbackID (stageID msg))).present = true ∨
        (st link.queue).group (stageID msg) ≠ []) := by simp [hcb, hnil]
    rw [openStage, Function.update_self, Content.openGroup, if_neg hnot, hnil]
    simp [Content.setGroup]
  · rw [ChronosGo.openStage_eq (.inr hnil)]
    simp [hnil]

theorem task_openStage (q y : String) : (openStage msg link st q).task y = (st q).task y := by
  by_cases hq : q = link.queue
  · subst hq
    rw [openStage, Function.update_self, Content.openGroup]
    split <;> rfl
  · rw [openStage, Function.update_of_ne hq]

/-- **Registering the stage puts it in shape.** -/
theorem StageShape.opened (h : StageShape msg link rest st) (hn : link.group ≠ []) :
    StageOpen msg link rest (openStage msg link st) := by
  by_cases hcb : ((st link.queue).task (callbackID (stageID msg))).present = true
  · rw [ChronosGo.openStage_eq (.inl hcb)]
    exact ⟨h.pending, h.members, fun _ => h.done hcb, fun _ => hcb⟩
  · rw [Bool.not_eq_true] at hcb
    have hids : stageMemberIDs msg link ≠ [] := by
      simpa [stageMemberIDs] using hn
    obtain ⟨y, hy⟩ := List.exists_mem_of_ne_nil _ hids
    refine ⟨fun y hy => ?_, fun j m hj => ?_, ?_⟩
    · rcases (mem_group_openStage hcb).mp hy with hy | ⟨-, hy⟩
      · exact h.pending y hy
      · exact hy
    · rw [task_openStage]
      exact h.members j m hj
    · rw [task_openStage, hcb]
      refine iff_of_false Bool.false_ne_true fun hnil => ?_
      have hnone : ∀ y, y ∉ (openStage msg link st link.queue).group (stageID msg) := by
        rw [hnil]
        exact fun _ => List.not_mem_nil
      by_cases hst : (st link.queue).group (stageID msg) = []
      · exact hnone y ((mem_group_openStage hcb).mpr (.inr ⟨hst, hy⟩))
      · obtain ⟨z, hz⟩ := List.exists_mem_of_ne_nil _ hst
        exact hnone z ((mem_group_openStage hcb).mpr (.inl hz))

theorem StageShape.created (h : StageShape msg link rest st) (hn : link.group ≠ []) :
    StageOpen msg link rest (createStage msg link rest st) :=
  Loop.valid_run (L := stageLoop msg link rest) (h.opened hn) (Loop.due_todo _)

/-- **No dead slot**: a slot that is left belongs to a member that exists and is not completed. -/
theorem StageShape.live_of_slot (h : StageShape msg link rest st) (hn : link.group ≠ [])
    (hj : link.group[j]? = some m)
    (hslot : memberID (stageID msg) j ∈ (createStage msg link rest st link.queue).group
      (stageID msg)) :
    ((createStage msg link rest st m.queue).task (memberID (stageID msg) j)).Live := by
  let x := (stageMember msg link rest j m, delayDuration m.delay)
  have hx : x ∈ stageMembers msg link rest := mem_stageMembers.mpr ⟨j, m, hj, rfl⟩
  have hopen := h.opened hn
  have hleft : (stageLoop msg link rest).pending (createStage msg link rest st) x = true :=
    decide_eq_true hslot
  have htodo : x ∈ (stageLoop msg link rest).todo (openStage msg link st) := by
    by_contra hnot
    have hsame := Loop.pending_run (L := stageLoop msg link rest) hopen (Loop.due_todo _) hx hnot
    exact hnot (List.mem_filter.mpr ⟨hx, hsame.symm.trans hleft⟩)
  exact Loop.idle_run (L := stageLoop msg link rest) hopen (Loop.due_todo _) htodo hleft

/-- The result of member `j` is recorded: in the result hash, or in the callback once that
exists. -/
def ResultRecorded (msg : TaskMessage) (link : ChainLink) (st : Contents) (j : Nat)
    (result : Bytes) : Prop :=
  (((st link.queue).task (callbackID (stageID msg))).present = false ∧
      hget ((st link.queue).groupResult (stageID msg)) j = some result) ∨
    ∃ cb, ((st link.queue).task (callbackID (stageID msg))).msg = some cb ∧
      cb.groupResults[j]? = some (some result)

/-- A report after which the result is among the fields records it. -/
theorem StageReport.recorded {i : Nat} {b result : Bytes} {r : Slot.Report}
    (hr : StageReport msg link i b r) (hopen : StageOpen msg link rest st)
    (hmem : memberID (stageID msg) i ∈ (st link.queue).group (stageID msg))
    (hj : j < link.group.length)
    (hfield : hget ((st link.queue).reportedFields r) j = some result) :
    ResultRecorded msg link (Function.update st link.queue ((st link.queue).report r)) j
      result := by
  obtain ⟨hgid, hmember, hcb, -, -, hsize, -⟩ := hr
  obtain ⟨hne, hno⟩ := hopen.unfinished hmem
  rw [← hgid] at hne
  unfold ResultRecorded
  rw [Function.update_self]
  by_cases hlast : srem ((st link.queue).group r.groupID) r.member = []
  · have hfields : (st link.queue).reportedFields r ≠ [] := fun hnil => by
      rw [hnil] at hfield
      cases hfield
    have hid : (Slot.withResults r.callback ((st link.queue).reportedFields r) r.size).id =
        callbackID (stageID msg) := by rw [Slot.withResults_id, hcb]
    refine .inr ⟨Slot.withResults r.callback ((st link.queue).reportedFields r) r.size, ?_, ?_⟩
    · rw [Content.report_of_last hne hlast (hcb ▸ hno), ← hid, Content.task_place_self]
    · rw [Slot.withResults, if_pos ⟨hfields, by omega⟩]
      simp [hsize, hj, hfield]
  · refine .inl ?_
    rw [Content.report_of_more hlast]
    refine ⟨hno, ?_⟩
    rw [← hgid]
    simpa [Content.setGroup] using hfield

/-- What is recorded for a member stays recorded in the rounds of the others. -/
theorem StageTurn.recorded_ne {i : Nat} {result : Bytes} (h : StageTurn msg link rest i m st st')
    (hopen : StageOpen msg link rest st)
    (hmem : memberID (stageID msg) i ∈ (st link.queue).group (stageID msg)) (hij : i ≠ j)
    (hj : j < link.group.length) (hrec : ResultRecorded msg link st j result) :
    ResultRecorded msg link st' j result := by
  cases h with
  | created _ _ hid =>
    unfold ResultRecorded
    rw [groupResult_update_place,
      task_update_place fun h => memberID_ne_callbackID _ _ _ (hid ▸ h.2.symm)]
    exact hrec
  | idle => exact hrec
  | drained _ hr =>
    refine hr.recorded hopen hmem hj ?_
    rcases hrec with ⟨-, hfield⟩ | ⟨cb, hcb, -⟩
    · rw [← hr.groupID] at hfield
      unfold Content.reportedFields
      split
      · exact hfield
      · rwa [hget_hset_ne _ _ (hr.index ▸ hij.symm)]
    · -- a stage with a pending slot has no callback
      have hpresent : ((st link.queue).task (callbackID (stageID msg))).present = true := by
        simp [TaskHash.present, hcb]
      exact absurd (hopen.callback.mp hpresent) (List.ne_nil_of_mem hmem)

/-- The round of a completed member records its result. -/
theorem StageTurn.recorded_self (h : StageTurn msg link rest j m st st')
    (hopen : StageOpen msg link rest st)
    (hmem : memberID (stageID msg) j ∈ (st link.queue).group (stageID msg))
    (hj : j < link.group.length)
    (hstored : (st m.queue).task (memberID (stageID msg) j) = ⟨some b, some .completed⟩)
    (hresult : b.result ≠ []) : ResultRecorded msg link st' j b.result := by
  cases h with
  | created habsent =>
    rw [hstored] at habsent
    cases habsent
  | idle hlive =>
    rw [hstored] at hlive
    exact absurd rfl hlive.2
  | @drained b' r hstored' hr =>
    cases hstored.symm.trans hstored'
    refine hr.recorded hopen hmem hj ?_
    rw [Content.reportedFields, if_neg (hr.result ▸ hresult), hr.index, hr.result, hget_hset_self]

/-- **Results are not lost**: what a completed member has stored is recorded under its
index. -/
theorem StageShape.recorded (h : StageShape msg link rest st) (hn : link.group ≠ [])
    (hj : link.group[j]? = some m)
    (hstored : (st m.queue).task (memberID (stageID msg) j) = ⟨some b, some .completed⟩)
    (hslot : memberID (stageID msg) j ∈ (openStage msg link st link.queue).group (stageID msg))
    (hresult : b.result ≠ []) :
    ResultRecorded msg link (createStage msg link rest st) j b.result := by
  have hlt : j < link.group.length := (List.getElem?_eq_some_iff.mp hj).1
  let x := (stageMember msg link rest j m, delayDuration m.delay)
  have hx : x ∈ stageMembers msg link rest := mem_stageMembers.mpr ⟨j, m, hj, rfl⟩
  refine Loop.run_achieves (L := stageLoop msg link rest) (a := x)
    (C := fun t => (t m.queue).task (memberID (stageID msg) j) = ⟨some b, some .completed⟩)
    (D := fun t => ResultRecorded msg link t j b.result) (h.opened hn) (Loop.due_todo _)
    (mem_stageLoop_todo.mpr ⟨hx, hslot⟩) ?_ ?_ ?_ ((task_openStage ..).trans hstored)
  · intro t y hopen hy hp hne hC
    obtain ⟨i, m', hi, rfl⟩ := mem_stageMembers.mp (mem_stageLoop_todo.mp hy).1
    refine ((settle_turn hopen hi _).task_ne (fun h => hne ?_)
      fun h => memberID_ne_callbackID _ _ _ h.2).trans hC
    obtain rfl : j = i := memberID_injective _ h.2
    cases hj.symm.trans hi
    rfl
  · exact fun t hopen hp hC =>
      (settle_turn hopen hj _).recorded_self hopen (of_decide_eq_true hp) hlt hC hresult
  · intro t y hopen hy hp hne hD
    obtain ⟨i, m', hi, rfl⟩ := mem_stageMembers.mp (mem_stageLoop_todo.mp hy).1
    refine (settle_turn hopen hi _).recorded_ne hopen (of_decide_eq_true hp) (fun hij => hne ?_)
      hlt hD
    subst hij
    cases hj.symm.trans hi
    rfl

/-- **A cut-off attempt and a complete one** leave what one complete attempt leaves. -/
theorem StageShape.resume (h : StageShape msg link rest st) (hn : link.group ≠ []) (n : Nat) :
    createStage msg link rest ((stageLoop msg link rest).run (openStage msg link st)
      (((stageLoop msg link rest).todo (openStage msg link st)).take n)) =
    createStage msg link rest st := by
  have hopen := h.opened hn
  have hcut : StageOpen msg link rest ((stageLoop msg link rest).run (openStage msg link st)
      (((stageLoop msg link rest).todo (openStage msg link st)).take n)) :=
    Loop.valid_run (L := stageLoop msg link rest) hopen
      ((Loop.due_todo _).sublist (List.take_sublist ..))
  rw [createStage, hcut.openStage_eq]
  exact Loop.resume (L := stageLoop msg link rest) hopen n

end Attempts
end ChronosGo
