import ChronosGo.World
import Mathlib.Data.Set.Insert

/-! # What is stored, without its times

The scores of the sorted sets and the deadlines of keys depend on the moment at which a
request is executed.  A `Content` is what the keys of a queue hold apart from them, and
the scripts of parallel stages are functions of contents: a request that is executed at
another time has the same effect on them, and the same answer.
-/
namespace ChronosGo
open Redis

/-- What the keys of one queue hold, without scores and deadlines. -/
@[ext]
structure Content where
  task : String → TaskHash
  stream : Redis.Stream String String
  zset : ZKey → Set String
  group : String → List String
  groupResult : String → List (Nat × Bytes)
  unique : String → Option String
  dedup : Set String

/-- The content of a queue's keys. -/
def Slot.content (s : Slot) : Content where
  task := s.task
  stream := s.stream
  zset := fun z => { x | x ∈ s.zset z }
  group := fun g => (s.group g).members
  groupResult := fun g => (s.groupResult g).fields
  unique := fun key => (s.unique key).map Lock.owner
  dedup := { t | (s.dedup t).isSome }

namespace Content
variable (c : Content)

/-- A task is created: pending and in the stream, or scheduled. -/
def place (msg : TaskMessage) (delayed : Bool) : Content :=
  if delayed then
    { c with
      task := Function.update c.task msg.id ⟨some msg, some .scheduled⟩
      zset := Function.update c.zset .scheduled (insert msg.id (c.zset .scheduled)) }
  else
    { c with
      task := Function.update c.task msg.id ⟨some msg, some .pending⟩
      stream := c.stream.xadd msg.id }

/-- A group's pending set and results. -/
def setGroup (gid : String) (members : List String) (results : List (Nat × Bytes)) : Content :=
  { c with
    group := Function.update c.group gid members
    groupResult := Function.update c.groupResult gid results }

/-- `createGroupIfAbsentCmd`. -/
def openGroup (gid : String) (memberIDs : List String) (cbID : String) : Content :=
  if (c.task cbID).present ∨ c.group gid ≠ [] then c else c.setGroup gid (sadd [] memberIDs) []

/-- What `CreateGroupIfAbsent` finds. -/
def stageState (gid cbID : String) : Slot.GroupStageState :=
  if (c.task cbID).present then .done else if c.group gid ≠ [] then .present else .created

/-- The result fields after a report. -/
def reportedFields (r : Slot.Report) : List (Nat × Bytes) :=
  if r.result = [] then c.groupResult r.groupID else hset (c.groupResult r.groupID) r.index r.result

/-- `groupCompleteCmd`. -/
def report (r : Slot.Report) : Content :=
  if c.group r.groupID = [] then c
  else if srem (c.group r.groupID) r.member ≠ [] then
    c.setGroup r.groupID (srem (c.group r.groupID) r.member) (c.reportedFields r)
  else if (c.task r.callback.id).present then c.setGroup r.groupID [] []
  else (c.setGroup r.groupID [] []).place (Slot.withResults r.callback (c.reportedFields r) r.size)
    r.score.isSome

/-! ## The fields after a request -/

section Fields
variable (msg : TaskMessage) (delayed : Bool) (gid x : String) (members : List String)
  (results : List (Nat × Bytes)) (r : Slot.Report)

@[simp] theorem task_setGroup : (c.setGroup gid members results).task = c.task := rfl

@[simp] theorem group_place : (c.place msg delayed).group = c.group := by
  cases delayed <;> rfl

@[simp] theorem groupResult_place : (c.place msg delayed).groupResult = c.groupResult := by
  cases delayed <;> rfl

@[simp] theorem task_place_self : (c.place msg delayed).task msg.id =
    ⟨some msg, some (if delayed then .scheduled else .pending)⟩ := by
  cases delayed <;> exact Function.update_self ..

variable {x} in
@[simp] theorem task_place_ne (h : x ≠ msg.id) : (c.place msg delayed).task x = c.task x := by
  cases delayed <;> exact Function.update_of_ne h ..

/-- A report takes its member out of the pending set. -/
theorem group_report : (c.report r).group r.groupID = srem (c.group r.groupID) r.member := by
  unfold report
  split
  · rename_i hnil
    rw [hnil]
    rfl
  · split
    · exact Function.update_self ..
    · rename_i hrest
      rw [not_not.mp hrest]
      split
      · exact Function.update_self ..
      · rw [group_place]
        exact Function.update_self ..

variable {x r} in
/-- A report touches no task but the callback. -/
theorem task_report_ne (h : x ≠ r.callback.id) : (c.report r).task x = c.task x := by
  have hid : (Slot.withResults r.callback (c.reportedFields r) r.size).id = r.callback.id :=
    Slot.withResults_id ..
  unfold report
  split
  · rfl
  · split
    · rfl
    · split
      · rfl
      · rw [task_place_ne _ _ _ (hid ▸ h)]
        rfl

/-- A report leaves the callback as it is, or creates it. -/
theorem task_report_callback : (c.report r).task r.callback.id = c.task r.callback.id ∨
    (c.task r.callback.id).present = false ∧ ∃ m state, m.id = r.callback.id ∧
      m.queue = r.callback.queue ∧ (c.report r).task r.callback.id = ⟨some m, some state⟩ := by
  have hid : (Slot.withResults r.callback (c.reportedFields r) r.size).id = r.callback.id :=
    Slot.withResults_id ..
  unfold report
  split
  · exact .inl rfl
  · split
    · exact .inl rfl
    · split
      · exact .inl rfl
      · rename_i hno
        refine .inr ⟨Bool.not_eq_true _ ▸ hno,
          Slot.withResults r.callback (c.reportedFields r) r.size,
          if r.score.isSome then .scheduled else .pending, hid, ?_, ?_⟩
        · unfold Slot.withResults
          split <;> rfl
        · rw [← hid, task_place_self]

/-- When the callback is due does not matter. -/
theorem report_score {score : Option Int} (h : score.isSome = r.score.isSome) :
    c.report { r with score := score } = c.report r := by
  simp only [report, reportedFields, h]

variable {c r} in
/-- A report that is not the last one is recorded. -/
theorem report_of_more (hmore : srem (c.group r.groupID) r.member ≠ []) :
    c.report r = c.setGroup r.groupID (srem (c.group r.groupID) r.member) (c.reportedFields r) := by
  have hne : c.group r.groupID ≠ [] := fun hnil => hmore (by rw [hnil]; rfl)
  rw [report, if_neg hne, if_pos hmore]

variable {c r} in
/-- The last report creates the callback. -/
theorem report_of_last (hne : c.group r.groupID ≠ [])
    (hlast : srem (c.group r.groupID) r.member = [])
    (hcb : (c.task r.callback.id).present = false) : c.report r =
      (c.setGroup r.groupID [] []).place (Slot.withResults r.callback (c.reportedFields r) r.size)
        r.score.isSome := by
  rw [report, if_neg hne, if_neg (not_not.mpr hlast), if_neg (by simp [hcb])]

end Fields
end Content

/-! ## The scripts -/

namespace Slot
variable (s : Slot)

theorem content_zadd (z : ZKey) (score : Int) (id : String) : (s.zadd z score id).content =
    { s.content with zset := Function.update s.content.zset z (insert id (s.content.zset z)) } := by
  ext1
  case zset =>
    funext z'
    ext x
    by_cases hz : z' = z
    · subst hz
      simp [content]
    · simp [content, hz]
  all_goals rfl

/-- The callback is placed in the stream, or in the scheduled set. -/
theorem content_placeCallback (cb : TaskMessage) (score : Option Int) :
    (s.placeCallback cb score).content = s.content.place cb score.isSome := by
  cases score with
  | none => rfl
  | some score => exact content_zadd (s.put cb .scheduled) .scheduled score cb.id

theorem chainEnqueue_created (msg : TaskMessage) :
    (s.chainEnqueue msg).2 = !(s.task msg.id).present := by
  unfold chainEnqueue
  split <;> simp [*]

theorem chainSchedule_created (msg : TaskMessage) (score : Int) :
    (s.chainSchedule msg score).2 = !(s.task msg.id).present := by
  unfold chainSchedule
  split <;> simp [*]

theorem content_chainEnqueue (msg : TaskMessage) : (s.chainEnqueue msg).1.content =
    if (s.content.task msg.id).present then s.content
    else s.content.place { msg with state := .pending } false := by
  unfold chainEnqueue
  split
  · rename_i h
    rw [if_pos (show (s.content.task msg.id).present = true from h)]
  · rename_i h
    rw [if_neg (show ¬ (s.content.task msg.id).present = true from h)]
    rfl

theorem content_chainSchedule (msg : TaskMessage) (score : Int) :
    (s.chainSchedule msg score).1.content =
      if (s.content.task msg.id).present then s.content
      else s.content.place { msg with state := .scheduled } true := by
  unfold chainSchedule
  split
  · rename_i h
    rw [if_pos (show (s.content.task msg.id).present = true from h)]
  · rename_i h
    rw [if_neg (show ¬ (s.content.task msg.id).present = true from h)]
    exact content_zadd (s.put _ .scheduled) .scheduled score msg.id

theorem content_setGroup (gid : String) (members : List String) (results : List (Nat × Bytes))
    (t t' : Int) :
    { s with
      group := Function.update s.group gid ⟨members, t⟩
      groupResult := Function.update s.groupResult gid ⟨results, t'⟩ }.content =
    s.content.setGroup gid members results := by
  ext1
  case group =>
    funext g
    by_cases hg : g = gid
    · subst hg
      simp [content, Content.setGroup]
    · simp [content, Content.setGroup, hg]
  case groupResult =>
    funext g
    by_cases hg : g = gid
    · subst hg
      simp [content, Content.setGroup]
    · simp [content, Content.setGroup, hg]
  all_goals rfl

theorem content_createGroupIfAbsent (gid : String) (memberIDs : List String) (cbID : String)
    (now : Int) : (s.createGroupIfAbsent gid memberIDs cbID now).1.content =
      s.content.openGroup gid memberIDs cbID := by
  unfold createGroupIfAbsent Content.openGroup
  split
  · rename_i h
    exact (if_pos (.inl h)).symm
  · rename_i h
    split
    · rename_i hne
      rw [if_pos (.inr hne)]
      -- only the deadline of the pending set is new
      ext1
      case group =>
        funext g
        by_cases hg : g = gid
        · subst hg
          simp [content]
        · simp [content, hg]
      all_goals rfl
    · rename_i hnil
      exact (s.content_setGroup ..).trans (if_neg (not_or.mpr ⟨h, hnil⟩)).symm

theorem createGroupIfAbsent_state (gid : String) (memberIDs : List String) (cbID : String)
    (now : Int) : (s.createGroupIfAbsent gid memberIDs cbID now).2 =
      s.content.stageState gid cbID := by
  unfold createGroupIfAbsent Content.stageState
  split
  · rename_i hcb
    exact (if_pos hcb).symm
  · rename_i hcb
    refine Eq.trans ?_ (if_neg hcb).symm
    split
    · rename_i hne
      exact (if_pos hne).symm
    · rename_i hnil
      exact (if_neg hnil).symm

theorem content_groupComplete (r : Report) (now : Int) :
    (s.groupComplete r now).1.content = s.content.report r := by
  unfold groupComplete Content.report
  split
  · rename_i hnil
    exact (if_pos hnil).symm
  · rename_i hne
    rw [if_neg (show ¬ s.content.group r.groupID = [] from hne)]
    dsimp only
    split
    · rename_i hmore
      exact (s.content_setGroup ..).trans (if_pos hmore).symm
    · rename_i hlast
      rw [if_neg (show ¬ srem (s.content.group r.groupID) r.member ≠ [] from hlast)]
      split
      · rename_i hcb
        exact (s.content_setGroup ..).trans (if_pos hcb).symm
      · rename_i hcb
        rw [if_neg (show ¬ (s.content.task r.callback.id).present = true from hcb),
          content_placeCallback]
        exact congrArg (Content.place · _ _) (s.content_setGroup ..)

end Slot

/-! ## All queues -/

/-- What is stored under the keys of every queue. -/
abbrev Contents := String → Content

/-- What a world stores. -/
def World.contents (w : World) : Contents := fun q => (w.slot q).content

theorem World.contents_perform (w : World) (k : Keys) (i : Nat) (op : Op) :
    (w.perform k i op).contents =
      Function.update w.contents op.queue (w.slotAfter k op).content := by
  funext q
  by_cases hq : q = op.queue
  · subst hq
    simp [contents, perform]
  · simp [contents, perform, hq]

end ChronosGo
