import ChronosGo.GroupCompletion
import ChronosGo.Workflow
import ChronosGo.World

/-! # The reference semantics of workflows

What a chain or a group is to do, said without a store: its tasks, the message
each of them is to be created with, and what has to have succeeded before.  A
task of a chain is given the result of the stage before it, which is the result
of the stage's task or, after a parallel stage, of its callback; all members of a
parallel stage are given the same.  A link of a member chain is given the result of
the link before it.  A callback is given the results of the members in the order
in which they were added.

A `Plan` is such a set of tasks, and its `Runs` are the sequences of records in
which a task is created as prescribed, once and after what it needs, and runs
once, after it was created.  `chainPlan` and `groupPlan` are the plans of a chain
and of a group; the last part shows that what the server builds from the message of
a task is what the plan prescribes (`Plan.Sound`).
-/
namespace ChronosGo
open GroupCompletion

variable {ms : List TaskMessage} {i : Nat} {rest : List ChainLink} {l : ChainLink}
  {gm : GroupMemberLink}

/-! ## Plans -/

/-- What handlers return on success, as a function of the message. -/
abbrev Handlers : Type := TaskMessage → Option Bytes

/-- The message as a worker is given it. -/
def TaskMessage.active (m : TaskMessage) : TaskMessage := { m with state := .active }

/-- The result of the task of a message; none is the same as an empty one. -/
def resultOf (f : Handlers) (m : TaskMessage) : Bytes := (f m.active).getD []

/-- The tasks of a workflow, the message each is created with, and the tasks that
have to have succeeded before. -/
structure Plan where
  Step : Type
  message : Step → TaskMessage
  Needs : Step → Step → Prop

namespace Plan

/-- The message of the step, in some state. -/
def Is (P : Plan) (b : P.Step) (m : TaskMessage) : Prop :=
  ∃ st, m = { P.message b with state := st }

/-- The step has run and succeeded. -/
def ran (P : Plan) (f : Handlers) (a : P.Step) : Record :=
  .handled (P.message a).active (.ok (f (P.message a).active))

/-- The records of a run of the plan, newest first: every task is created with the
prescribed message, once, after what it needs has succeeded, and it runs once, after it
was created. -/
inductive Runs (P : Plan) (f : Handlers) : List Record → Prop where
  | nil : Runs P f []
  | create {log : List Record} {b : P.Step} {m : TaskMessage} (h : Runs P f log) (hm : P.Is b m)
      (hnew : ∀ m', Record.created m' ∈ log → m'.id ≠ m.id)
      (hneeds : ∀ a, P.Needs b a → P.ran f a ∈ log) : Runs P f (.created m :: log)
  | run {log : List Record} {a : P.Step} (h : Runs P f log)
      (hc : ∃ m, P.Is a m ∧ Record.created m ∈ log)
      (hnew : ∀ m out, Record.handled m out ∈ log → m.id ≠ (P.message a).id) :
      Runs P f (P.ran f a :: log)

end Plan

/-- The record says that a task of this identifier was created. -/
def Record.creates (id : String) : Record → Bool
  | created m => m.id = id
  | handled _ _ => false

/-- The record says that the handler of the task of this identifier has returned. -/
def Record.runs (id : String) : Record → Bool
  | created _ => false
  | handled m _ => m.id = id

namespace Plan

/-- Every task was created exactly once and has run exactly once. -/
def Finished (P : Plan) (log : List Record) : Prop :=
  ∀ a, log.countP (Record.creates (P.message a).id) = 1 ∧
    log.countP (Record.runs (P.message a).id) = 1

section Runs
variable {P : Plan} {f : Handlers} {log : List Record}

theorem Is.id {b : P.Step} {m : TaskMessage} (h : P.Is b m) : m.id = (P.message b).id := by
  obtain ⟨st, rfl⟩ := h
  rfl

/-- No task is created twice. -/
theorem Runs.created_le (h : P.Runs f log) (id : String) :
    log.countP (Record.creates id) ≤ 1 := by
  induction h with
  | nil => exact Nat.zero_le 1
  | @create log b m _ hm hnew _ ih =>
    rw [List.countP_cons]
    by_cases hid : m.id = id
    · have hzero : log.countP (Record.creates id) = 0 := by
        refine List.countP_eq_zero.mpr fun r hr => ?_
        cases r with
        | created m' => simpa [Record.creates, ← hid] using hnew m' hr
        | handled => simp [Record.creates]
      simp [hzero, Record.creates, hid]
    · simpa [Record.creates, hid] using ih
  | run _ _ _ ih => simpa [Plan.ran, Record.creates] using ih

/-- No task runs twice. -/
theorem Runs.ran_le (h : P.Runs f log) (id : String) : log.countP (Record.runs id) ≤ 1 := by
  induction h with
  | nil => exact Nat.zero_le 1
  | create _ _ _ _ ih => simpa [Record.runs] using ih
  | @run log a _ _ hnew ih =>
    rw [List.countP_cons]
    by_cases hid : (P.message a).id = id
    · have hzero : log.countP (Record.runs id) = 0 := by
        refine List.countP_eq_zero.mpr fun r hr => ?_
        cases r with
        | created => simp [Record.runs]
        | handled m out => simpa [Record.runs, ← hid] using hnew m out hr
      have hone : Record.runs id (P.ran f a) = true := by
        simpa [Plan.ran, Record.runs, TaskMessage.active] using hid
      simp [hzero, hone]
    · have hno : Record.runs id (P.ran f a) = false := by
        simpa [Plan.ran, Record.runs, TaskMessage.active] using hid
      simpa [hno] using ih

/-- A run in which every task has run is finished. -/
theorem Runs.finished (h : P.Runs f log) (hc : ∀ a, ∃ m, Record.created m ∈ log ∧ P.Is a m)
    (hr : ∀ a, P.ran f a ∈ log) : P.Finished log := by
  intro a
  obtain ⟨m, hm, hid⟩ := hc a
  refine ⟨Nat.le_antisymm (h.created_le _) (List.countP_pos_iff.mpr ⟨_, hm, ?_⟩),
    Nat.le_antisymm (h.ran_le _) (List.countP_pos_iff.mpr ⟨_, hr a, ?_⟩)⟩
  · simpa [Record.creates] using hid.id
  · simp [Plan.ran, Record.runs, TaskMessage.active]

end Runs
end Plan

/-- The results of the members of a group, as the callback is given them: in order, with
none for an empty one, and nothing at all if all are empty. -/
def gathered (results : List Bytes) : List (Option Bytes) :=
  if ∀ r ∈ results, r = [] then [] else results.map fun r => if r = [] then none else some r

/-! ## Chains -/

section Chain
variable (f : Handlers) (m : TaskMessage)

/-- A single link, given the result of the stage before. -/
def linkInput (i : Nat) (l : ChainLink) (prev : Bytes) : TaskMessage :=
  { linkTask m.chainID (i + 1) l (m.chain.drop (i + 1)) with prevResult := prev }

/-- A member of a parallel stage, given the result of the stage before. -/
def memberInput (i : Nat) (l : ChainLink) (prev : Bytes) (j : Nat) (gm : GroupMemberLink) :
    TaskMessage :=
  { memberTask m.chainID (i + 1) l (m.chain.drop (i + 1)) j gm with prevResult := prev }

/-- The callback of a parallel stage, given the results of its members. -/
def callbackInput (i : Nat) (l : ChainLink) (prev : Bytes) : TaskMessage :=
  { callbackTask m.chainID (i + 1) l (m.chain.drop (i + 1)) with
    groupResults := gathered (l.group.mapIdx fun j gm => resultOf f (memberInput m i l prev j gm)) }

/-- The result of stage `i` of the chain that starts with `m`. -/
def stageResult : Nat → Bytes
  | 0 => resultOf f m
  | i + 1 =>
    match m.chain[i]? with
    | none => []
    | some l =>
      if l.group = [] then resultOf f (linkInput m i l (stageResult i))
      else resultOf f (callbackInput f m i l (stageResult i))

end Chain

/-- The tasks of the chain that starts with `m`, by position. -/
inductive ChainStep (m : TaskMessage) : Type where
  | first
  | link (i : Nat) (l : ChainLink) (hi : m.chain[i]? = some l) (hg : l.group = [])
  | member (i j : Nat) (l : ChainLink) (gm : GroupMemberLink) (hi : m.chain[i]? = some l)
      (hj : l.group[j]? = some gm)
  | callback (i : Nat) (l : ChainLink) (hi : m.chain[i]? = some l) (hg : l.group ≠ [])

namespace ChainStep
variable {m : TaskMessage}

/-- The message of a task of the chain. -/
def message (f : Handlers) : ChainStep m → TaskMessage
  | first => m
  | link i l _ _ => linkInput m i l (stageResult f m i)
  | member i j l gm _ _ => memberInput m i l (stageResult f m i) j gm
  | callback i l _ _ => callbackInput f m i l (stageResult f m i)

/-- The stage whose result is that of the task, if any. -/
def ends : ChainStep m → Option Nat
  | first => some 0
  | link i _ _ _ => some (i + 1)
  | member .. => none
  | callback i _ _ _ => some (i + 1)

/-- What has to have succeeded: the stage before; for a callback the members of its
stage. -/
def Needs : ChainStep m → ChainStep m → Prop
  | first, _ => False
  | link i _ _ _, a => a.ends = some i
  | member i _ _ _ _ _, a => a.ends = some i
  | callback i _ _ _, a => ∃ j l gm hi hj, a = member i j l gm hi hj

end ChainStep

/-- **The plan of the chain that starts with `m`.** -/
def chainPlan (f : Handlers) (m : TaskMessage) : Plan where
  Step := ChainStep m
  message := ChainStep.message f
  Needs := ChainStep.Needs

/-! ## Groups -/

section Group
variable (f : Handlers) (g : String) (cb : ChainLink) (n j : Nat) (m : TaskMessage)

/-- A later link of a member chain, given the result of the link before. -/
def chainLinkInput (i : Nat) (l : ChainLink) (prev : Bytes) : TaskMessage :=
  { memberLink g cb n j (i + 1) l (m.chain.drop (i + 1)) with prevResult := prev }

/-- The result of link `i` of the member that starts with `m`. -/
def linkResult : Nat → Bytes
  | 0 => resultOf f m
  | i + 1 =>
    match m.chain[i]? with
    | none => []
    | some l => resultOf f (chainLinkInput g cb n j m i l (linkResult i))

end Group

/-- The tasks of the group whose members start with `ms`, by position. -/
inductive GroupStep (ms : List TaskMessage) : Type where
  | first (j : Nat) (m : TaskMessage) (hj : ms[j]? = some m)
  | link (j i : Nat) (m : TaskMessage) (l : ChainLink) (hj : ms[j]? = some m)
      (hi : m.chain[i]? = some l)
  | callback

namespace GroupStep

/-- The message of a task of the group. -/
def message (f : Handlers) (g : String) (cb : ChainLink) : GroupStep ms → TaskMessage
  | first _ m _ => m
  | link j i m l _ _ =>
    chainLinkInput g cb ms.length j m i l (linkResult f g cb ms.length j m i)
  | callback =>
    { groupCallbackTask g cb with
      groupResults := gathered (ms.mapIdx fun j m =>
        linkResult f g cb ms.length j m m.chain.length) }

/-- The member of the task and the place in its chain. -/
def place : GroupStep ms → Option (Nat × Nat)
  | first j _ _ => some (j, 0)
  | link j i _ _ _ _ => some (j, i + 1)
  | callback => none

/-- What has to have succeeded: the link before; for the callback the last link of each
member. -/
def Needs : GroupStep ms → GroupStep ms → Prop
  | first .., _ => False
  | link j i _ _ _ _, a => a.place = some (j, i)
  | callback, a => ∃ j m, ms[j]? = some m ∧ a.place = some (j, m.chain.length)

end GroupStep

/-- **The plan of the group `g`** with this callback, whose members start with
`ms`. -/
def groupPlan (f : Handlers) (g : String) (cb : ChainLink) (ms : List TaskMessage) : Plan where
  Step := GroupStep ms
  message := GroupStep.message f g cb
  Needs := GroupStep.Needs

/-! ## What the server builds is what the plan prescribes -/

/-- The message of a task that has succeeded, as the worker goes on with it. -/
def finished (f : Handlers) (m : TaskMessage) : TaskMessage := withResult m.active (f m.active)

section Finished
variable {f : Handlers} {m : TaskMessage}

theorem finished_eq (h : m.result = []) :
    finished f m = { m with state := .active, result := resultOf f m } := by
  unfold finished resultOf
  cases f m.active with
  | none =>
    change m.active = _
    rw [Option.getD_none, ← h]
    rfl
  | some b => rfl

theorem id_finished : (finished f m).id = m.id := by
  unfold finished
  cases f m.active <;> rfl

theorem stageID_finished : stageID (finished f m) = stageID m := by
  unfold finished
  cases f m.active <;> rfl

theorem nextLink_finished (h : m.result = []) (l : ChainLink) (rest : List ChainLink) :
    nextLink (finished f m) l rest = { nextLink m l rest with prevResult := resultOf f m } := by
  rw [finished_eq h]
  rfl

theorem stageMember_finished (h : m.result = []) (l : ChainLink) (rest : List ChainLink) (j : Nat)
    (gm : GroupMemberLink) : stageMember (finished f m) l rest j gm =
      { stageMember m l rest j gm with prevResult := resultOf f m } := by
  rw [finished_eq h]
  rfl

end Finished

namespace Plan

/-- The members of the group `g` report in the steps `fin 0, fin 1, ..`, and `b` is the
callback that is given their results. -/
structure Gathers (P : Plan) (f : Handlers) (g : String) (link : ChainLink) (n : Nat)
    (fin : Nat → P.Step) (b : P.Step) : Prop where
  named : g ≠ ""
  isGroup : IsGroup g n link (groupCallbackMessage (P.message (fin 0)) link)
    fun j => P.message (fin j)
  chain : ∀ j < n, (P.message (fin j)).chain = []
  groupCallback : ∀ j < n, (P.message (fin j)).groupCallback = some link
  callback : P.Is b { groupCallbackMessage (P.message (fin 0)) link with
    groupResults := steady n fun j => resultOf f (P.message (fin j)) }
  last : ∀ a, (P.message a).groupID = g → (P.message a).chain = [] → ∃ j < n, a = fin j
  needs : ∀ a, P.Needs b a ↔ ∃ j < n, a = fin j

/-- What is built from the message of a task that has succeeded is a step of the plan
that needs this task. -/
structure Sound (P : Plan) (f : Handlers) : Prop where
  inj : ∀ a b, (P.message a).id = (P.message b).id → a = b
  clean : ∀ a, (P.message a).result = []
  wf : WellFounded fun a b => P.Needs b a
  link : ∀ a link rest, (P.message a).chain = link :: rest → link.group = [] →
    ∃ b, P.message b = nextLink (finished f (P.message a)) link rest ∧ ∀ c, P.Needs b c ↔ c = a
  member : ∀ a link rest j gm, (P.message a).chain = link :: rest → link.group[j]? = some gm →
    ∃ b, P.message b = stageMember (finished f (P.message a)) link rest j gm ∧
      ∀ c, P.Needs b c ↔ c = a
  stage : ∀ a link rest, (P.message a).chain = link :: rest → link.group ≠ [] →
    ∃ fin b, P.Gathers f (stageID (P.message a)) (callbackLink link) link.group.length fin b
  group : ∀ a, (P.message a).groupID ≠ "" →
    ∃ link n fin b, P.Gathers f (P.message a).groupID link n fin b
  cases : ∀ b, (∀ a, ¬ P.Needs b a) ∨
    (∃ a link rest, (P.message a).chain = link :: rest ∧ (∀ c, P.Needs b c ↔ c = a) ∧
      (link.group = [] ∧ P.message b = nextLink (finished f (P.message a)) link rest ∨
        ∃ j gm, link.group[j]? = some gm ∧
          P.message b = stageMember (finished f (P.message a)) link rest j gm)) ∨
    ∃ g link n fin, P.Gathers f g link n fin b

/-- A group has one callback and one size. -/
theorem Gathers.unique {P : Plan} {f : Handlers} {g : String} {link link' : ChainLink} {n n' : Nat}
    {fin fin' : Nat → P.Step} {b b' : P.Step} (h : P.Gathers f g link n fin b)
    (h' : P.Gathers f g link' n' fin' b') : link = link' ∧ n = n' := by
  have hpos := h'.isGroup.size
  obtain ⟨j, hj, hfin⟩ := h.last (fin' 0) (h'.isGroup.groupID 0 hpos) (h'.chain 0 hpos)
  have hcb := h'.groupCallback 0 hpos
  have hsize : (P.message (fin' 0)).groupSize = n' := h'.isGroup.groupSize 0 hpos
  rw [hfin] at hcb hsize
  exact ⟨Option.some.inj ((h.groupCallback j hj).symm.trans hcb),
    (h.isGroup.groupSize j hj).symm.trans hsize⟩

end Plan

/-- The requests that enqueue or schedule a message. -/
inductive Submits (m : TaskMessage) : Op → Prop where
  | enqueue : Submits m (.enqueue m)
  | schedule (processAt : Int) : Submits m (.schedule m processAt)

/-- The requests that start a plan: the pending set of a group comes first, then each
task that needs nothing, once. -/
structure Plan.Launch (P : Plan) (f : Handlers) (ops : List Op) : Prop where
  op : ∀ (i : Nat) op, ops[i]? = some op →
    (i = 0 ∧ ∃ g link n fin b, P.Gathers f g link n fin b ∧
      op = .createGroup link.queue g (slots g n)) ∨
    ∃ a, Submits (P.message a) op ∧ (∀ c, ¬ P.Needs a c) ∧ ((P.message a).groupID ≠ "" →
      i ≠ 0 ∧ ∃ link n fin b, P.Gathers f (P.message a).groupID link n fin b ∧
        ops[0]? = some (.createGroup link.queue (P.message a).groupID
          (slots (P.message a).groupID n)))
  once : ∀ (i j : Nat) a op op', ops[i]? = some op → ops[j]? = some op' →
    Submits (P.message a) op → Submits (P.message a) op' → i = j
  all : ∀ a, (∀ c, ¬ P.Needs a c) → ∃ op ∈ ops, Submits (P.message a) op
  apart : ∀ q g ids, ops[0]? = some (.createGroup q g ids) → ∀ a link rest,
    (P.message a).chain = link :: rest → link.group ≠ [] → stageID (P.message a) ≠ g

theorem steady_congr {n : Nat} {r s : Nat → Bytes} (h : ∀ j < n, r j = s j) :
    steady n r = steady n s := by
  have hall : (∀ j < n, r j = []) ↔ ∀ j < n, s j = [] := by
    constructor
    · exact fun hr j hj => h j hj ▸ hr j hj
    · exact fun hs j hj => (h j hj).trans (hs j hj)
  unfold steady
  by_cases hs : ∀ j < n, s j = []
  · rw [if_pos hs, if_pos (hall.mpr hs)]
  · rw [if_neg hs, if_neg fun hr => hs (hall.mp hr)]
    refine List.map_congr_left fun j hj => ?_
    rw [h j (List.mem_range.mp hj)]

/-- Results gathered in order are what the completion protocol collects. -/
theorem gathered_eq_steady (rs : List Bytes) :
    gathered rs = steady rs.length fun j => rs[j]?.getD [] := by
  have hall : (∀ r ∈ rs, r = []) ↔ ∀ j < rs.length, rs[j]?.getD [] = [] := by
    constructor
    · intro h j hj
      simpa [hj] using h _ (List.getElem_mem hj)
    · intro h r hr
      obtain ⟨j, hj, rfl⟩ := List.mem_iff_getElem.mp hr
      simpa [hj] using h j hj
  unfold gathered steady
  by_cases h : ∀ r ∈ rs, r = []
  · rw [if_pos h, if_pos (hall.mp h)]
  · rw [if_neg h, if_neg fun h' => h (hall.mpr h')]
    refine List.ext_getElem (by simp) fun j h₁ h₂ => ?_
    have hj : j < rs.length := by simpa using h₁
    simp [hj]

/-! ## The plan of a chain is sound -/

namespace ChainStep
variable {f : Handlers} {m : TaskMessage}
variable {a b : ChainStep m}

/-- The result of a stage is that of the task that ends it. -/
theorem resultOf_message (h : a.ends = some i) :
    resultOf f (a.message f) = stageResult f m i := by
  cases a with
  | first =>
    cases h
    rfl
  | link i l hi hg =>
    cases h
    simp only [message, stageResult, hi, if_pos hg]
  | member => cases h
  | callback i l hi hg =>
    cases h
    simp only [message, stageResult, hi, if_neg hg]

theorem ends_inj (ha : a.ends = some i) (hb : b.ends = some i) :
    a = b := by
  cases a with
  | first =>
    cases ha
    cases b with
    | first => rfl
    | link | callback => cases hb
    | member => cases hb
  | link i l hi hg =>
    cases ha
    cases b with
    | first => cases hb
    | link i' l' hi' hg' =>
      cases hb
      cases hi.symm.trans hi'
      rfl
    | member => cases hb
    | callback i' l' hi' hg' =>
      cases hb
      cases hi.symm.trans hi'
      exact absurd hg hg'
  | member => cases ha
  | callback i l hi hg =>
    cases ha
    cases b with
    | first => cases hb
    | link i' l' hi' hg' =>
      cases hb
      cases hi.symm.trans hi'
      exact absurd hg' hg
    | member => cases hb
    | callback i' l' hi' hg' =>
      cases hb
      cases hi.symm.trans hi'
      rfl

/-- A task with successors ends its stage, and the links after it are the rest of the
chain. -/
theorem successor (hm : FirstLink m) {link : ChainLink} (hc : (a.message f).chain = link :: rest) :
    ∃ i, a.ends = some i ∧ m.chain[i]? = some link ∧
      rest = m.chain.drop (i + 1) ∧ (a.message f).chainID = m.chainID ∧
      (a.message f).chainIndex = i ∧ (a.message f).groupID = "" ∧ (a.message f).groupQueue = "" ∧
      (a.message f).groupCallback = none ∧ (a.message f).groupIndex = 0 ∧
      (a.message f).groupSize = 0 ∧ (a.message f).groupMemberID = "" := by
  cases a with
  | first =>
    obtain ⟨hi, hrest⟩ := drop_eq_cons (i := 0) (l := m.chain) hc
    refine ⟨0, rfl, hi, hrest, rfl, ?_⟩
    change m.chainIndex = 0 ∧ m.groupID = "" ∧ m.groupQueue = "" ∧ m.groupCallback = none ∧
      m.groupIndex = 0 ∧ m.groupSize = 0 ∧ m.groupMemberID = ""
    rw [hm.plain]
    exact ⟨rfl, rfl, rfl, rfl, rfl, rfl, rfl⟩
  | link i l =>
    obtain ⟨hi', hrest⟩ := drop_eq_cons hc
    exact ⟨i + 1, rfl, hi', hrest, rfl, rfl, rfl, rfl, rfl, rfl, rfl, rfl⟩
  | member => cases hc
  | callback i l =>
    have hc' : m.chain.drop (i + 1) = link :: rest := hc
    have hne : m.chain.drop (i + 1) ≠ [] := by
      rw [hc']
      exact List.cons_ne_nil _ _
    obtain ⟨hi', hrest⟩ := drop_eq_cons hc'
    exact ⟨i + 1, rfl, hi', hrest, if_pos hne, if_pos hne, rfl, rfl, rfl, rfl, rfl, rfl⟩

theorem clean (hm : FirstLink m) (a : ChainStep m) : (a.message f).result = [] := by
  cases a with
  | first =>
    change m.result = []
    rw [hm.plain]
  | _ => rfl

/-- The next link, as the server builds it from the task that ends the stage before. -/
theorem message_link (hm : FirstLink m) (he : a.ends = some i) (hi : m.chain[i]? = some l)
    (hg : l.group = []) (hc : (a.message f).chain = l :: m.chain.drop (i + 1)) :
    (link i l hi hg).message f =
      nextLink (finished f (a.message f)) l (m.chain.drop (i + 1)) := by
  obtain ⟨i', he', -, -, hid, hidx, hgid, hgq, hcb, hgi, hgs, hgm⟩ := successor hm hc
  cases he.symm.trans he'
  rw [nextLink_finished (clean hm a)]
  simp only [nextLink, hid, hidx, hgid, hgq, hcb, hgi, hgs, hgm, resultOf_message he]
  rfl

theorem message_member (hm : FirstLink m) {j : Nat} (he : a.ends = some i)
    (hi : m.chain[i]? = some l) (hj : l.group[j]? = some gm)
    (hc : (a.message f).chain = l :: m.chain.drop (i + 1)) :
    (member i j l gm hi hj).message f =
      stageMember (finished f (a.message f)) l (m.chain.drop (i + 1)) j gm := by
  obtain ⟨i', he', -, -, hid, hidx, -⟩ := successor hm hc
  cases he.symm.trans he'
  rw [stageMember_finished (clean hm a)]
  simp only [stageMember, stageID, hid, hidx, resultOf_message he]
  rfl

/-- Every stage is ended by a task, from which the next stage is built. -/
theorem exists_ends (hi : m.chain[i]? = some l) :
    ∃ a : ChainStep m, a.ends = some i ∧ (a.message f).chain = l :: m.chain.drop (i + 1) := by
  have hdrop : m.chain.drop i = l :: m.chain.drop (i + 1) := by
    obtain ⟨hlt, rfl⟩ := List.getElem?_eq_some_iff.mp hi
    exact List.drop_eq_getElem_cons hlt
  cases i with
  | zero => exact ⟨.first, rfl, hdrop⟩
  | succ i =>
    obtain ⟨hlt, -⟩ := List.getElem?_eq_some_iff.mp hi
    have hi' : m.chain[i]? = some m.chain[i] := List.getElem?_eq_getElem (by omega)
    by_cases hg : m.chain[i].group = []
    · exact ⟨.link i _ hi' hg, rfl, hdrop⟩
    · exact ⟨.callback i _ hi' hg, rfl, hdrop⟩

theorem needs_iff (ha : a.ends = some i) (c : ChainStep m) :
    c.ends = some i ↔ c = a :=
  ⟨fun hc => ends_inj hc ha, fun hc => hc ▸ ha⟩

def position : ChainStep m → Position
  | first => .link 0
  | link i _ _ _ => .link (i + 1)
  | member i j _ _ _ _ => .stageMember (i + 1) j
  | callback i _ _ _ => .stageCallback (i + 1)

theorem position_inj (h : a.position = b.position) : a = b := by
  cases a with
  | first => cases b with
    | first => rfl
    | _ => cases h
  | link i l hi => cases b with
    | link i' l' hi' hg' =>
      cases h
      cases hi.symm.trans hi'
      rfl
    | _ => cases h
  | member i j l gm hi hj => cases b with
    | member i' j' l' gm' hi' hj' =>
      cases h
      cases hi.symm.trans hi'
      cases hj.symm.trans hj'
      rfl
    | _ => cases h
  | callback i l hi => cases b with
    | callback i' l' hi' hg' =>
      cases h
      cases hi.symm.trans hi'
      rfl
    | _ => cases h

theorem message_id (hm : FirstLink m) (a : ChainStep m) :
    (a.message f).id = a.position.id m.chainID := by
  cases a with
  | first =>
    change m.id = linkID m.chainID 0
    rw [hm.plain]
  | _ => rfl

theorem id_inj (hm : FirstLink m) (h : (a.message f).id = (b.message f).id) : a = b := by
  rw [message_id hm, message_id hm] at h
  have hin : a.position.inChain = b.position.inChain := by cases a <;> cases b <;> rfl
  exact position_inj (Position.id_inj (fun hne => absurd hin hne) h).2

/-- A number that grows along the dependencies. -/
def rank : ChainStep m → Nat
  | first => 0
  | link i _ _ _ => 2 * i + 2
  | member i _ _ _ _ _ => 2 * i + 1
  | callback i _ _ _ => 2 * i + 2

theorem rank_of_ends (h : a.ends = some i) : a.rank = 2 * i := by
  cases a with
  | member => cases h
  | _ =>
    cases h
    rfl

theorem Needs.rank_lt (h : b.Needs a) : a.rank < b.rank := by
  cases b with
  | first => exact h.elim
  | link i | member i =>
    rw [rank_of_ends h]
    simp [rank]
  | callback i =>
    obtain ⟨j, l, gm, hi, hj, rfl⟩ := h
    simp [rank]

/-- The members of stage `i + 1`. -/
def memberAt {i : Nat} {l : ChainLink} (hi : m.chain[i]? = some l) (j : Nat) : ChainStep m :=
  match hj : l.group[j]? with
  | some gm => .member i j l gm hi hj
  | none => .first

theorem memberAt_eq {j : Nat} (hi : m.chain[i]? = some l) (hj : l.group[j]? = some gm) :
    memberAt hi j = .member i j l gm hi hj := by
  unfold memberAt
  split
  · rename_i gm' hj'
    cases hj.symm.trans hj'
    rfl
  · rename_i hj'
    cases hj.symm.trans hj'

/-- The members of a parallel stage report, and its callback gathers their results. -/
theorem gathers (hm : FirstLink m) (hi : m.chain[i]? = some l) (hg : l.group ≠ []) :
    (chainPlan f m).Gathers f (linkID m.chainID (i + 1)) (callbackLink l)
      l.group.length (memberAt hi) (.callback i l hi hg) := by
  have hmem : ∀ j < l.group.length, ∃ gm hj, memberAt hi j = .member i j l gm hi hj := fun j hj =>
    ⟨_, List.getElem?_eq_getElem hj, memberAt_eq hi (List.getElem?_eq_getElem hj)⟩
  -- all members say the same about their group
  have hmsg : ∀ j < l.group.length, ∃ gm, l.group[j]? = some gm ∧
      (memberAt hi j).message f = memberInput m i l (stageResult f m i) j gm := by
    intro j hj
    obtain ⟨gm, hj', heq⟩ := hmem j hj
    exact ⟨gm, hj', by rw [heq]; rfl⟩
  have hpos : 0 < l.group.length := List.length_pos_iff.mpr hg
  obtain ⟨gm₀, -, hmsg₀⟩ := hmsg 0 hpos
  refine ⟨linkID_ne_empty _ _, ⟨hpos, ?_, ?_, ?_, ?_, ?_⟩, ?_, ?_, ?_, ?_, ?_⟩
  iterate 7
    intro j hj
    obtain ⟨gm, -, hmsg⟩ := hmsg j hj
    simp only [chainPlan, hmsg, hmsg₀]
    rfl
  · refine ⟨(groupCallbackMessage ((memberAt hi 0).message f) (callbackLink l)).state, ?_⟩
    have hres : gathered (l.group.mapIdx fun j gm =>
        resultOf f (memberInput m i l (stageResult f m i) j gm)) =
        steady l.group.length fun j => resultOf f ((memberAt hi j).message f) := by
      rw [gathered_eq_steady, List.length_mapIdx]
      refine steady_congr fun j hj => ?_
      obtain ⟨gm, hj', hmsg⟩ := hmsg j hj
      simp [hmsg, hj']
    have hcb : (ChainStep.callback i l hi hg).message f =
        { callbackTask m.chainID (i + 1) l (m.chain.drop (i + 1)) with
          groupResults := steady l.group.length fun j =>
            resultOf f ((memberAt hi j).message f) } := by
      rw [← hres]
      rfl
    simp only [chainPlan, hmsg₀, hcb]
    rfl
  · intro a hid hc
    cases a with
    | first =>
      have hid' : m.groupID = linkID m.chainID (i + 1) := hid
      rw [hm.plain] at hid'
      exact absurd hid'.symm (linkID_ne_empty _ _)
    | link => exact absurd hid.symm (linkID_ne_empty _ _)
    | member i' j l' gm hi' hj =>
      cases (linkID_inj hid).2
      cases hi.symm.trans hi'
      exact ⟨j, (List.getElem?_eq_some_iff.mp hj).1, (memberAt_eq hi hj).symm⟩
    | callback => exact absurd hid.symm (linkID_ne_empty _ _)
  · intro a
    constructor
    · rintro ⟨j, l', gm, hi', hj, rfl⟩
      cases hi.symm.trans hi'
      exact ⟨j, (List.getElem?_eq_some_iff.mp hj).1, (memberAt_eq hi hj).symm⟩
    · rintro ⟨j, hj, rfl⟩
      obtain ⟨gm, hj', heq⟩ := hmem j hj
      exact ⟨j, l, gm, hi, hj', heq⟩

end ChainStep

/-- **The plan of a chain is sound.** -/
theorem chainPlan_sound (f : Handlers) {m : TaskMessage} (hm : FirstLink m) :
    (chainPlan f m).Sound f where
  inj := fun _ _ h => ChainStep.id_inj hm h
  clean := ChainStep.clean hm
  wf := Subrelation.wf ChainStep.Needs.rank_lt (measure ChainStep.rank).wf
  link := by
    intro a link rest hc hg
    obtain ⟨i, he, hi, rfl, -⟩ := ChainStep.successor hm hc
    exact ⟨.link i link hi hg, ChainStep.message_link hm he hi hg hc, ChainStep.needs_iff he⟩
  member := by
    intro a link rest j gm hc hj
    obtain ⟨i, he, hi, rfl, -⟩ := ChainStep.successor hm hc
    exact ⟨.member i j link gm hi hj, ChainStep.message_member hm he hi hj hc,
      ChainStep.needs_iff he⟩
  stage := by
    intro a link rest hc hg
    obtain ⟨i, -, hi, -, hid, hidx, -⟩ := ChainStep.successor hm hc
    have hstage : stageID ((chainPlan f m).message a) = linkID m.chainID (i + 1) := by
      simp only [chainPlan, stageID, hid, hidx]
    rw [hstage]
    exact ⟨_, _, ChainStep.gathers hm hi hg⟩
  group := by
    intro a hne
    cases a with
    | first =>
      have hne' : m.groupID ≠ "" := hne
      rw [hm.plain] at hne'
      exact absurd rfl hne'
    | link => exact absurd rfl hne
    | member i j l gm hi hj =>
      exact ⟨_, _, _, _, ChainStep.gathers hm hi (List.ne_nil_of_mem (List.mem_of_getElem? hj))⟩
    | callback => exact absurd rfl hne
  cases := by
    intro b
    cases b with
    | first => exact Or.inl fun _ h => h
    | link i l hi hg =>
      obtain ⟨a, ha, hc⟩ := ChainStep.exists_ends (f := f) hi
      exact Or.inr (Or.inl ⟨a, l, _, hc, ChainStep.needs_iff ha,
        Or.inl ⟨hg, ChainStep.message_link hm ha hi hg hc⟩⟩)
    | member i j l gm hi hj =>
      obtain ⟨a, ha, hc⟩ := ChainStep.exists_ends (f := f) hi
      exact Or.inr (Or.inl ⟨a, l, _, hc, ChainStep.needs_iff ha,
        Or.inr ⟨j, gm, hj, ChainStep.message_member hm ha hi hj hc⟩⟩)
    | callback i l hi hg => exact Or.inr (Or.inr ⟨_, _, _, _, ChainStep.gathers hm hi hg⟩)

theorem chainPlan_launch (f : Handlers) {m : TaskMessage} (hm : FirstLink m) {op : Op}
    (ho : Submits m op) : (chainPlan f m).Launch f [op] where
  op := by
    intro i o hi
    obtain ⟨hlt, rfl⟩ := List.getElem?_eq_some_iff.mp hi
    obtain rfl : i = 0 := by simpa using hlt
    refine Or.inr ⟨.first, ho, fun _ h => h, fun hne => ?_⟩
    have hne' : m.groupID ≠ "" := hne
    rw [hm.plain] at hne'
    exact absurd rfl hne'
  once := by
    intro i j a o o' hi hj _ _
    obtain ⟨hi, -⟩ := List.getElem?_eq_some_iff.mp hi
    obtain ⟨hj, -⟩ := List.getElem?_eq_some_iff.mp hj
    simp at hi hj
    omega
  all := by
    intro a ha
    cases a with
    | first => exact ⟨op, List.mem_singleton_self op, ho⟩
    | link _ _ hi | member _ _ _ _ hi =>
      obtain ⟨c, hc, -⟩ := ChainStep.exists_ends (f := f) hi
      exact absurd hc (ha c)
    | callback i l hi hg =>
      obtain ⟨gm, hj⟩ : ∃ gm, l.group[0]? = some gm :=
        ⟨_, List.getElem?_eq_getElem (List.length_pos_iff.mpr hg)⟩
      exact absurd ⟨0, l, _, hi, hj, rfl⟩ (ha (.member i 0 l _ hi hj))
  apart := by
    intro q g ids h
    have h' : op = .createGroup q g ids := Option.some.inj h
    rw [h'] at ho
    cases ho

/-! ## The plan of a group is sound -/

variable {a b : GroupStep ms}

namespace GroupStep
variable {f : Handlers} {g : String} {cb : ChainLink}

/-- Task `t` in place `i` of member `j`: what it says about its group, and the links that are
left of those of the first task `m`. -/
structure Belongs (f : Handlers) (g : String) (cb : ChainLink) (ms : List TaskMessage) (j i : Nat)
    (m t : TaskMessage) : Prop extends InMember g cb ms.length j t where
  start : ms[j]? = some m
  le : i ≤ m.chain.length
  chain : t.chain = m.chain.drop i
  clean : t.result = []
  yields : resultOf f t = linkResult f g cb ms.length j m i

theorem exists_belongs (hs : GroupStart g cb ms) {j : Nat} (ha : a.place = some (j, i)) :
    ∃ m, Belongs f g cb ms j i m (a.message f g cb) := by
  cases a with
  | first j m hj =>
    cases ha
    have hm := hs.member j m hj
    refine ⟨m, hm.inMember, hj, Nat.zero_le _, rfl, ?_, rfl⟩
    cases hm <;> rfl
  | link j i m l hj hi =>
    cases ha
    refine ⟨m, ⟨rfl, rfl, rfl, rfl, rfl, rfl, if_neg (memberID_ne_empty g j)⟩, hj,
      (List.getElem?_eq_some_iff.mp hi).1, rfl, rfl, ?_⟩
    simp only [message, linkResult, hi]
  | callback => cases ha

theorem clean (hs : GroupStart g cb ms) (a : GroupStep ms) : (a.message f g cb).result = [] := by
  rcases hp : a.place with _ | ⟨j, i⟩
  · cases a with
    | callback => rfl
    | _ => cases hp
  · obtain ⟨m, hm⟩ := exists_belongs (f := f) hs hp
    exact hm.clean

theorem place_inj {x : Option (Nat × Nat)} (ha : a.place = x) (hb : b.place = x) : a = b := by
  subst hb
  cases a with
  | first j m hj => cases b with
    | first j' m' hj' =>
      cases ha
      cases hj.symm.trans hj'
      rfl
    | _ => cases ha
  | link j i m l hj hi => cases b with
    | link j' i' m' l' hj' hi' =>
      cases ha
      cases hj.symm.trans hj'
      cases hi.symm.trans hi'
      rfl
    | _ => cases ha
  | callback => cases b with
    | callback => rfl
    | _ => cases ha

theorem exists_place {j : Nat} {m : TaskMessage} (hj : ms[j]? = some m) (hi : i ≤ m.chain.length) :
    ∃ a : GroupStep ms, a.place = some (j, i) := by
  cases i with
  | zero => exact ⟨.first j m hj, rfl⟩
  | succ i => exact ⟨.link j i m _ hj (List.getElem?_eq_getElem hi), rfl⟩

theorem needs_iff {x : Nat × Nat} (ha : a.place = some x) (c : GroupStep ms) :
    c.place = some x ↔ c = a :=
  ⟨fun hc => place_inj hc ha, fun hc => hc ▸ ha⟩

/-- A task with successors is a link of a member chain. -/
theorem successor (hs : GroupStart g cb ms) {link : ChainLink}
    (hc : (a.message f g cb).chain = link :: rest) :
    ∃ j i m, a.place = some (j, i) ∧ ms[j]? = some m ∧ m.chain[i]? = some link ∧
      rest = m.chain.drop (i + 1) ∧ link.group = [] ∧
      (a.message f g cb).chainID = memberID g j ∧ (a.message f g cb).chainIndex = i ∧
      (a.message f g cb).groupMemberID = memberID g j := by
  have hfirst : ∀ {j i : Nat} {m}, ms[j]? = some m → m.chain[i]? = some link → link.group = [] ∧
      m.chainID = memberID g j ∧ m.chainIndex = 0 ∧ m.groupMemberID = memberID g j := by
    intro j i m hj hi
    cases hs.member j m hj with
    | flat => cases hi
    | chain kind payload queue maxRetry retention tail ht =>
      exact ⟨(ht link (List.mem_of_getElem? hi)).1, rfl, rfl, rfl⟩
  cases a with
  | first j m hj =>
    obtain ⟨hi, hrest⟩ := drop_eq_cons (i := 0) (l := m.chain) hc
    obtain ⟨hg, hid, hidx, hmem⟩ := hfirst hj hi
    exact ⟨j, 0, m, rfl, hj, hi, hrest, hg, hid, hidx, hmem⟩
  | link j i m l hj =>
    obtain ⟨hi', hrest⟩ := drop_eq_cons (i := i + 1) (l := m.chain) hc
    exact ⟨j, i + 1, m, rfl, hj, hi', hrest, (hfirst hj hi').1, rfl, rfl, rfl⟩
  | callback => cases hc

/-- A member has no parallel stages. -/
theorem group_eq_nil (hs : GroupStart g cb ms) {link : ChainLink}
    (hc : (a.message f g cb).chain = link :: rest) : link.group = [] := by
  obtain ⟨_, _, _, -, -, -, -, hg, -⟩ := successor hs hc
  exact hg

/-- The next link of a member chain, as the server builds it from the link before. -/
theorem message_link (hs : GroupStart g cb ms) {j : Nat} {m : TaskMessage}
    (ha : a.place = some (j, i)) (hj : ms[j]? = some m) (hi : m.chain[i]? = some l)
    (hc : (a.message f g cb).chain = l :: m.chain.drop (i + 1)) :
    (link j i m l hj hi).message f g cb =
      nextLink (finished f (a.message f g cb)) l (m.chain.drop (i + 1)) := by
  obtain ⟨m', hm⟩ := exists_belongs (f := f) hs ha
  cases hj.symm.trans hm.start
  obtain ⟨j', i', m', ha', -, -, -, -, hid, hidx, hmem⟩ := successor hs hc
  cases ha.symm.trans ha'
  rw [nextLink_finished (clean hs a)]
  simp only [nextLink, hid, hidx, hm.groupID, hm.groupQueue, hm.groupCallback, hm.groupIndex,
    hm.groupSize, hmem, hm.yields]
  rfl

/-- The identifier of a task of the group is that of its place. -/
theorem id_eq (hs : GroupStart g cb ms) (a : GroupStep ms) : ∃ p : Position,
    p.inChain = false ∧ p.place = a.place ∧ (a.message f g cb).id = p.id g := by
  cases a with
  | first j m hj =>
    rcases (hs.member j m hj).id with h | h
    · exact ⟨.member j, rfl, rfl, h⟩
    · exact ⟨.memberLink j 0, rfl, rfl, h⟩
  | link j i => exact ⟨.memberLink j (i + 1), rfl, rfl, rfl⟩
  | callback => exact ⟨.callback, rfl, rfl, rfl⟩

theorem id_inj (hs : GroupStart g cb ms) (h : (a.message f g cb).id = (b.message f g cb).id) :
    a = b := by
  obtain ⟨p, hp, hplace, hid⟩ := id_eq (f := f) hs a
  obtain ⟨p', hp', hplace', hid'⟩ := id_eq (f := f) hs b
  rw [hid, hid'] at h
  obtain rfl := (Position.id_inj (fun hne => absurd (hp.trans hp'.symm) hne) h).2
  exact place_inj hplace.symm hplace'.symm

theorem acc_needs (a : GroupStep ms) : Acc (fun a b => Needs b a) a := by
  -- along a member chain, by the place in it
  have hplace : ∀ (i : Nat) (a : GroupStep ms) (j : Nat), a.place = some (j, i) →
      Acc (fun a b => Needs b a) a := by
    intro i
    induction i with
    | zero =>
      intro a j ha
      refine Acc.intro a fun c hc => ?_
      cases a with
      | first => exact hc.elim
      | link | callback => cases ha
    | succ i ih =>
      intro a j ha
      refine Acc.intro a fun c hc => ?_
      cases a with
      | first => exact hc.elim
      | link j' i' =>
        cases ha
        exact ih c j hc
      | callback => cases ha
  rcases hp : a.place with _ | ⟨j, i⟩
  · refine Acc.intro a fun c hc => ?_
    cases a with
    | callback =>
      obtain ⟨j, m, -, hc⟩ := hc
      exact hplace _ c j hc
    | _ => cases hp
  · exact hplace i a j hp

/-- The last links of the members report, and the callback gathers their results. -/
theorem gathers (hs : GroupStart g cb ms) :
    ∃ fin, (groupPlan f g cb ms).Gathers f g cb ms.length fin .callback := by
  have hfin : ∀ j, ∃ a : GroupStep ms, ∀ m, ms[j]? = some m →
      a.place = some (j, m.chain.length) := by
    intro j
    rcases hj : ms[j]? with _ | m
    · exact ⟨.callback, fun m hm => nomatch hm⟩
    · obtain ⟨a, ha⟩ := exists_place hj (Nat.le_refl m.chain.length)
      refine ⟨a, fun m' hm => ?_⟩
      cases hm
      exact ha
  choose fin hfin using hfin
  have hbelongs : ∀ j (hj : j < ms.length),
      Belongs f g cb ms j ms[j].chain.length ms[j] ((fin j).message f g cb) := by
    intro j hj
    have hstart := List.getElem?_eq_getElem hj
    obtain ⟨m, hm⟩ := exists_belongs (f := f) hs (hfin j _ hstart)
    cases hstart.symm.trans hm.start
    exact hm
  have hpos : 0 < ms.length := List.length_pos_iff.mpr hs.nonempty
  -- all members ask for the same callback
  have hcb : ∀ j < ms.length, groupCallbackMessage ((fin j).message f g cb) cb =
      { groupCallbackTask g cb with state := if 0 < cb.delay then .scheduled else .pending } := by
    intro j hj
    simp only [groupCallbackMessage, (hbelongs j hj).groupID, (hbelongs j hj).callbackChain]
    rfl
  refine ⟨fin, hs.named, ⟨hpos, fun j hj => (hbelongs j hj).groupID,
    fun j hj => (hbelongs j hj).slot, fun j hj => (hbelongs j hj).groupIndex,
    fun j hj => (hbelongs j hj).groupSize,
    fun j hj => (hcb j hj).trans (hcb 0 hpos).symm⟩,
    fun j hj => (hbelongs j hj).chain.trans List.drop_length,
    fun j hj => (hbelongs j hj).groupCallback, ?_, ?_, ?_⟩
  · have hres : gathered (ms.mapIdx fun j m => linkResult f g cb ms.length j m m.chain.length) =
        steady ms.length fun j => resultOf f ((fin j).message f g cb) := by
      rw [gathered_eq_steady, List.length_mapIdx]
      refine steady_congr fun j hj => ?_
      simp [hj, (hbelongs j hj).yields]
    have hmsg : (GroupStep.callback : GroupStep ms).message f g cb = { groupCallbackTask g cb with
        groupResults := steady ms.length fun j => resultOf f ((fin j).message f g cb) } := by
      rw [← hres]
      rfl
    refine ⟨if 0 < cb.delay then .scheduled else .pending, ?_⟩
    simp only [groupPlan, hcb 0 hpos, hmsg]
  · intro a hgid hc
    rcases hp : GroupStep.place a with _ | ⟨j, i⟩
    · cases a with
      | callback => exact absurd hgid.symm hs.named
      | _ => cases hp
    · obtain ⟨m, hm⟩ := exists_belongs (f := f) hs hp
      have hnil : m.chain.drop i = [] := hm.chain.symm.trans hc
      obtain rfl : i = m.chain.length := hm.le.antisymm (List.drop_eq_nil_iff.mp hnil)
      exact ⟨j, (List.getElem?_eq_some_iff.mp hm.start).1, place_inj hp (hfin j m hm.start)⟩
  · intro a
    constructor
    · rintro ⟨j, m, hj, ha⟩
      exact ⟨j, (List.getElem?_eq_some_iff.mp hj).1, place_inj ha (hfin j m hj)⟩
    · rintro ⟨j, hj, rfl⟩
      have hstart := List.getElem?_eq_getElem hj
      exact ⟨j, _, hstart, hfin j _ hstart⟩

end GroupStep

/-- **The plan of a group is sound.** -/
theorem groupPlan_sound (f : Handlers) {g : String} {cb : ChainLink} (hs : GroupStart g cb ms) :
    (groupPlan f g cb ms).Sound f where
  inj := fun _ _ h => GroupStep.id_inj hs h
  clean := GroupStep.clean hs
  wf := ⟨GroupStep.acc_needs⟩
  link := by
    intro a link rest hc hg
    obtain ⟨j, i, m, ha, hj, hi, rfl, -⟩ := GroupStep.successor hs hc
    exact ⟨.link j i m link hj hi, GroupStep.message_link hs ha hj hi hc, GroupStep.needs_iff ha⟩
  member := by
    intro a link rest j gm hc hj
    rw [GroupStep.group_eq_nil hs hc] at hj
    cases hj
  stage := by
    intro a link rest hc hg
    exact absurd (GroupStep.group_eq_nil hs hc) hg
  group := by
    intro a hne
    obtain ⟨fin, hfin⟩ := GroupStep.gathers (f := f) hs
    rcases hp : GroupStep.place a with _ | ⟨j, i⟩
    · cases a with
      | callback => exact absurd rfl hne
      | _ => cases hp
    · obtain ⟨m, hm⟩ := GroupStep.exists_belongs (f := f) hs hp
      have hgid : ((groupPlan f g cb ms).message a).groupID = g := hm.groupID
      exact ⟨cb, ms.length, fin, .callback, hgid.symm ▸ hfin⟩
  cases := by
    intro b
    cases b with
    | first => exact Or.inl fun _ h => h
    | link j i m l hj hi =>
      obtain ⟨hlt, -⟩ := List.getElem?_eq_some_iff.mp hi
      obtain ⟨a, ha⟩ := GroupStep.exists_place hj (Nat.le_of_lt hlt)
      have hc : (a.message f g cb).chain = l :: m.chain.drop (i + 1) := by
        obtain ⟨m', hm⟩ := GroupStep.exists_belongs (f := f) hs ha
        cases hj.symm.trans hm.start
        obtain ⟨hlt, rfl⟩ := List.getElem?_eq_some_iff.mp hi
        exact hm.chain.trans (List.drop_eq_getElem_cons hlt)
      exact Or.inr (Or.inl ⟨a, l, _, hc, GroupStep.needs_iff ha,
        Or.inl ⟨GroupStep.group_eq_nil hs hc, GroupStep.message_link hs ha hj hi hc⟩⟩)
    | callback =>
      obtain ⟨fin, hfin⟩ := GroupStep.gathers (f := f) hs
      exact Or.inr (Or.inr ⟨g, cb, ms.length, fin, hfin⟩)

theorem groupPlan_launch (f : Handlers) {g : String} {cb : ChainLink} (hs : GroupStart g cb ms)
    {starts : List Op} (hlen : starts.length = ms.length)
    (hstart : ∀ (j : Nat) m, ms[j]? = some m → ∃ op, starts[j]? = some op ∧ Submits m op) :
    (groupPlan f g cb ms).Launch f (.createGroup cb.queue g (slots g ms.length) :: starts) := by
  obtain ⟨fin, hG⟩ := GroupStep.gathers (f := f) hs
  -- each later request submits the first task of a member
  have hop : ∀ (j : Nat) op, starts[j]? = some op → ∃ m hj, Submits m op ∧
      (groupPlan f g cb ms).message (.first j m hj) = m := by
    intro j op hop
    have hj : j < ms.length := hlen ▸ (List.getElem?_eq_some_iff.mp hop).1
    obtain ⟨op', hop', hm⟩ := hstart j _ (List.getElem?_eq_getElem hj)
    cases hop.symm.trans hop'
    exact ⟨_, List.getElem?_eq_getElem hj, hm, rfl⟩
  have honce : ∀ (i : Nat) a op,
      (Op.createGroup cb.queue g (slots g ms.length) :: starts)[i]? = some op →
      Submits ((groupPlan f g cb ms).message a) op →
      ∃ j, GroupStep.place a = some (j, 0) ∧ i = j + 1 := by
    intro i a op hi hsub
    cases i with
    | zero =>
      cases hi
      cases hsub
    | succ j =>
      obtain ⟨m, hj, hsub', hmsg⟩ := hop j op hi
      have hm : (groupPlan f g cb ms).message a = m := by
        cases hsub with
        | enqueue | schedule =>
          cases hsub'
          rfl
      obtain rfl := GroupStep.id_inj (f := f) hs (a := a) (b := .first j m hj)
        (congrArg TaskMessage.id (hm.trans hmsg.symm))
      exact ⟨j, rfl, rfl⟩
  refine ⟨fun i op hi => ?_, fun i j a op op' hi hj h h' => ?_, fun a ha => ?_, ?_⟩
  · cases i with
    | zero =>
      cases hi
      exact Or.inl ⟨rfl, g, cb, ms.length, fin, .callback, hG, rfl⟩
    | succ j =>
      obtain ⟨m, hj, hsub, hmsg⟩ := hop j op hi
      obtain ⟨m', hm⟩ := GroupStep.exists_belongs (f := f) hs (a := .first j m hj) rfl
      have hgid : ((groupPlan f g cb ms).message (.first j m hj)).groupID = g := hm.groupID
      refine Or.inr ⟨.first j m hj, hmsg.symm ▸ hsub, fun _ h => h,
        fun _ => ⟨Nat.succ_ne_zero j, ?_⟩⟩
      rw [hgid]
      exact ⟨cb, ms.length, fin, .callback, hG, rfl⟩
  · obtain ⟨n, hn, rfl⟩ := honce i a op hi h
    obtain ⟨n', hn', rfl⟩ := honce j a op' hj h'
    cases hn.symm.trans hn'
    rfl
  · cases a with
    | first j m hj =>
      obtain ⟨op, hop, hm⟩ := hstart j m hj
      exact ⟨op, List.mem_cons_of_mem _ (List.mem_of_getElem? hop), hm⟩
    | link j i m l hj hi =>
      obtain ⟨c, hc⟩ := GroupStep.exists_place hj
        (Nat.le_of_lt (List.getElem?_eq_some_iff.mp hi).1)
      exact absurd hc (ha c)
    | callback => exact absurd ((hG.needs _).mpr ⟨0, hG.isGroup.size, rfl⟩) (ha _)
  · intro q g' ids _ a link rest hc hg
    exact absurd (GroupStep.group_eq_nil hs hc) hg

end ChronosGo
