import ChronosGo.Reference

/-! # The identifiers of workflow tasks

The tasks of a workflow get their identifiers in six places, by formatting indices that
are carried from message to message.  A `Position` is the place of a task in its
workflow, counted in the workflow and not in the messages: a task takes its position
from the task it is built from (`Assigned`).  Its identifier turns out to be that of
its position, and those of different positions are different (`Position.id_inj`), so
each position has one task, however often it is built (`workflow_ids_distinct`).
-/
namespace ChronosGo

variable {root : String} {m m' t : TaskMessage} {rest : List ChainLink} {now : Int} {j : Nat}

/-! ## Positions -/

variable {p : Position}

namespace Position

/-- The position of the next link. -/
def next : Position → Option Position
  | link i | stageCallback i => some (link (i + 1))
  | memberLink j i => some (memberLink j (i + 1))
  | stageMember .. | member _ | callback => none

/-- The stage after a position of a chain. -/
def stage : Position → Option Nat
  | link i | stageCallback i => some (i + 1)
  | stageMember .. | member _ | memberLink .. | callback => none

/-- The callback that a position reports to. -/
def report : Position → Option Position
  | stageMember i _ => some (stageCallback i)
  | member _ | memberLink .. => some callback
  | link _ | stageCallback _ | callback => none

/-- The member of a group that a position belongs to. -/
def memberIndex : Position → Option Nat
  | member j | memberLink j _ => some j
  | link _ | stageMember .. | stageCallback _ | callback => none

end Position

/-! ## The tasks that are built -/

/-- A builder with what it was given. -/
inductive WorkflowBuilder where
  | chain (ch : Chain)
  | group (grp : Group)

/-- The position of a member's first task. -/
def GroupMember.first (j : Nat) : GroupMember → Position
  | single .. => .member j
  | chain _ => .memberLink j 0

/-- A message of a task as it may be stored or held later: in another state, with other
attempts and results, and without its successors if it is retained. -/
def CopyOf (m' m : TaskMessage) : Prop := m'.static = m.static ∨ m'.static = m.static.cleared

/-- **The tasks of a workflow and their positions**: those that `Enqueue` sends, and those
that are built from a message of another one, by `enqueueNext`, `enqueueNextGroup` and
`CompleteGroupMember`. -/
inductive Assigned (now : Int) (root : String) (w : WorkflowBuilder) :
    Position → TaskMessage → Prop where
  | chain {ch : Chain} {op : Op} {m : TaskMessage} (hw : w = .chain ch)
      (h : ch.enqueue now root = .ok op) (hm : Submits m op) : Assigned now root w (.link 0) m
  | group {grp : Group} {ops : List Op} {j : Nat} {gm : GroupMember} {op : Op} {m : TaskMessage}
      (hw : w = .group grp) (h : grp.enqueue now root = .ok ops) (hj : grp.members[j]? = some gm)
      (ho : ops[j + 1]? = some op) (hm : Submits m op) : Assigned now root w (gm.first j) m
  | next {p p' : Position} {m m' : TaskMessage} {link : ChainLink} {rest : List ChainLink}
      (h : Assigned now root w p m) (hm : CopyOf m' m) (hc : m'.chain = link :: rest)
      (hg : link.group = []) (hp : p.next = some p') :
      Assigned now root w p' (nextLink m' link rest)
  | member {p : Position} {m m' : TaskMessage} {link : ChainLink} {rest : List ChainLink}
      {i j : Nat} {gm : GroupMemberLink} (h : Assigned now root w p m) (hm : CopyOf m' m)
      (hc : m'.chain = link :: rest) (hj : link.group[j]? = some gm) (hp : p.stage = some i) :
      Assigned now root w (.stageMember i j) (stageMember m' link rest j gm)
  | callback {p p' : Position} {m m' : TaskMessage} {link : ChainLink}
      (h : Assigned now root w p m) (hm : CopyOf m' m) (hc : m'.groupCallback = some link)
      (hp : p.report = some p') : Assigned now root w p' (groupCallbackMessage m' link)

section Copies
variable {link : ChainLink}

/-- A copy with successors is complete. -/
theorem CopyOf.static_of_cons (h : CopyOf m' m) (hc : m'.chain = link :: rest) :
    m'.static = m.static := by
  rcases h with h | h
  · exact h
  · have hnil : m'.chain = [] := congrArg TaskMessage.chain h
    rw [hc] at hnil
    cases hnil

theorem CopyOf.chain_of_cons (h : CopyOf m' m) (hc : m'.chain = link :: rest) :
    m.static.chain = link :: rest :=
  (congrArg TaskMessage.chain (h.static_of_cons hc)).symm.trans hc

/-- What does not depend on state, attempts, results and successors. -/
theorem CopyOf.congr {α : Type} {f : TaskMessage → α} (h : CopyOf m' m)
    (hs : ∀ m, f m.static = f m) (hc : ∀ m, f m.cleared = f m) : f m' = f m.static := by
  rw [← hs m']
  rcases h with h | h
  · rw [h]
  · rw [h, hc]

theorem CopyOf.reports_to (h : CopyOf m' m) (hc : m'.groupCallback = some link) :
    m.static.groupCallback = some link :=
  (h.congr (f := TaskMessage.groupCallback) (fun _ => rfl) fun _ => rfl).symm.trans hc

end Copies

/-! ## Layouts -/

/-- One task for each position, closed under what is built from them. -/
structure Layout (root : String) where
  At : Position → TaskMessage → Prop
  id : ∀ {p t}, At p t → t.id = p.id root
  unique : ∀ {p t t'}, At p t → At p t' → t = t'
  next : ∀ {p t link rest}, At p t → t.chain = link :: rest → link.group = [] →
    ∃ p', p.next = some p' ∧ At p' (nextLink t link rest).static
  stage : ∀ {p t link rest}, At p t → t.chain = link :: rest → link.group ≠ [] →
    ∃ i, p.stage = some i ∧ stageID t = linkID root i ∧
      ∀ j, (∀ gm, link.group[j]? = some gm →
          At (.stageMember i j) (stageMember t link rest j gm).static) ∧
        ∀ x, At (.stageMember i j) x → j < link.group.length
  callback : ∀ {p t link}, At p t → t.groupCallback = some link →
    ∃ p', p.report = some p' ∧ At p' (groupCallbackMessage t link).static
  stageSlot : ∀ {i j t}, At (.stageMember i j) t →
    t.groupID = linkID root i ∧ memberSlot t = memberID (linkID root i) j
  groupSlot : ∀ {p j t}, At p t → p.memberIndex = some j →
    t.groupID = root ∧ memberSlot t = memberID root j

variable {w : WorkflowBuilder}

namespace Layout

/-- The layout without tasks. -/
def empty : Layout root where
  At _ _ := False
  id h := h.elim
  unique h := h.elim
  next h := h.elim
  stage h := h.elim
  callback h := h.elim
  stageSlot h := h.elim
  groupSlot h := h.elim

/-- **Whatever is built is in the layout**, if the tasks that `Enqueue` sends are. -/
theorem at_of_assigned (L : Layout root)
    (hchain : ∀ ch op m, w = .chain ch → ch.enqueue now root = .ok op → Submits m op →
      L.At (.link 0) m.static)
    (hgroup : ∀ grp ops (j : Nat) gm op m, w = .group grp → grp.enqueue now root = .ok ops →
      grp.members[j]? = some gm → ops[j + 1]? = some op → Submits m op → L.At (gm.first j) m.static)
    (h : Assigned now root w p m) : L.At p m.static := by
  induction h with
  | chain hw h hm => exact hchain _ _ _ hw h hm
  | group hw h hj ho hm => exact hgroup _ _ _ _ _ _ hw h hj ho hm
  | @next p p' m m' link rest _ hm hc hg hp ih =>
    obtain ⟨p'', hp'', hat⟩ := L.next ih (hm.chain_of_cons hc) hg
    obtain rfl := Option.some.inj (hp.symm.trans hp'')
    rwa [static_nextLink (hm.static_of_cons hc)]
  | @member p m m' link rest i j gm _ hm hc hj hp ih =>
    obtain ⟨i', hi', -, hstage⟩ := L.stage ih (hm.chain_of_cons hc)
      (List.ne_nil_of_mem (List.mem_of_getElem? hj))
    obtain rfl := Option.some.inj (hp.symm.trans hi')
    rw [static_stageMember (hm.static_of_cons hc)]
    exact (hstage j).1 gm hj
  | @callback p p' m m' link _ hm hc hp ih =>
    obtain ⟨p'', hp'', hat⟩ := L.callback ih (hm.reports_to hc)
    obtain rfl := Option.some.inj (hp.symm.trans hp'')
    rwa [static_groupCallback link hm]

end Layout

/-! ## Chains -/

namespace ChainAt

/-- A task with successors stands before the stage its index says. -/
theorem stage (hm : FirstLink m) (h : ChainAt m p t) (hc : t.chain ≠ []) :
    p.stage = some (t.chainIndex + 1) ∧ p.next = some (.link (t.chainIndex + 1)) := by
  cases h with
  | first => rw [hm.plain]; exact ⟨rfl, rfl⟩
  | link => exact ⟨rfl, rfl⟩
  | member => exact absurd rfl hc
  | @callback i l hi hg =>
    have hidx : (callbackTask m.chainID (i + 1) l (m.chain.drop (i + 1))).chainIndex = i + 1 :=
      if_pos hc
    rw [hidx]
    exact ⟨rfl, rfl⟩

end ChainAt

/-- **The layout of a chain.** -/
def chainLayout (m : TaskMessage) (hm : FirstLink m) : Layout m.chainID where
  At := ChainAt m
  id := ChainAt.id hm
  unique := ChainAt.unique
  next := by
    intro p t link rest h hc hg
    obtain ⟨i, hi, rfl, hid, hidx, hplain⟩ := h.task.successor hm hc
    refine ⟨.link (i + 1), hidx ▸ (h.stage hm (by simp [hc])).2, ?_⟩
    have hat := ChainAt.link hi hg
    rw [hplain]
    simpa only [nextLink, TaskMessage.static, linkTask, hid, hidx] using hat
  stage := by
    intro p t link rest h hc hg
    obtain ⟨i, hi, rfl, hid, hidx, -⟩ := h.task.successor hm hc
    refine ⟨i + 1, hidx ▸ (h.stage hm (by simp [hc])).1, by rw [stageID, hid, hidx], fun j =>
      ⟨fun gm hj => ?_, fun x hx => ?_⟩⟩
    · have hat := ChainAt.member hi hj
      simpa only [stageMember, stageID, TaskMessage.static, memberTask, hid, hidx] using hat
    · cases hx with
      | member hi' hj =>
        cases hi.symm.trans hi'
        exact (List.getElem?_eq_some_iff.mp hj).1
  callback := by
    intro p t link h hc
    cases h with
    | first =>
      rw [hm.plain] at hc
      cases hc
    | link | callback => cases hc
    | member hi hj =>
      cases hc
      have hat := ChainAt.callback hi (List.ne_nil_of_mem (List.mem_of_getElem? hj))
      exact ⟨_, rfl, hat⟩
  stageSlot := by
    intro i j t h
    cases h with
    | member => exact ⟨rfl, rfl⟩
  groupSlot := by
    intro p j t h hp
    cases h <;> cases hp

/-! ## Groups -/

namespace GroupAt
variable {g : String} {cb : ChainLink} {ms : List TaskMessage}

/-- A task with successors is a link of a member chain, and so is the next one. -/
theorem next (hs : GroupStart g cb ms) (h : GroupAt g cb ms p t) {link : ChainLink}
    (hc : t.chain = link :: rest) :
    ∃ p', p.next = some p' ∧ GroupAt g cb ms p' (nextLink t link rest).static := by
  cases h with
  | @flat j m hj hid =>
    cases hs.member j t hj with
    | flat => cases hc
    | chain => exact absurd hid (linkID_ne_memberID _ _ _ _)
  | @first j m hj hid =>
    cases hs.member j t hj with
    | flat => cases hc
    | chain kind payload queue maxRetry retention tail =>
      obtain ⟨hi, rfl⟩ := drop_eq_cons (i := 0) (l := tail) hc
      have hat : GroupAt g cb ms _ _ := GroupAt.link hj hi
      exact ⟨_, rfl, hat⟩
  | @link i j m l hj hi =>
    obtain ⟨hi', rfl⟩ := drop_eq_cons (i := i + 1) (l := m.chain) hc
    have hat : GroupAt g cb ms _ _ := GroupAt.link hj hi'
    exact ⟨_, rfl, hat⟩
  | callback => cases hc

/-- The member that a task belongs to. -/
theorem memberIndex (hs : GroupStart g cb ms) (h : GroupAt g cb ms p t)
    (hp : p.memberIndex = some j) : t.groupID = g ∧ memberSlot t = memberID g j := by
  cases h with
  | flat hj | first hj =>
    cases hp
    cases hs.member j t hj with
    | flat => exact ⟨rfl, rfl⟩
    | chain => exact ⟨rfl, if_neg (memberID_ne_empty g j)⟩
  | link =>
    cases hp
    exact ⟨rfl, if_neg (memberID_ne_empty g j)⟩
  | callback => cases hp

end GroupAt

/-- **The layout of a group.** -/
def groupLayout (g : String) (cb : ChainLink) (ms : List TaskMessage) (hs : GroupStart g cb ms) :
    Layout g where
  At := GroupAt g cb ms
  id := GroupAt.id
  unique := GroupAt.unique
  next := fun h hc _ => h.next hs hc
  stage := fun h hc hg => absurd (h.task.next hs hc).1 hg
  callback := by
    intro p t link h hc
    have hcallback : (groupCallbackMessage t link).static = groupCallbackTask g cb := by
      rcases h.task.cases hs with rfl | ⟨j, m, -, hin, -⟩
      · cases hc
      · obtain rfl := Option.some.inj (hin.groupCallback.symm.trans hc)
        exact hin.static_callback
    rw [hcallback]
    cases h with
    | flat | first | link => exact ⟨_, rfl, .callback⟩
    | callback => cases hc
  stageSlot := fun h => nomatch h
  groupSlot := fun h hp => h.memberIndex hs hp

/-! ## Every workflow has a layout -/

/-- The identifier of a member's first task. -/
theorem snapshotMember_id {cb : ChainLink} {n : Nat} {gm : GroupMember} {o : EnqueueOptions}
    (h : snapshotMember now root cb n j gm = .ok (m, o)) :
    m.id = (gm.first j).id root := by
  cases gm with
  | single args opts =>
    obtain ⟨o', -, h⟩ := bind_ok (about_ok h)
    obtain ⟨_, -, h⟩ := bind_ok h
    obtain ⟨_, -, h⟩ := bind_ok h
    obtain ⟨payload, -, h⟩ := bind_ok h
    cases h
    rfl
  | chain ch =>
    obtain ⟨⟨m', o'⟩, hs, h⟩ := bind_ok (about_ok h)
    obtain ⟨_, -, h⟩ := bind_ok h
    cases h
    obtain ⟨ch, args, opts, stages, payload, -, -, -, -, -, -, -, -, hm⟩ :=
      Chain.snapshotForMember_parts hs
    rw [hm]
    rfl

theorem Submits.of_enqueue_ok {op : Op} (h : Submits m op)
    (h' : op = .enqueue m' ∨ ∃ t, op = .schedule m' t) : m = m' := by
  rcases h' with rfl | ⟨t, rfl⟩ <;> cases h <;> rfl

/-- **Every task that is built is in one layout.** -/
theorem exists_layout (now : Int) (hroot : root ≠ "") (w : WorkflowBuilder) :
    ∃ L : Layout root, ∀ p m, Assigned now root w p m → L.At p m.static := by
  cases w with
  | chain ch =>
    cases h : ch.enqueue now root with
    | error e =>
      refine ⟨.empty, fun p m => Layout.at_of_assigned _ ?_ ?_⟩
      · rintro _ op m ⟨⟩ h' -
        cases h.symm.trans h'
      · rintro _ _ _ _ _ _ ⟨⟩
    | ok op =>
      obtain ⟨m, hm, rfl, -, hop⟩ := Chain.enqueue_ok h
      refine ⟨chainLayout m hm, fun p x => Layout.at_of_assigned _ ?_ ?_⟩
      · rintro _ op' m' ⟨⟩ h' hm'
        cases h.symm.trans h'
        obtain rfl := hm'.of_enqueue_ok hop
        rw [ChainTask.first.static hm]
        exact .first
      · rintro _ _ _ _ _ _ ⟨⟩
  | group grp =>
    cases h : grp.enqueue now root with
    | error e =>
      refine ⟨.empty, fun p m => Layout.at_of_assigned _ ?_ ?_⟩
      · rintro _ _ _ ⟨⟩
      · rintro _ ops j gm op m ⟨⟩ h' - - -
        cases h.symm.trans h'
    | ok ops =>
      obtain ⟨cb, ms, starts, hs, rfl, hlen, hn, hstart, hsnap⟩ := Group.enqueue_ok hroot h
      refine ⟨groupLayout root cb ms hs, fun p x => Layout.at_of_assigned _ ?_ ?_⟩
      · rintro _ _ _ ⟨⟩
      · rintro _ ops' j gm op m ⟨⟩ h' hj ho hm
        cases h.symm.trans h'
        have hlt : j < ms.length := hn ▸ (List.getElem?_eq_some_iff.mp hj).1
        have hmj : ms[j]? = some ms[j] := List.getElem?_eq_getElem hlt
        have hop : op = .enqueue ms[j] ∨ ∃ t, op = .schedule ms[j] t := by
          rw [List.getElem?_cons_succ] at ho
          rcases hstart j _ hmj with h | ⟨t, h⟩
          · exact Or.inl (Option.some.inj (ho.symm.trans h))
          · exact Or.inr ⟨t, Option.some.inj (ho.symm.trans h)⟩
        obtain rfl := hm.of_enqueue_ok hop
        rw [(GroupTask.first hmj).static hs]
        obtain ⟨o, hsnap⟩ := hsnap j _ gm hmj hj
        cases gm with
        | single args opts => exact .flat hmj (snapshotMember_id hsnap)
        | chain ch => exact .first hmj (snapshotMember_id hsnap)

/-- A member of a group is one of those that were added. -/
theorem Assigned.memberIndex_lt {grp : Group} (h : Assigned now root w p m) (hw : w = .group grp)
    (hp : p.memberIndex = some j) :
    j < grp.members.length := by
  induction h with
  | chain hw' => cases hp
  | @group grp' ops j' gm op m hw' h hj ho hm =>
    cases hw.symm.trans hw'
    have hj' : j' = j := by
      cases gm with
      | single | chain => exact Option.some.inj hp
    exact hj' ▸ (List.getElem?_eq_some_iff.mp hj).1
  | @next p p' m m' link rest _ hm hc hg hnext ih =>
    refine ih ?_
    cases p with
    | memberLink j' i =>
      cases hnext
      exact hp
    | link | stageCallback =>
      cases hnext
      cases hp
    | stageMember | member | callback => cases hnext
  | member => cases hp
  | @callback p p' m m' link _ hm hc hreport ih =>
    cases p with
    | stageMember | member | memberLink =>
      cases hreport
      cases hp
    | link | stageCallback | callback => cases hreport

namespace Layout
variable {L : Layout root}

/-- Everything that is built from the message of a task has a position. -/
theorem assigned_closed (hat : L.At p m.static) (h : Assigned now root w p m) (hm : CopyOf m' m) :
    (∀ link rest, m'.chain = link :: rest → link.group = [] →
      ∃ p', Assigned now root w p' (nextLink m' link rest)) ∧
    (∀ link rest j gm, m'.chain = link :: rest → link.group[j]? = some gm →
      ∃ i, Assigned now root w (.stageMember i j) (stageMember m' link rest j gm)) ∧
    ∀ link, m'.groupCallback = some link →
      ∃ p', Assigned now root w p' (groupCallbackMessage m' link) := by
  refine ⟨fun link rest hc hg => ?_, fun link rest j gm hc hj => ?_, fun link hc => ?_⟩
  · obtain ⟨p', hp', -⟩ := L.next hat (hm.chain_of_cons hc) hg
    exact ⟨p', .next h hm hc hg hp'⟩
  · obtain ⟨i, hi, -⟩ := L.stage hat (hm.chain_of_cons hc)
      (List.ne_nil_of_mem (List.mem_of_getElem? hj))
    exact ⟨i, .member h hm hc hj hi⟩
  · obtain ⟨p', hp', -⟩ := L.callback hat (hm.reports_to hc)
    exact ⟨p', .callback h hm hc hp'⟩

/-- The slot that a copy of a group's member reports. -/
theorem groupSlot_copy (hat : L.At p m.static) (hm : CopyOf m' m) (hp : p.memberIndex = some j) :
    m'.groupID = root ∧ memberSlot m' = memberID root j := by
  rw [hm.congr (f := TaskMessage.groupID) (fun _ => rfl) fun _ => rfl,
    hm.congr (f := memberSlot) (fun _ => rfl) fun _ => rfl]
  exact L.groupSlot hat hp

/-- The slot that a copy of a stage's member reports. -/
theorem stageSlot_copy {i : Nat} (hat : L.At (.stageMember i j) m.static) (hm : CopyOf m' m) :
    m'.groupID = linkID root i ∧ memberSlot m' = memberID (linkID root i) j := by
  rw [hm.congr (f := TaskMessage.groupID) (fun _ => rfl) fun _ => rfl,
    hm.congr (f := memberSlot) (fun _ => rfl) fun _ => rfl]
  exact L.stageSlot hat

/-- The slots that `enqueueNextGroup` registers, and those its members report. -/
theorem stage_registered (hat : L.At p m.static) (hm : CopyOf m' m) {link : ChainLink}
    (hc : m'.chain = link :: rest) (hg : link.group ≠ []) :
    ∃ i, p.stage = some i ∧ ∀ j x x', L.At (.stageMember i j) x.static → CopyOf x' x →
      x'.groupID = stageID m' ∧ (stageMemberIDs m' link)[j]? = some (memberSlot x') := by
  obtain ⟨i, hi, hid, hstage⟩ := L.stage hat (hm.chain_of_cons hc) hg
  have hid' : stageID m' = linkID root i := by
    rw [← hid, ← hm.static_of_cons hc]
    rfl
  refine ⟨i, hi, fun j x x' hx hxm => ?_⟩
  obtain ⟨hgroup, hslot⟩ := stageSlot_copy hx hxm
  refine ⟨hgroup.trans hid'.symm, ?_⟩
  have hj : j < link.group.length := (hstage j).2 _ hx
  rw [stageMemberIDs, List.getElem?_map, List.getElem?_range hj, hid', hslot]
  rfl

end Layout

/-- **The identifiers of workflow tasks never collide.**  Take a workflow under an
identifier without colons.  Everything that is built from the message of a task has a
position, and the identifier of its position.  Tasks at different positions, also of
another workflow, have different identifiers, and what is built for one position is always
the same task.  So if a task is not created because the hash of its identifier is there,
the task in it is the same.  The slot that a member reports is the one that was registered
for it, by `Group.Enqueue` or by `enqueueNextGroup`. -/
theorem workflow_ids_distinct {now : Int} {root : String} {w : WorkflowBuilder} (hroot : root ≠ "")
    (hcolon : ':' ∉ root.toList) :
    (∀ p m m', Assigned now root w p m → CopyOf m' m →
      (∀ link rest, m'.chain = link :: rest → link.group = [] →
        ∃ p', Assigned now root w p' (nextLink m' link rest)) ∧
      (∀ link rest j gm, m'.chain = link :: rest → link.group[j]? = some gm →
        ∃ i, Assigned now root w (.stageMember i j) (stageMember m' link rest j gm)) ∧
      ∀ link, m'.groupCallback = some link →
        ∃ p', Assigned now root w p' (groupCallbackMessage m' link)) ∧
    (∀ p m, Assigned now root w p m → m.id = p.id root) ∧
    (∀ p m, Assigned now root w p m → ∀ now' root' w' p' m', root' ≠ "" → ':' ∉ root'.toList →
      Assigned now' root' w' p' m' → (m.id = m'.id ↔ root = root' ∧ p = p')) ∧
    (∀ p m m', Assigned now root w p m → Assigned now root w p m' → m.static = m'.static) ∧
    (∀ p m, Assigned now root w p m → ∀ b, b.id = m.id → ∀ p' m', Assigned now root w p' m' →
      CopyOf b m' → p' = p ∧ m'.static = m.static) ∧
    (∀ grp ops q g ids, w = .group grp → grp.enqueue now root = .ok ops →
      ops[0]? = some (.createGroup q g ids) → ∀ p j m m', p.memberIndex = some j →
        Assigned now root w p m → CopyOf m' m → m'.groupID = g ∧ ids[j]? = some (memberSlot m')) ∧
    ∀ p m m' link rest, Assigned now root w p m → CopyOf m' m → m'.chain = link :: rest →
      link.group ≠ [] → ∃ i, p.stage = some i ∧ ∀ j x x', Assigned now root w (.stageMember i j) x →
        CopyOf x' x → x'.groupID = stageID m' ∧
          (stageMemberIDs m' link)[j]? = some (memberSlot x') := by
  obtain ⟨L, hL⟩ := exists_layout now hroot w
  have hid : ∀ {p m}, Assigned now root w p m → m.id = p.id root :=
    fun {p m} h => show m.static.id = p.id root from L.id (hL p m h)
  have hpos : ∀ {p p' m m'}, Assigned now root w p m → Assigned now root w p' m' → m.id = m'.id →
      p = p' := fun h h' heq =>
    (Position.id_inj (fun _ => ⟨hcolon, hcolon⟩) ((hid h).symm.trans (heq.trans (hid h')))).2
  have hsame : ∀ {p m m'}, Assigned now root w p m → Assigned now root w p m' →
      m.static = m'.static := fun h h' => L.unique (hL _ _ h) (hL _ _ h')
  refine ⟨fun p m m' h hm => Layout.assigned_closed (hL p m h) h hm, fun p m h => hid h, ?_,
    fun p m m' h h' => hsame h h', ?_, ?_, ?_⟩
  · intro p m h now' root' w' p' m' hroot' hcolon' h'
    obtain ⟨L', hL'⟩ := exists_layout now' hroot' w'
    have hid' : m'.id = p'.id root' := show m'.static.id = p'.id root' from L'.id (hL' p' m' h')
    rw [hid h, hid']
    exact ⟨Position.id_inj fun _ => ⟨hcolon, hcolon'⟩, fun ⟨hr, hp⟩ => by rw [hr, hp]⟩
  · intro p m h b hb p' m' h' hcopy
    have hbid : b.id = m'.id := hcopy.congr (f := TaskMessage.id) (fun _ => rfl) fun _ => rfl
    obtain rfl := hpos h' h (hbid.symm.trans hb)
    exact ⟨rfl, hsame h' h⟩
  · intro grp ops q g ids hw hacc hop p j m m' hp h hm
    obtain ⟨cb, pending, -, -, rfl, -, -⟩ := Group.enqueue_parts hacc
    cases hop
    obtain ⟨hgroup, hslot⟩ := Layout.groupSlot_copy (hL p m h) hm hp
    refine ⟨hgroup, ?_⟩
    rw [List.getElem?_map, List.getElem?_range (h.memberIndex_lt hw hp), hslot]
    rfl
  · intro p m m' link rest h hm hc hg
    obtain ⟨i, hi, hslots⟩ := Layout.stage_registered (hL p m h) hm hc hg
    exact ⟨i, hi, fun j x x' hx hxm => hslots j x x' (hL _ _ hx) hxm⟩

/-- A task, then two in parallel, then another one. -/
def forkedChain : Chain :=
  let args : TaskArgs := ⟨"task", .ok []⟩
  .mk [.single args [], .parallel (some (.mk [.single args [], .single args []] (some (args, [])))),
    .single args []]

/-- The first task of the chain. -/
def forkedStart : TaskMessage where
  id := "c:0"
  kind := "task"
  payload := []
  queue := "default"
  maxRetry := 25
  chain := [⟨"task", [], "default", 25, false, 0, 0,
      [⟨"task", [], "default", 25, 0, 0⟩, ⟨"task", [], "default", 25, 0, 0⟩]⟩,
    ⟨"task", [], "default", 25, false, 0, 0, []⟩]
  chainID := "c"

/-- The first task and the second one of the parallel stage. -/
theorem forked_ids_distinct : ∃ m, Assigned 0 "c" (.chain forkedChain) (.link 0) forkedStart ∧
    Assigned 0 "c" (.chain forkedChain) (.stageMember 1 1) m ∧ m.id = "c:1:m1" ∧
      m.id ≠ forkedStart.id := by
  have hstart : Assigned 0 "c" (.chain forkedChain) (.link 0) forkedStart :=
    .chain rfl rfl .enqueue
  have hmember : Assigned 0 "c" (.chain forkedChain) (.stageMember 1 1) _ :=
    .member hstart (Or.inl rfl) rfl (j := 1) rfl rfl
  obtain ⟨-, hid, hdistinct, -⟩ :=
    @workflow_ids_distinct 0 "c" (.chain forkedChain) (by decide) (by simp)
  refine ⟨_, hstart, hmember, hid _ _ hmember, fun heq => ?_⟩
  have hpos := (hdistinct _ _ hmember 0 "c" _ _ _ (by decide) (by simp) hstart).mp heq
  cases hpos.2

end ChronosGo
