import ChronosGo.Copies
import ChronosGo.Replay

/-! # Who reports to a group

The members of a group report when they succeed; the last report creates the
callback.  A member may be a chain, and then only its final link is to report: every
link carries the group's fields, and a worker tells the final one by its empty
tail.

The tail of a link is emptied when the link has handed over, and so the copy that
is retained looks like a final link.  If it is run again before the callback exists,
the link reports in place of the final one (`early_report`).  This is the only way:
in runs without it, a slot leaves the pending set only after the final link of its
member has succeeded, and the callback is given results of final links
(`final_links_reported`).

`Tally` relates the keys of the group to the log of handler runs.
-/
namespace ChronosGo
open Interleaving Redis

variable {w w' : World} {id q g : String} {m : TaskMessage} {k : Keys} {r : Slot.Report} {op : Op}
  {fin : Nat → String} {j i : Nat} {cb : ChainLink} {ms : List TaskMessage}
  {hs : GroupStart g cb ms}

/-! ## Results in the log -/

namespace World

/-- The task's handler has once returned this result, where `none` is no result or an
empty one. -/
def Gave (w : World) (id : String) : Option Bytes → Prop
  | some b => ∃ m, Record.handled m (.ok (some b)) ∈ w.log ∧ m.id = id
  | none => ∃ m r, Record.handled m (.ok r) ∈ w.log ∧ m.id = id ∧ r.getD [] = []

/-- The results of a group that have been reported. -/
def results (w : World) (q gid : String) : List (Nat × Bytes) := ((w.slot q).groupResult gid).fields

section Gave
variable {r : Option Bytes}

theorem Gave.mono (h : w.Gave id r) (he : w.Extends w') : w'.Gave id r := by
  cases r with
  | some b =>
    obtain ⟨m, hm, hid⟩ := h
    exact ⟨m, he _ hm, hid⟩
  | none =>
    obtain ⟨m, r, hm, hid⟩ := h
    exact ⟨m, r, he _ hm, hid⟩

theorem Gave.succeeded (h : w.Gave id r) : w.Succeeded id := by
  cases r with
  | some b =>
    obtain ⟨m, hm, hid⟩ := h
    exact ⟨m, _, hm, hid⟩
  | none =>
    obtain ⟨m, r, hm, hid, -⟩ := h
    exact ⟨m, r, hm, hid⟩

end Gave

/-- A result as it is reported: an empty one is none. -/
def reported (b : Bytes) : Option Bytes := if b = [] then none else some b

/-- A message that has just succeeded carries a result of its task, if it did so
before. -/
theorem gave_withResult {r : Option Bytes} (hm : m.result = [] ∨ w.Gave m.id (some m.result))
    (hr : Record.handled m (.ok r) ∈ w.log) : w.Gave m.id (reported (withResult m r).result) := by
  unfold reported
  cases r with
  | none =>
    change w.Gave m.id (if m.result = [] then none else some m.result)
    split
    · exact ⟨m, none, hr, rfl, rfl⟩
    · rename_i hne
      exact hm.resolve_left hne
  | some b =>
    change w.Gave m.id (if b = [] then none else some b)
    split
    · rename_i hb
      exact ⟨m, some b, hr, rfl, hb⟩
    · exact ⟨m, hr, rfl⟩

theorem Gave.of_reported {b : Bytes} (h : w.Gave id (reported b)) :
    b = [] ∨ w.Gave id (some b) := by
  by_cases hb : b = []
  · exact Or.inl hb
  · rw [reported, if_neg hb] at h
    exact Or.inr h

/-- The message carries one result of each of the `n` tasks `fin 0, fin 1, ..`. -/
def Collected (fin : Nat → String) (n : Nat) (w : World) (m : TaskMessage) : Prop :=
  (m.groupResults = [] ∨ m.groupResults.length = n) ∧
    ∀ j < n, w.Gave (fin j) m.groupResults[j]?.join

/-! ## The keys of the group -/

/-- The keys of the group and its callback are as they were. -/
structure Unmoved (q gid : String) (w w' : World) : Prop where
  members : w'.members q gid = w.members q gid
  results : w'.results q gid = w.results q gid
  created : w'.Created (callbackID gid) → w.Created (callbackID gid)

section Unmoved
variable {gid : String} {p : Nat}

theorem slot_report :
    (w.perform k p (.groupComplete q r)).slot q = ((w.slot q).groupComplete r w.now).1 :=
  World.slot_perform_self

/-- A report to a group that does not wait changes nothing. -/
theorem unmoved_of_closed (hw : (w.slotAfter k (.groupComplete q r)).WellKept q)
    (hg : r.groupID = gid) (hnil : w.members q gid = []) :
    Unmoved q gid w (w.perform k p (.groupComplete q r)) := by
  subst hg
  have hsame : ((w.slot q).groupComplete r w.now).1 = w.slot q := by
    unfold Slot.groupComplete
    exact congrArg Prod.fst (if_pos hnil)
  have hslot : (w.perform k p (.groupComplete q r)).slot q = w.slot q := by
    rw [slot_report, hsame]
  refine ⟨by rw [members, hslot]; rfl, by rw [results, hslot]; rfl, fun hc => ?_⟩
  rcases created_cases hw hc with hold | ⟨-, hnone, m, -, hm⟩
  · exact hold
  · have hm' : ((w.slot q).groupComplete r w.now).1.body (callbackID r.groupID) = some m := hm
    rw [hsame] at hm'
    cases hnone.symm.trans hm'

/-- A request about something else changes nothing, unless it creates the callback. -/
theorem unmoved_of_not_touches (ht : ¬ op.Touches gid)
    (hc : (w.perform k p op).Created (callbackID gid) → w.Created (callbackID gid)) :
    Unmoved q gid w (w.perform k p op) := by
  by_cases hq : q = op.queue
  · subst hq
    obtain ⟨hset, hres⟩ := Slot.group_run_of_not_touches (k := k) (s := w.slot op.queue) w.now ht
    refine ⟨?_, ?_, hc⟩
    · rw [members, slot_perform_self]
      exact congrArg GroupSet.members hset
    · rw [results, slot_perform_self]
      exact congrArg GroupHash.fields hres
  · refine ⟨?_, ?_, hc⟩
    · rw [members, slot_perform_ne hq]
      rfl
    · rw [results, slot_perform_ne hq]
      rfl

theorem Unmoved.started (h : Unmoved q gid w w') (hs : w'.Started q gid) :
    w.Started q gid := by
  rcases hs with hne | hc
  · exact Or.inl (h.members ▸ hne)
  · exact Or.inr (h.created hc)

theorem unmoved_handled (msg : TaskMessage) (out : Outcome) :
    Unmoved q gid w (w.handled msg out) := by
  refine ⟨rfl, rfl, ?_⟩
  rintro ⟨m, hm, hid⟩
  exact ⟨m, (List.mem_cons.mp hm).resolve_left (by simp), hid⟩

theorem unmoved_give (i n : Nat) (j : Job) : Unmoved q gid w (w.give i n j) := by
  refine ⟨members_give w i n j q gid, ?_, ?_⟩
  · rw [results, slot_give]
    rfl
  · rintro ⟨m, hm, hid⟩
    exact ⟨m, log_give w i n j ▸ hm, hid⟩

theorem unmoved_tick {now : Int} (h : w.KeepsGroups now) : Unmoved q gid w (w.tick now) := by
  refine ⟨h.members q gid, ?_, fun hc => hc⟩
  change (if ((w.slot q).groupResult gid).expireAt ≤ now then ({} : GroupHash)
    else (w.slot q).groupResult gid).fields = ((w.slot q).groupResult gid).fields
  split
  · rename_i hle
    by_contra hne
    have hlt := (h q gid).2 (Ne.symm hne)
    omega
  · rfl

end Unmoved

/-- What the keys of a group of `n` members say about the tasks `fin 0, fin 1, ..`. -/
structure Tally (fin : Nat → String) (n : Nat) (q gid : String) (w : World) : Prop where
  waiting : w.members q gid ≠ [] → ∀ j < n, memberID gid j ∉ w.members q gid →
    w.Gave (fin j) (hget (w.results q gid) j)
  fields : ∀ j b, hget (w.results q gid) j = some b → w.Gave (fin j) (some b)
  closed : w.Created (callbackID gid) → w.members q gid = [] ∧ ∀ j < n, w.Succeeded (fin j)

section Tally
variable {n : Nat} {gid : String}

theorem Tally.left (h : Tally fin n q gid w) (hj : j < n) (hl : w.Left q gid (memberID gid j)) :
    w.Succeeded (fin j) := by
  rcases hl with hc | ⟨hne, hout⟩
  · exact (h.closed hc).2 j hj
  · exact (h.waiting hne j hj hout).succeeded

theorem Tally.mono (h : Tally fin n q gid w) (hu : Unmoved q gid w w') (he : w.Extends w') :
    Tally fin n q gid w' where
  waiting := fun hne j hj hout => by
    rw [hu.members] at hne hout
    rw [hu.results]
    exact (h.waiting hne j hj hout).mono he
  fields := fun j b hb => by
    rw [hu.results] at hb
    exact (h.fields j b hb).mono he
  closed := fun hcb => by
    obtain ⟨hnil, hall⟩ := h.closed (hu.created hcb)
    exact ⟨hu.members.trans hnil, fun j hj => (hall j hj).mono he⟩

/-- A report that says what the task has returned. -/
structure Honest (fin : Nat → String) (w : World) (gid : String) (j : Nat) (r : Slot.Report) :
    Prop where
  group : r.groupID = gid
  member : r.member = memberID gid j
  index : r.index = j
  gave : w.Gave (fin j) (reported r.result)

/-- The results after an honest report. -/
theorem Tally.hget_reportedFields (h : Tally fin n q gid w) (hr : Honest fin w gid j r)
    {b : Bytes} (hb : hget ((w.slot q).reportedFields r) i = some b) : w.Gave (fin i) (some b) := by
  unfold Slot.reportedFields at hb
  rw [hr.group, hr.index] at hb
  have hg := hr.gave
  unfold reported at hg
  split at hb
  · exact h.fields i b hb
  · rename_i hne
    rw [if_neg hne] at hg
    by_cases hi : i = j
    · subst hi
      rw [hget_hset_self] at hb
      rwa [← Option.some.inj hb]
    · rw [hget_hset_ne _ _ hi] at hb
      exact h.fields i b hb

/-- After an honest report, each member that has left has its result in the hash. -/
theorem Tally.gave_reported (h : Tally fin n q gid w) (hr : Honest fin w gid j r)
    (hne : w.members q gid ≠ []) (hi : i < n)
    (hout : memberID gid i ∉ srem (w.members q gid) r.member) :
    w.Gave (fin i) (hget ((w.slot q).reportedFields r) i) := by
  by_cases hij : i = j
  · subst hij
    cases hget' : hget ((w.slot q).reportedFields r) i with
    | some b => exact h.hget_reportedFields hr hget'
    | none =>
      have hg := hr.gave
      unfold Slot.reportedFields at hget'
      unfold reported at hg
      split at hget'
      · rename_i hnil
        rwa [if_pos hnil] at hg
      · rw [hr.index, hget_hset_self] at hget'
        cases hget'
  · have hout' : memberID gid i ∉ w.members q gid := by
      intro hmem
      refine hout (mem_srem.mpr ⟨hmem, fun heq => hij ?_⟩)
      exact memberID_injective gid (heq.trans hr.member)
    have hsame : hget ((w.slot q).reportedFields r) i = hget (w.results q gid) i := by
      unfold Slot.reportedFields
      rw [hr.group, hr.index]
      split
      · rfl
      · exact hget_hset_ne _ _ hij
    rw [hsame]
    exact h.waiting hne i hi hout'

variable {p : Nat}

/-- A group that is created before anything else waits for all its members. -/
theorem Tally.create (h : Tally fin n q gid w) (hn : 0 < n) (hno : ¬ w.Started q gid) :
    Tally fin n q gid (w.perform k p (.createGroup q gid ((List.range n).map (memberID gid)))) ∧
      (w.perform k p (.createGroup q gid ((List.range n).map (memberID gid)))).Started q gid := by
  have hslot : (w.perform k p (.createGroup q gid ((List.range n).map (memberID gid)))).slot q =
      (w.slot q).createGroup gid ((List.range n).map (memberID gid)) w.now :=
    World.slot_perform_self
  have hmem : ∀ j < n, memberID gid j ∈
      (w.perform k p (.createGroup q gid ((List.range n).map (memberID gid)))).members q gid := by
    intro j hj
    rw [members, hslot]
    simp only [Slot.createGroup, Function.update_self, mem_sadd]
    exact Or.inr (List.mem_map.mpr ⟨j, List.mem_range.mpr hj, rfl⟩)
  refine ⟨⟨fun _ j hj hout => absurd (hmem j hj) hout, fun j b hb => ?_, fun hc => ?_⟩,
    Or.inl (List.ne_nil_of_mem (hmem 0 hn))⟩
  · have hres : (w.perform k p (.createGroup q gid ((List.range n).map (memberID gid)))).results q
        gid = w.results q gid := by
      rw [results, hslot]
      rfl
    rw [hres] at hb
    exact (h.fields j b hb).mono (w.extends_perform k p _)
  · have hc' : w.Created (callbackID gid) := hc
    exact absurd (Or.inr hc') hno

/-- A report to a group that waits. -/
theorem Tally.report_waiting (h : Tally fin n q gid w)
    (hw : (w.slotAfter k (.groupComplete q r)).WellKept q) (hr : Honest fin w gid j r)
    (hne : w.members q gid ≠ []) :
    Tally fin n q gid (w.perform k p (.groupComplete q r)) := by
  have he := w.extends_perform k p (.groupComplete q r)
  have hmem : (w.perform k p (.groupComplete q r)).members q gid =
      srem (w.members q gid) r.member := by
    rw [members, slot_report, Slot.members_groupComplete, if_pos hr.group.symm]
    rfl
  have hres : (w.perform k p (.groupComplete q r)).results q gid =
      if srem (w.members q gid) r.member = [] then [] else (w.slot q).reportedFields r := by
    have hf := Slot.fields_groupComplete (w.slot q) r w.now
    rw [hr.group] at hf
    rw [results, slot_report, hf]
    exact if_neg hne
  refine ⟨fun hne' i hi hout => ?_, fun i b hb => ?_, fun hc => ?_⟩
  · rw [hmem] at hne' hout
    rw [hres, if_neg hne']
    exact (h.gave_reported hr hne hi hout).mono he
  · rw [hres] at hb
    split at hb
    · cases hb
    · exact (h.hget_reportedFields hr hb).mono he
  · rcases created_cases hw hc with hold | ⟨-, hnone, m, -, hm⟩
    · exact absurd (h.closed hold).1 hne
    · -- the callback was created by this report, so no member is left
      rcases Slot.body_groupComplete (w.slot q) r w.now hm with hm | ⟨-, hnil, -⟩
      · cases hnone.symm.trans hm
      · rw [hr.group] at hnil
        refine ⟨hmem.trans hnil, fun i hi => ?_⟩
        have hout : memberID gid i ∉ srem (w.members q gid) r.member := by
          rw [members, hnil]
          exact List.not_mem_nil
        exact (h.gave_reported hr hne hi hout).succeeded.mono he

/-- The callback that the last report creates carries the results of all members. -/
theorem Tally.collected (h : Tally fin n q gid w) (hn : 0 < n) (hr : Honest fin w gid j r)
    (hsize : r.size = n) (hcb : r.callback.groupResults = []) (hne : w.members q gid ≠ [])
    (hnil : srem (w.members q gid) r.member = []) :
    Collected fin n w (Slot.withResults r.callback ((w.slot q).reportedFields r) r.size) := by
  have hall : ∀ i < n, w.Gave (fin i) (hget ((w.slot q).reportedFields r) i) := by
    intro i hi
    refine h.gave_reported hr hne hi ?_
    rw [hnil]
    exact List.not_mem_nil
  unfold Slot.withResults Collected
  rw [hsize]
  split
  · refine ⟨Or.inr (by simp), fun i hi => ?_⟩
    simpa [List.getElem?_map, List.getElem?_range hi] using hall i hi
  · rename_i hcond
    have hfields : (w.slot q).reportedFields r = [] := by
      by_contra hf
      exact hcond ⟨hf, hn⟩
    refine ⟨Or.inl hcb, fun i hi => ?_⟩
    rw [hcb]
    have hi' := hall i hi
    rwa [hfields] at hi'

end Tally

end World

/-! ## Runs around a group -/

/-- A handler that was given a message of the group `g` without successors does not
succeed, unless the task is the final link of its member or the callback exists. -/
def FinalOnly (g : String) (fin : Nat → String) (w : World) (m : TaskMessage) (out : Outcome) :
    Prop :=
  ∀ r, out = .ok r → m.groupID = g → m.chain = [] →
    m.id = fin m.groupIndex ∨ w.Created (callbackID g)

/-- Runs around the group `g`.  Workers, recovery, the janitor, re-runs and deletions are
unrestricted, and so are other tasks and workflows; every request may fail before or
after its effect, and every process may stop at any command.  Groups do not expire. -/
def aroundGroup (g : String) (handler : World → TaskMessage → Outcome → Prop) : Regime where
  spawn := fun j => j.External ∧ j.Client (Op.Spares g) fun _ => True
  allow := fun _ _ _ => True
  handler := handler
  tick := World.KeepsGroups
  faults := True
  crash := True

/-- The slots of a group of `n` members. -/
def groupSlots (g : String) (n : Nat) : List String := (List.range n).map (memberID g)

/-- What a process has learned about the group from an answer. -/
def Seen (g q : String) (fin : Nat → String) (w : World) : Event Cmd Cmd.Reply Job → Prop
  | .call (.redis (.createGroup q' gid _)) (some _) => q' = q → gid = g → w.Started q g
  | .call (.handle m) out => Record.handled m out ∈ w.log ∧ FinalOnly g fin w m out
  | _ => True

/-- The message of a task of the group carries a result of the task, if any; that of the
callback carries results of the final links. -/
def Truthful (g : String) (fin : Nat → String) (n : Nat) (w : World) (m : TaskMessage) : Prop :=
  (Under g m.id → m.result = [] ∨ w.Gave m.id (some m.result)) ∧
    (m.id = callbackID g → World.Collected fin n w m)

section Truthful
variable {n : Nat} {m' : TaskMessage}

/-- A new message other than the callback carries no result. -/
theorem Truthful.of_new (hr : m.result = []) (hid : m.id ≠ callbackID g) : Truthful g fin n w m :=
  ⟨fun _ => Or.inl hr, fun h => absurd h hid⟩

theorem Truthful.congr (h : Truthful g fin n w m) (hid : m'.id = m.id)
    (hr : m'.result = m.result) (hg : m'.groupResults = m.groupResults) :
    Truthful g fin n w m' := by
  unfold Truthful World.Collected
  rw [hid, hr, hg]
  exact h

theorem Truthful.mono (h : Truthful g fin n w m) (he : w.Extends w') : Truthful g fin n w' m :=
  ⟨fun hu => (h.1 hu).imp id fun hg => hg.mono he,
    fun hid => ⟨(h.2 hid).1, fun j hj => ((h.2 hid).2 j hj).mono he⟩⟩

/-- A message that has just succeeded. -/
theorem Truthful.withResult (h : Truthful g fin n w m) {r : Option Bytes}
    (hr : Record.handled m (.ok r) ∈ w.log) : Truthful g fin n w (withResult m r) := by
  have hid : (ChronosGo.withResult m r).id = m.id ∧
      (ChronosGo.withResult m r).groupResults = m.groupResults := by
    cases r <;> exact ⟨rfl, rfl⟩
  unfold Truthful World.Collected
  rw [hid.1, hid.2]
  exact ⟨fun hu => (World.gave_withResult (h.1 hu) hr).of_reported, h.2⟩

end Truthful

/-- What holds throughout a run around an accepted group that is enqueued by the first
process. -/
structure Orderly {g : String} {cb : ChainLink} {ms : List TaskMessage} (hs : GroupStart g cb ms)
    (starts : List Op) (fin : Nat → String) (t : Chronicle) : Prop where
  sane : Sane t
  known : Known t
  first : ∃ p, t.procs[0]? = some p ∧
    p.job = .sendAll (.createGroup cb.queue g (groupSlots g ms.length) :: starts) ∧
    (p.hist = [] → ¬ t.world.Started cb.queue g)
  others : ∀ (i : Nat) p, i ≠ 0 → t.procs[i]? = some p → p.job.Client (Op.Spares g) fun _ => True
  copies : Held ((groupWorkflow g cb ms hs).Copy (fun w _ => w.Started cb.queue g)
    fun _ _ => True) t
  truthful : Held (Truthful g fin ms.length) t
  seen : t.Knows (fun _ _ => True) (Seen g cb.queue fin)
  created : ∀ x, Under g x → t.world.Created x → t.world.Started cb.queue g
  tally : World.Tally fin ms.length cb.queue g t.world

/-- The requests that enqueue the first task of each member. -/
def Starts (ms : List TaskMessage) (starts : List Op) : Prop :=
  ∀ op ∈ starts, ∃ (j : Nat) (m : TaskMessage), ms[j]? = some m ∧
    (op = .enqueue m ∨ ∃ at', op = .schedule m at')

theorem InMember.of_static {n : Nat} (h : InMember g cb n j m.static) : InMember g cb n j m :=
  { h with }

theorem InMember.cleared {n : Nat} (h : InMember g cb n j m) : InMember g cb n j m.cleared :=
  { h with }

/-- A foreign message reports to another group. -/
theorem ReportOp.not_touches {c : String} (ho : ReportOp m op) (hf : Foreign c m) :
    ¬ op.Touches c := by
  cases ho with
  | enqueue hl | schedule _ hl => exact (hf.group (Or.inr (by simp [hl]))).ne (Under.refl c)

/-- The reports of a message that is a copy of a member of the group. -/
theorem ReportOp.of_copy {E D : World → TaskMessage → Prop} (ho : ReportOp m op)
    (hm : (groupWorkflow g cb ms hs).Copy E D w m) (ht : op.Touches g) :
    ∃ r, op = .groupComplete cb.queue r ∧ r.groupID = g ∧ Under g m.id ∧
      m.groupID = g ∧ r.member = memberID g m.groupIndex ∧ r.index = m.groupIndex ∧
      r.size = ms.length ∧ r.result = m.result ∧ r.callback.id = callbackID g ∧
      r.callback.result = [] ∧ r.callback.groupResults = [] := by
  rcases hm with hf | ⟨p, hp, -, hm⟩
  · exact absurd ht (ho.not_touches hf)
  · have hcopy : p.id = m.id ∧ p.groupCallback = m.groupCallback ∧
        ∀ {j}, InMember g cb ms.length j p → InMember g cb ms.length j m := by
      rcases hm with rfl | ⟨hm, -⟩
      · exact ⟨rfl, rfl, fun h => h.of_static⟩
      · exact ⟨(congrArg TaskMessage.id hm).symm, (congrArg TaskMessage.groupCallback hm).symm,
          fun h => (hm ▸ h.cleared).of_static⟩
    obtain ⟨hid, hcb, hin⟩ := hcopy
    have hu := hid ▸ GroupTask.under hs hp
    rcases GroupTask.cases hs hp with rfl | ⟨j, m', hj, hp, -⟩
    · cases ho with
      | enqueue hl | schedule _ hl => cases hcb.trans hl
    · have hm := hin hp
      obtain rfl := hm.groupIndex
      cases ho with
      | enqueue hl | schedule _ hl =>
        cases hm.groupCallback.symm.trans hl
        exact ⟨_, rfl, hm.groupID, hu, hm.groupID, hm.slot, rfl, hm.groupSize, rfl,
          congrArg callbackID hm.groupID, rfl, rfl⟩

theorem GroupStart.first_ne_callback (hs : GroupStart g cb ms) (hj : ms[j]? = some m) :
    m.id ≠ callbackID g := by
  rcases (hs.member j m hj).id with h | h <;> rw [h]
  · exact memberID_ne_callbackID _ _ _
  · exact linkID_ne_callbackID _ _ _

namespace Orderly
variable {starts : List Op} {s t : Chronicle} {p : Party}

/-- What the first process sends: the pending set, and when that is there the tasks. -/
theorem first_request (h : Orderly hs starts fin s) (hst : Starts ms starts)
    (hp : s.procs[0]? = some p) (hr : p.job.Request p.hist op) :
    p.hist = [] ∧ op = .createGroup cb.queue g (groupSlots g ms.length) ∨
      s.world.Started cb.queue g ∧ ∃ (j : Nat) (m : TaskMessage), ms[j]? = some m ∧
        (op = .enqueue m ∨ ∃ at', op = .schedule m at') := by
  obtain ⟨p', hp', hjob, -⟩ := h.first
  cases hp.symm.trans hp'
  obtain ⟨job, hist⟩ := p
  obtain rfl : job = _ := hjob
  have hnext := hr.next
  cases hist with
  | nil => exact Or.inl ⟨rfl, (Option.some.inj hnext).symm⟩
  | cons e es =>
    obtain ⟨r, hd⟩ := hr.before 0 _ (by simp) rfl
    refine Or.inr ⟨(h.seen _ (List.mem_of_getElem? hp)).2 _ hd rfl rfl, ?_⟩
    exact hst op (List.mem_of_getElem? hnext)

/-- A message that a worker with a parallel stage ahead works on is foreign. -/
theorem foreign_of_stage (h : Orderly hs starts fin s) {sid : Nat} {hist : Hist}
    (hp : ⟨.work q sid m, hist⟩ ∈ s.procs) {link : ChainLink} {rest : List ChainLink}
    (hc : m.chain = link :: rest) (hg : link.group ≠ []) : Foreign g m := by
  rcases (h.copies.work hp).whole (by simp [hc]) with hf | ⟨ht, -⟩
  · exact hf
  · exact absurd (GroupTask.next hs ht hc).1 hg

/-- **Who touches the group**: the first process, once, and workers that report. -/
theorem touches (h : Orderly hs starts fin s) (hst : Starts ms starts)
    (hp : s.procs[i]? = some p) (hr : p.job.Request p.hist op) (ht : op.Touches g) :
    i = 0 ∧ p.hist = [] ∧ op = .createGroup cb.queue g (groupSlots g ms.length) ∨
      ∃ q sid m r, p.job = .work q sid m ∧ Ran p.hist m (.ok r) ∧ m.chain = [] ∧
        m.groupID ≠ "" ∧ ReportOp (withResult m r) op := by
  have hmem := List.mem_of_getElem? hp
  by_cases hi : i = 0
  · subst hi
    rcases h.first_request hst hp hr with ⟨hnil, ho⟩ | ⟨-, j, m, -, rfl | ⟨at', rfl⟩⟩
    · exact Or.inl ⟨rfl, hnil, ho⟩
    · exact ht.elim
    · exact ht.elim
  · right
    have hj := h.others i p hi hp
    -- a client that spares the group
    have hclient : p.job.Sends → False := by
      intro hsend
      have hsp := hj.request hsend hr
      cases h.sane.traffic hmem hsend hr with
      | createGroup q gid ids => exact Apart.ne hsp (Under.refl g) ht
      | _ => exact ht
    obtain ⟨job, hist⟩ := p
    cases job with
    | send | sendAll => exact (hclient trivial).elim
    | deleteTask | fetch | recover => cases hr <;> exact ht.elim
    | work q sid m =>
      cases hr with
      | link _ _ _ ho | member _ _ _ _ _ ho => cases ho <;> exact ht.elim
      | @stage r link rest ok hc hg =>
        have hf := (h.foreign_of_stage hmem hc hg).chain (by simp [hc])
        have hgid : stageID m = g := by
          cases r <;> exact ht
        exact absurd hgid ((hf.linkID _).ne (Under.refl g))
      | drain hs' hb ho hnot hc hg hid =>
        -- a worker before a parallel stage of another workflow drains only that stage
        obtain ⟨j, hid⟩ := hid
        have hf := (h.foreign_of_stage hmem hc hg).chain (by simp [hc])
        have hstored := (h.sane.loaded hmem hb).1
        rcases h.copies.read hmem hb with hf' | ⟨p, hp', -, hm⟩
        · exact absurd ht (ho.not_touches hf')
        · have hu := (groupWorkflow g cb ms hs).under hp'
          have hpid : p.id = memberID (stageID m) j := by
            rw [← hid, ← hstored]
            rcases hm with hm | ⟨hm, -⟩
            all_goals exact (congrArg TaskMessage.id hm).symm
          exact absurd hpid.symm (((hf.linkID _).memberID j).ne hu)
      | @report r _ ok hc hg ho => exact ⟨q, sid, m, r, rfl, ok, hc, hg, ho⟩
      | pending | drainState | drainGet | retain | delete | discard | archive | retry | release =>
        exact ht.elim

/-- Only a report to the group creates its callback. -/
theorem touches_of_stored (h : Orderly hs starts fin s) (hst : Starts ms starts)
    (hp : s.procs[i]? = some p) (hr : p.job.Request p.hist op) (hm : op.Stored k (callbackID g) m)
    (hno : ¬ s.world.Created (callbackID g)) :
    op.Touches g := by
  have hmem := List.mem_of_getElem? hp
  have hid := hm.target.2
  have hreport : ∀ {member : TaskMessage}, ReportOp member op → op.Touches g := by
    intro member ho
    obtain ⟨link, -, hst⟩ := ho.stored hm
    have hcb : callbackID member.groupID = callbackID g := by
      rw [← hid]
      exact (congrArg TaskMessage.id hst).symm
    cases ho <;> exact callbackID_inj hcb
  -- a task is moved to a sorted set only when it exists
  have hmoved : ∀ q sid msg z score, op ≠ .moveToZSet q sid msg z score := by
    rintro q sid msg z score rfl
    have hk := known_of_move h.sane h.known hmem hr
    exact hno (Option.some.inj hm.target.1 ▸ hk)
  by_cases hi : i = 0
  · subst hi
    rcases h.first_request hst hp hr with ⟨-, rfl⟩ | ⟨-, j, m', hj, rfl | ⟨at', rfl⟩⟩
    · exact hm.absurd rfl
    all_goals exact absurd (Option.some.inj hm.target.1) (hs.first_ne_callback hj)
  · have hj := h.others i p hi hp
    have hclient : p.job.Sends → False := fun hsend =>
      ((hj.request hsend hr).stored (h.sane.traffic hmem hsend hr) hm).id.ne
        (Under.refl g).callbackID hid
    obtain ⟨job, hist⟩ := p
    cases job with
    | send | sendAll => exact (hclient trivial).elim
    | deleteTask | fetch => cases hr <;> exact hm.absurd rfl
    | recover =>
      cases hr with
      | archive | retry => exact absurd rfl (hmoved _ _ _ _ _)
      | claim | load | orphan | release => exact hm.absurd rfl
    | work q sid m =>
      cases hr with
      | link _ _ _ ho =>
        obtain ⟨st, rfl⟩ := ho.stored_eq hm
        exact absurd hid (linkID_ne_callbackID _ _ _)
      | member _ _ _ _ _ ho =>
        obtain ⟨st, rfl⟩ := ho.stored_eq hm
        exact absurd hid (memberID_ne_callbackID _ _ _)
      | drain hs' _ ho | report _ _ _ ho => exact hreport ho
      | retain | archive | retry => exact absurd rfl (hmoved _ _ _ _ _)
      | stage | pending | drainState | drainGet | delete | discard | release => exact hm.absurd rfl

/-- A report to the group while its callback does not exist is an honest one. -/
theorem honest (h : Orderly hs starts fin s) (hmem : p ∈ s.procs) {sid : Nat} {r : Option Bytes}
    (hjob : p.job = .work q sid m) (ok : Ran p.hist m (.ok r)) (hc : m.chain = [])
    (ho : ReportOp (withResult m r) op) (ht : op.Touches g) :
    ∃ r', op = .groupComplete cb.queue r' ∧ r'.groupID = g ∧
      r'.size = ms.length ∧ r'.callback.id = callbackID g ∧ r'.callback.result = [] ∧
      r'.callback.groupResults = [] ∧
      (¬ s.world.Created (callbackID g) →
        World.Honest fin s.world g m.groupIndex r') := by
  obtain ⟨job, hist⟩ := p
  obtain rfl : job = _ := hjob
  have hcopy := (h.copies.work hmem).congr (static_withResult m r)
  obtain ⟨r', rfl, hgid, hu, hg, hslot, hidx, hsize, hres, hcb, hcbr, hcbg⟩ :=
    ho.of_copy hcopy ht
  obtain ⟨hran, hfinal⟩ := (h.seen _ hmem).2 _ ok
  have hm : Under g m.id ∧ m.groupID = g ∧ (withResult m r).groupIndex = m.groupIndex := by
    cases r <;> exact ⟨hu, hg, rfl⟩
  rw [hm.2.2] at hslot hidx
  refine ⟨r', rfl, hgid, hsize, hcb, hcbr, hcbg, fun hno => ⟨hgid, hslot, hidx, ?_⟩⟩
  have hid := (hfinal r rfl hm.2.1 hc).resolve_right hno
  rw [hres, ← hid]
  exact World.gave_withResult ((h.truthful.work hmem).1 hm.1) hran

/-- What a request does to the group. -/
inductive Effect {g : String} {cb : ChainLink} {ms : List TaskMessage} (hs : GroupStart g cb ms)
    (fin : Nat → String) (w w' : World) (i : Nat) (hist : Hist) (op : Op) : Prop where
  | unmoved (h : World.Unmoved cb.queue g w w')
  | create (hi : i = 0) (hh : hist = [])
      (ho : op = .createGroup cb.queue g (groupSlots g ms.length))
  | report {j : Nat} {r : Slot.Report} (ho : op = .groupComplete cb.queue r)
      (hr : World.Honest fin w g j r) (hsize : r.size = ms.length)
      (hcb : r.callback.id = callbackID g) (hres : r.callback.groupResults = [])
      (hne : w.members cb.queue g ≠ [])

/-- **Every request leaves the group alone, creates it, or reports honestly.** -/
theorem effect (h : Orderly hs starts fin s) (hst : Starts ms starts)
    (hp : s.procs[i]? = some p) (hr : p.job.Request p.hist op) :
    Effect hs fin s.world (s.world.perform k i op) i p.hist op := by
  have hmem := List.mem_of_getElem? hp
  have hw : (s.world.slotAfter k op).WellKept op.queue :=
    wellKept_run (h.sane.request hmem hr).local _ (h.sane.wellKept _)
  by_cases ht : op.Touches g
  · rcases h.touches hst hp hr ht with ⟨hi, hh, ho⟩ | ⟨q, sid, m, r, hjob, ok, hc, -, ho⟩
    · exact .create hi hh ho
    · obtain ⟨r', rfl, hgid, hsize, hcb, -, hcbg, hhon⟩ := h.honest hmem hjob ok hc ho ht
      by_cases hne : s.world.members cb.queue g = []
      · exact .unmoved (World.unmoved_of_closed hw hgid hne)
      · have hno : ¬ s.world.Created (callbackID g) := fun hc => hne (h.tally.closed hc).1
        exact .report rfl (hhon hno) hsize hcb hcbg hne
  · refine .unmoved (World.unmoved_of_not_touches ht fun hc => ?_)
    by_contra hno
    rcases World.created_cases hw hc with hold | ⟨-, hnone, m, -, hm⟩
    · exact hno hold
    · rcases body_run hm with hm | hm
      · cases hnone.symm.trans hm
      · exact ht (h.touches_of_stored hst hp hr hm hno)

section Step
variable {handler : World → TaskMessage → Outcome → Prop}

section
variable (h : Orderly hs starts fin s) (hst : Starts ms starts)
  (ha : ((aroundGroup g handler).machine k).Act protocol s t)
include h hst ha

/-- A group that was created goes on waiting until its callback exists. -/
theorem started_act (hk : Known t) (hstart : s.world.Started cb.queue g) :
    t.world.Started cb.queue g := by
  have hn : 0 < ms.length := List.length_pos_iff.mpr hs.nonempty
  refine world_act (P := fun w => w.Started cb.queue g) ha hstart ?_ ?_ ?_ ?_
  · exact fun _ _ msg out _ _ _ => hstart.mono rfl (World.extends_handled _ msg out)
  · intro i p op hp hr _ ht
    cases h.effect (k := k) hst hp hr with
    | unmoved hu => exact hstart.mono hu.members (World.extends_perform _ k i op)
    | create hi hh =>
      obtain ⟨p', hp', -, hno⟩ := h.first
      subst hi
      cases hp.symm.trans hp'
      exact absurd hstart (hno hh)
    | report ho hr' _ hcb =>
      subst ho
      exact World.Started.perform (fun _ => hcb) (ht ▸ hk.slot _) hstart
  · exact fun i n j => hstart.mono (World.members_give _ i n j _ _) (World.extends_give _ i n j)
  · exact fun now hn => hstart.mono (World.KeepsGroups.members hn _ _) (fun _ hr => hr)

/-- The keys of the group go on agreeing with the log. -/
theorem tally_act :
    World.Tally fin ms.length cb.queue g t.world := by
  have hn : 0 < ms.length := List.length_pos_iff.mpr hs.nonempty
  refine world_act (P := World.Tally fin ms.length cb.queue g) ha h.tally ?_ ?_ ?_ ?_
  · exact fun _ _ msg out _ _ _ =>
      h.tally.mono (World.unmoved_handled msg out) (World.extends_handled _ msg out)
  · intro i p op hp hr _ ht
    cases h.effect (k := k) hst hp hr with
    | unmoved hu => exact h.tally.mono hu (World.extends_perform _ k i op)
    | create hi hh ho =>
      obtain ⟨p', hp', -, hno⟩ := h.first
      subst hi ho
      cases hp.symm.trans hp'
      exact (h.tally.create hn (hno hh)).1
    | report ho hr' _ _ _ hne =>
      subst ho
      refine h.tally.report_waiting ?_ hr' hne
      exact wellKept_run (h.sane.request (List.mem_of_getElem? hp) hr).local _ (h.sane.wellKept _)
  · exact fun i n j => h.tally.mono (World.unmoved_give i n j) (World.extends_give _ i n j)
  · exact fun now hn => h.tally.mono (World.unmoved_tick hn) (fun _ hr => hr)

/-- The first process has sent nothing, or the group has started. -/
theorem first_act : ∃ p, t.procs[0]? = some p ∧
      p.job = .sendAll (.createGroup cb.queue g (groupSlots g ms.length) :: starts) ∧
      (p.hist = [] → ¬ t.world.Started cb.queue g) := by
  obtain ⟨p, hp, hjob, hno⟩ := h.first
  obtain ⟨es, ht⟩ := Trace.exists_proc_act ha hp
  refine ⟨_, ht, hjob, fun hnil => ?_⟩
  have hno' := hno (List.append_eq_nil_iff.mp hnil).1
  refine world_act_by (P := fun w => ¬ w.Started cb.queue g) ha hno' ?_ ?_ ?_ ?_
  · exact fun _ _ msg out _ _ _ hs' => hno' ((World.unmoved_handled msg out).started hs')
  · intro i p' op e hp' ht' hr _ _ hs'
    cases h.effect (k := k) hst hp' hr with
    | unmoved hu => exact hno' (hu.started hs')
    | create hi =>
      -- the first process has not moved
      subst hi
      have hhist := congrArg Proc.hist (Option.some.inj (ht.symm.trans ht'))
      have hnil' : p'.hist ++ [e] = [] := hhist.symm.trans hnil
      simp at hnil'
    | report _ _ _ _ _ hne => exact hno' (Or.inl hne)
  · exact fun i n j hs' => hno' ((World.unmoved_give i n j).started hs')
  · exact fun now hn hs' => hno' ((World.unmoved_tick hn).started hs')

end

/-- The other processes spare the group. -/
theorem others_act (h : Orderly hs starts fin s)
    (ha : ((aroundGroup g handler).machine k).Act protocol s t) (i : Nat)
    (q : Party) (hi : i ≠ 0) (hq : t.procs[i]? = some q) :
    q.job.Client (Op.Spares g) fun _ => True := by
  rcases Trace.proc_act ha hq with ⟨p, es, hp, rfl⟩ | ⟨-, -, hj | ⟨p, hp, hf⟩⟩
  · exact h.others i p hi hp
  · exact hj.2
  · obtain ⟨job, hist⟩ := p
    obtain ⟨job', hist'⟩ := q
    cases job with
    | fetch =>
      cases hf
      trivial
    | _ => exact hf.elim

section
variable (h : Orderly hs starts fin s) (hst : Starts ms starts)
include h hst

/-- Messages are foreign or copies of tasks of the group. -/
theorem copies_act (ha : ((aroundGroup g handler).machine k).Act protocol s t) (hk : Known t) :
    Held ((groupWorkflow g cb ms hs).Copy (fun w _ => w.Started cb.queue g) fun _ _ => True) t := by
  have hstart := h.started_act hst ha hk
  refine Workflow.copies_act (g := aroundGroup g handler) (fun j hj => hj.1) h.copies ha
    ⟨fun _ _ => hstart,
    fun _ _ _ => trivial, fun _ _ _ _ hE _ => hE, fun _ _ _ _ _ _ _ _ _ _ _ _ hE _ _ => hE,
    fun _ _ _ hE => hE, fun _ _ _ _ _ _ _ _ _ => trivial⟩ ?_
  intro p op x m hp hsend hr hm
  obtain ⟨i, hi⟩ := List.mem_iff_getElem?.mp hp
  by_cases h0 : i = 0
  · subst h0
    rcases h.first_request hst hi hr with ⟨-, rfl⟩ | ⟨hE, j, m', hj, ho⟩
    · exact hm.absurd rfl
    · have htask : GroupTask g cb ms m' := .first hj
      obtain ⟨st, rfl⟩ := hm.start_eq ho
      have hstatic := GroupTask.static hs htask
      exact Or.inr ⟨m', htask, hstart hE, Or.inl hstatic⟩
  · exact Or.inl (((h.others i p h0 hi).request hsend hr).stored (h.sane.traffic hp hsend hr) hm)

/-- The callback of the group is stored with the results of the final links. -/
theorem truthful_report (hp : s.procs[i]? = some p) (hr : p.job.Request p.hist op)
    (hext : s.world.Extends t.world) {member : TaskMessage} (ho : ReportOp member op) {x : String}
    (hm : (s.world.slotAfter k op).body x = some m) :
    (s.world.slot op.queue).body x = some m ∨ Truthful g fin ms.length t.world m := by
  obtain ⟨q, r, rfl, hid, hres⟩ : ∃ q r, op = .groupComplete q r ∧
      r.callback.id = callbackID r.groupID ∧ r.callback.result = [] := by
    cases ho with
    | enqueue | schedule => exact ⟨_, _, rfl, rfl, rfl⟩
  rcases Slot.body_groupComplete _ r _ hm with hold | ⟨hne, hnil, rfl⟩
  · exact Or.inl hold
  · right
    have hid' : (Slot.withResults r.callback ((s.world.slot q).reportedFields r) r.size).id =
        callbackID r.groupID := by
      rw [Slot.withResults_id, hid]
    have hres' : (Slot.withResults r.callback ((s.world.slot q).reportedFields r) r.size).result =
        [] := by
      rw [Slot.withResults_result, hres]
    refine ⟨fun _ => Or.inl hres', fun hcb => ?_⟩
    have hgid : r.groupID = g := callbackID_inj (hid'.symm.trans hcb)
    obtain ⟨q', sid, m, r', hjob, ok, hc, -, ho'⟩ := (h.touches hst hp hr hgid).resolve_left
      (fun h => nomatch h.2.2)
    obtain ⟨r'', heq, -, hsize, -, -, hcbg, hhon⟩ :=
      h.honest (List.mem_of_getElem? hp) hjob ok hc ho' hgid
    cases heq
    have hne' : s.world.members cb.queue g ≠ [] := hgid ▸ hne
    have hno : ¬ s.world.Created (callbackID g) := fun hc => hne' (h.tally.closed hc).1
    have hcol := h.tally.collected (List.length_pos_iff.mpr hs.nonempty) (hhon hno) hsize hcbg hne'
      (hgid ▸ hnil)
    exact ⟨hcol.1, fun j hj => (hcol.2 j hj).mono hext⟩

/-- **Messages go on carrying results of their own tasks.** -/
theorem truthful_act (ha : ((aroundGroup g handler).machine k).Act protocol s t) :
    Held (Truthful g fin ms.length) t := by
  have hext := extends_act ha
  refine h.truthful.act (g := aroundGroup g handler) (fun j hj => hj.1) ha
    (fun _ hm => hm.mono hext) (fun _ _ hm => hm) ?_
  intro i p op hp hr _ ht x m hm
  have hmem := List.mem_of_getElem? hp
  rcases body_run hm with hold | hm'
  · exact Or.inl hold
  · by_cases hi : i = 0
    · right
      subst hi
      rcases h.first_request hst hp hr with ⟨-, rfl⟩ | ⟨-, j, m', hj, ho⟩
      · exact hm'.absurd rfl
      · have hstatic := GroupTask.static hs (.first hj)
        have hres : m'.result = [] := by
          rw [← hstatic]
          rfl
        have hne := hs.first_ne_callback hj
        obtain ⟨st, rfl⟩ := hm'.start_eq ho
        exact .of_new hres hne
    · have hj := h.others i p hi hp
      have hclient : p.job.Sends → Truthful g fin ms.length t.world m := by
        intro hsend
        have hf := ((hj.request hsend hr).stored (h.sane.traffic hmem hsend hr) hm').id
        exact ⟨fun hu => absurd hu hf.not_under,
          fun hid => absurd hid (hf.ne (Under.refl g).callbackID)⟩
      obtain ⟨job, hist⟩ := p
      cases job with
      | send | sendAll => exact Or.inr (hclient trivial)
      | deleteTask | fetch => cases hr <;> exact hm'.absurd rfl
      | recover =>
        cases hr with
        | archive hc | retry hc =>
          obtain ⟨id, -, hd⟩ := hc
          obtain ⟨st, rfl⟩ := hm'.move_eq
          exact Or.inr (((h.truthful.read hmem hd).mono hext).congr rfl rfl rfl)
        | claim | load | orphan | release => exact hm'.absurd rfl
      | work q sid msg =>
        cases hr with
        | link _ _ _ ho =>
          obtain ⟨st, rfl⟩ := ho.stored_eq hm'
          exact Or.inr (.of_new rfl (linkID_ne_callbackID _ _ _))
        | member _ _ _ _ _ ho =>
          obtain ⟨st, rfl⟩ := ho.stored_eq hm'
          exact Or.inr (.of_new rfl (memberID_ne_callbackID _ _ _))
        | drain hs' hb ho hnot hc hg hid =>
          exact h.truthful_report hst hp (.drain hs' hb ho hnot hc hg hid) hext ho hm
        | report ok hc hg ho hnew =>
          exact h.truthful_report hst hp (.report ok hc hg ho hnew) hext ho hm
        | @retain r now ok hd =>
          obtain ⟨st, rfl⟩ := hm'.move_eq
          have hran := ((h.seen _ hmem).2 _ ok).1
          have hres := ((h.truthful.work hmem).withResult hran).mono hext
          exact Or.inr (hres.congr rfl rfl rfl)
        | archive | retry =>
          obtain ⟨st, rfl⟩ := hm'.move_eq
          exact Or.inr (((h.truthful.work hmem).mono hext).congr rfl rfl rfl)
        | stage | pending | drainState | drainGet | delete | discard | release =>
          exact hm'.absurd rfl

/-- What processes learn about the group is true. -/
theorem seen_act (ha : ((aroundGroup g (FinalOnly g fin)).machine k).Act protocol s t)
    (hk : Known t) :
    t.Knows (fun _ _ => True) (Seen g cb.queue fin) := by
  have hext := extends_act ha
  have hstart := h.started_act hst ha hk
  refine h.seen.act ha (fun _ h => h) (fun e he => ?_) ?_ (fun _ _ _ _ _ => ⟨trivial, trivial⟩)
    fun _ _ => trivial
  · unfold Seen at he ⊢
    split
    · exact fun hq hg => hstart (he hq hg)
    · exact ⟨hext _ he.1, fun r ho hg hc => (he.2 r ho hg hc).imp id fun hcb => hcb.mono hext⟩
    · trivial
  · intro i p c r hp hc he
    unfold Seen
    split
    all_goals first | trivial | (rename_i heq; cases heq)
    · rename_i q gid ids _
      rintro rfl rfl
      obtain ⟨-, ht, -⟩ := Regime.exec_answered he
      rcases h.touches hst hp hc rfl with ⟨rfl, hh, ho⟩ | ⟨_, _, _, _, _, _, _, _, ho⟩
      · cases ho
        obtain ⟨p', hp', -, hno⟩ := h.first
        cases hp.symm.trans hp'
        rw [ht]
        exact (h.tally.create (List.length_pos_iff.mpr hs.nonempty) (hno hh)).2
      · cases ho
    · rename_i m out
      obtain ⟨hfinal, ht⟩ := he
      refine ⟨?_, fun r ho hg hc => (hfinal r ho hg hc).imp id fun hcb => hcb.mono hext⟩
      rw [ht]
      exact List.mem_cons_self

/-- A task of the group is created only when the group has started. -/
theorem created_act (ha : ((aroundGroup g handler).machine k).Act protocol s t) (hk : Known t)
    (hcop : Held ((groupWorkflow g cb ms hs).Copy (fun w _ => w.Started cb.queue g) fun _ _ =>
      True) t) (x : String) (hu : Under g x) (hc : t.world.Created x) :
    t.world.Started cb.queue g := by
  by_cases hold : s.world.Created x
  · exact h.started_act hst ha hk (h.created x hu hold)
  · have hno : ∀ w : World, w.log = s.world.log → ¬ w.Created x := by
      rintro w hlog ⟨m, hm, hid⟩
      exact hold ⟨m, hlog ▸ hm, hid⟩
    refine world_act (P := fun w => w.Created x → t.world.Started cb.queue g) ha
      (fun hc => absurd hc hold) ?_ ?_ ?_ ?_ hc
    · rintro i p msg out - - - ⟨m, hm, hid⟩
      exact absurd ⟨m, (List.mem_cons.mp hm).resolve_left (by simp), hid⟩ hold
    · intro i p op hp hr _ ht hc
      have hw : (s.world.slotAfter k op).WellKept op.queue :=
        wellKept_run (h.sane.request (List.mem_of_getElem? hp) hr).local _ (h.sane.wellKept _)
      rcases World.created_cases hw hc with hc | ⟨-, -, m, -, hm⟩
      · exact absurd hc hold
      · -- what was stored is a copy of a task of the group
        have hid := (hw.keyed x m hm).1
        have hm' : (t.world.slot op.queue).body x = some m := by
          rw [ht, World.slot_perform_self]
          exact hm
        rcases hcop.body _ _ m hm' with hf | ⟨p, -, hE, -⟩
        · exact absurd hid (hf.id.ne hu)
        · exact hE
    · exact fun i n j hc => absurd hc (hno _ (World.log_give ..))
    · exact fun now _ hc => absurd hc (hno _ rfl)

/-- **Every step keeps the invariant**, if only final links succeed on messages without
successors. -/
theorem act (ha : ((aroundGroup g (FinalOnly g fin)).machine k).Act protocol s t) :
    Orderly hs starts fin t := by
  have hg : ∀ j, (aroundGroup g (FinalOnly g fin)).spawn j → j.External := fun j hj => hj.1
  have hsane := sane_act hg h.sane ha
  have hk := known_act hg h.sane h.known ha
  have hcop := h.copies_act hst ha hk
  exact ⟨hsane, hk, h.first_act hst ha, h.others_act ha, hcop, h.truthful_act hst ha,
    h.seen_act hst ha hk, h.created_act hst ha hk hcop, h.tally_act hst ha⟩

end

theorem init (hst : Starts ms starts) : Orderly hs starts fin ⟨World.init,
    [⟨.sendAll (.createGroup cb.queue g (groupSlots g ms.length) :: starts), []⟩]⟩ := by
  have hno : ∀ x, ¬ World.init.Created x := fun x ⟨m, hm, _⟩ => absurd hm List.not_mem_nil
  have hstart : ¬ World.init.Started cb.queue g := by
    rintro (hne | hc)
    · exact hne rfl
    · exact hno _ hc
  -- the only process has a client's job and has seen nothing
  have hproc : ∀ {jobFact : World → Job → Prop} {fact : World → Event Cmd Cmd.Reply Job → Prop},
      jobFact World.init (.sendAll (.createGroup cb.queue g (groupSlots g ms.length) :: starts)) →
      Trace.Knows jobFact fact ⟨World.init,
        [⟨.sendAll (.createGroup cb.queue g (groupSlots g ms.length) :: starts), []⟩]⟩ := by
    intro jobFact fact hj p hp
    obtain rfl := List.mem_singleton.mp hp
    exact ⟨hj, fun _ he => absurd he List.not_mem_nil⟩
  have htraffic : ∀ op ∈ Op.createGroup cb.queue g (groupSlots g ms.length) :: starts,
      Traffic op := by
    intro op ho
    rcases List.mem_cons.mp ho with rfl | ho
    · exact .createGroup ..
    · obtain ⟨j, m, -, rfl | ⟨at', rfl⟩⟩ := hst op ho
      · exact .enqueue m
      · exact .schedule m at'
  refine ⟨⟨Sane.init.wellKept, hproc htraffic⟩,
    ⟨Known.init.slot, ⟨Known.init.held.body, hproc trivial⟩⟩,
    ⟨_, rfl, rfl, fun _ => hstart⟩, ?_, ⟨fun _ _ _ h => (nomatch h), hproc trivial⟩,
    ⟨fun _ _ _ h => (nomatch h), hproc trivial⟩, hproc trivial, fun x _ hc => absurd hc (hno x),
    ⟨fun hne => absurd rfl hne, fun _ _ hb => (nomatch hb), fun hc => absurd hc (hno _)⟩⟩
  intro i p hi hp
  obtain ⟨n, rfl⟩ := Nat.exists_eq_succ_of_ne_zero hi
  cases hp

end Step
end Orderly

/-! ## Groups of a builder -/

/-- The last task of member `j`: a flat member's only task, or the final link of its
chain. -/
def Group.finalID (g : String) (grp : Group) (j : Nat) : String :=
  ((grp.members[j]?).map (GroupMember.lastID g j)).getD ""

/-- **Only final links report.**  Take a group that was accepted and that the first
process enqueues, and a run around it in which a message of the group without
successors succeeds only if it belongs to a final link or the callback exists.  Once a
task of the group has been created, a slot that is not in the pending set belongs to a
member whose final link has succeeded.  When the callback has been created, all final
links have succeeded, and wherever it is stored it carries one of their results each. -/
theorem final_links_reported (k : Keys) {now : Int} {g : String} {grp : Group} {ops : List Op}
    (hg : g ≠ "") (hgrp : grp.enqueue now g = .ok ops) {d : Deployment}
    (hr : ((aroundGroup g (FinalOnly g (grp.finalID g))).machine k).Reaches World.init
      [.sendAll ops] d) :
    ∃ q ids starts, ops = .createGroup q g ids :: starts ∧
      (∀ j < grp.members.length,
        (∀ x, Under g x → d.world.Created x → memberID g j ∉ d.world.members q g →
          d.world.Succeeded (grp.finalID g j)) ∧
        (d.world.Created (callbackID g) → d.world.Succeeded (grp.finalID g j))) ∧
      ∀ q' m, (d.world.slot q').body (callbackID g) = some m →
        World.Collected (grp.finalID g) grp.members.length d.world m := by
  obtain ⟨cb, ms, starts, hs, rfl, hlen, hn, hmem, -⟩ := Group.enqueue_ok hg hgrp
  have hst : Starts ms starts := by
    intro op ho
    obtain ⟨j, hj⟩ := List.mem_iff_getElem?.mp ho
    obtain ⟨hlt, -⟩ := List.getElem?_eq_some_iff.mp hj
    have hm : ms[j]? = some ms[j] := List.getElem?_eq_getElem (hlen ▸ hlt)
    refine ⟨j, _, hm, ?_⟩
    rcases hmem j _ hm with h | ⟨at', h⟩
    · exact Or.inl (Option.some.inj (hj.symm.trans h))
    · exact Or.inr ⟨at', Option.some.inj (hj.symm.trans h)⟩
  obtain ⟨ps, hinv, -⟩ := Discipline.invariant
    (obeys_protocol (aroundGroup g (FinalOnly g (grp.finalID g))) k)
    (I := Orderly hs starts (grp.finalID g)) (Orderly.init hst) (fun s t h ha => h.act hst ha) hr
  refine ⟨cb.queue, _, starts, rfl, fun j hj => ⟨fun x hu hx hout => ?_, fun hc => ?_⟩,
    fun q' m hm => ?_⟩
  · refine hinv.tally.left (hn ▸ hj) ?_
    rcases hinv.created x hu hx with hne | hc
    · exact Or.inr ⟨hne, hout⟩
    · exact Or.inl hc
  · exact (hinv.tally.closed hc).2 j (hn ▸ hj)
  · have hid := ((hinv.sane.wellKept q').keyed _ m hm).1
    exact hn ▸ (hinv.truthful.body q' _ m hm).2 hid

/-- A group whose only member is a chain of two; the first link is retained. -/
def sampleGroup : Group :=
  .mk [.chain (some (.mk [.single ⟨"load", .ok []⟩ [.withRetention second],
    .single ⟨"save", .ok []⟩ []]))] (some (⟨"join", .ok []⟩, []))

/-- The first link of the sample group's member. -/
def loadLink : TaskMessage where
  id := "g:m0:0"
  kind := "load"
  payload := []
  queue := "default"
  maxRetry := 25
  retention := 1
  chain := [⟨"save", [], "default", 25, false, 0, 0, []⟩]
  chainID := "g:m0"
  groupID := "g"
  groupQueue := "default"
  groupCallback := some ⟨"join", [], "default", 25, false, 0, 0, []⟩
  groupSize := 1
  groupMemberID := "g:m0"

/-- The requests that start the sample group. -/
def sampleStart : List Op := [.createGroup "default" "g" ["g:m0"], .enqueue loadLink]

/-- The log has an entry that passes the check. -/
def World.logs (w : World) (f : Record → Bool) : Bool := w.log.any f

theorem World.created_of_logs (h : w.logs (fun | .created m => m.id == id | _ => false) = true) :
    w.Created id := by
  obtain ⟨r, hr, hid⟩ := List.any_eq_true.mp h
  cases r with
  | created m => exact ⟨m, hr, eq_of_beq hid⟩
  | handled => cases hid

/-- Both links are run as they should, and the callback is given the result of the
second one. -/
theorem save_link_reported : ∃ d : Deployment,
    sampleGroup.enqueue 0 "g" = .ok sampleStart ∧
    ((aroundGroup "g" (FinalOnly "g" (sampleGroup.finalID "g"))).machine sampleKeys).Reaches
      World.init [.sendAll sampleStart] d ∧
    d.world.Created (callbackID "g") ∧ d.world.Succeeded (sampleGroup.finalID "g" 0) := by
  have hgrp : sampleGroup.enqueue 0 "g" = .ok sampleStart := rfl
  have hsound : (carefulPlayer sampleKeys
      fun _ m _ => m.chain ≠ [] || m.id == sampleGroup.finalID "g" m.groupIndex).Sound
      ((aroundGroup "g" (FinalOnly "g" (sampleGroup.finalID "g"))).machine sampleKeys) :=
    carefulPlayer_sound (fun _ _ _ => trivial)
      fun w m out h r _ _ hc => Or.inl (by simpa [hc] using h)
  obtain ⟨d, hr, hw⟩ := hsound.exists_reachable
    [Choice.go 0, Choice.go 0, .spawn (.fetch "default" "w" 1 0), Choice.go 1, Choice.go 1,
      Choice.go 1, Choice.go 1, Choice.go 2, Choice.go 2, Choice.go 2, Choice.go 2,
      .spawn (.fetch "default" "w" 1 0), Choice.go 3, Choice.go 3, Choice.go 3, Choice.go 3,
      .step 4 (.ok (some [7])), Choice.go 4]
    ⟨⟨trivial, trivial⟩, ⟨trivial, trivial⟩, trivial⟩
    (((aroundGroup "g" (FinalOnly "g" (sampleGroup.finalID "g"))).machine sampleKeys).boot
      World.init [.sendAll sampleStart])
    (fun w => w.logs fun | .created m => m.id == "g:cb" | _ => false) (by decide +kernel)
  have hcb := World.created_of_logs hw
  obtain ⟨q, ids, starts, -, hall, -⟩ := final_links_reported sampleKeys (by decide) hgrp hr
  exact ⟨d, hgrp, hr, hcb, (hall 0 (by decide)).2 hcb⟩

/-- **A link that is run again reports too early.**  The first link has handed over and
is retained; the inspector runs it again before the second link has run.  The link now
reports, and the callback is created. -/
theorem early_report : ∃ d : Deployment,
    sampleGroup.enqueue 0 "g" = .ok sampleStart ∧
    ((aroundGroup "g" fun _ _ _ => True).machine sampleKeys).Reaches World.init
      [.sendAll sampleStart] d ∧
    d.world.Created (callbackID "g") ∧ memberID "g" 0 ∉ d.world.members "default" "g" ∧
    ¬ d.world.Succeeded (sampleGroup.finalID "g" 0) := by
  have hlets : (aroundGroup "g" fun _ _ _ => True).Lets fun _ _ _ => true :=
    ⟨fun _ _ _ _ => trivial, fun _ _ _ => trivial⟩
  obtain ⟨d, hr, hw⟩ := (player_sound (k := sampleKeys) hlets).exists_reaches
    [Choice.go 0, Choice.go 0, .spawn (.fetch "default" "w" 1 0), Choice.go 1, Choice.go 1,
      Choice.go 1, Choice.go 1, Choice.go 2, Choice.go 2, Choice.go 2, Choice.go 2,
      .spawn (.send (.runTask "default" "g:m0:0")), Choice.go 3,
      .spawn (.fetch "default" "w" 2 1), Choice.go 4, Choice.go 4, Choice.go 4, Choice.go 4,
      Choice.go 4, Choice.go 4, Choice.go 4, Choice.go 6, Choice.go 6]
    ⟨⟨trivial, trivial⟩, ⟨.runTask .., trivial⟩, ⟨trivial, trivial⟩, trivial⟩
    World.init [.sendAll sampleStart]
    (fun w => (w.logs fun | .created m => m.id == "g:cb" | _ => false) &&
      w.members "default" "g" == [] &&
      !w.logs fun | .handled m _ => m.id == "g:m0:1" | _ => false) (by decide +kernel)
  simp only [Bool.and_eq_true, Bool.not_eq_true'] at hw
  obtain ⟨⟨hcb, hnil⟩, hran⟩ := hw
  refine ⟨d, rfl, hr, World.created_of_logs hcb, ?_, ?_⟩
  · rw [eq_of_beq hnil]
    exact List.not_mem_nil
  · rintro ⟨m, r, hm, hid⟩
    have hno := List.any_eq_false.mp hran _ hm
    exact hno (beq_iff_eq.mpr hid)

end ChronosGo
