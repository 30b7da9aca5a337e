import ChronosGo.GroupCompletion
import Mathlib.Logic.Relation

/-! # The times to live of a group

A group is two keys, the pending set and the hash of results, and each has a time
to live of its own.  `groupCompleteCmd` renews both, so that a result is not
dropped while other members are still running.  The two ways of creating a group
renew the pending set alone when they find it: `CreateGroup`, whose `EXPIRE`
follows any `SADD`, and `CreateGroupIfAbsent`, called again by a predecessor that
is delivered a second time.

A run here is a sequence of calls on one group, at any times; it keeps the last
non-empty result each member has reported since the pending set was created.  As
long as no pending set is renewed over an older hash (`Lockstep`), every result
reported is in the hash, and the hash does not expire before the pending set.
-/
namespace ChronosGo
namespace GroupExpiry
open Redis Slot

/-- The keys of the queue, the time, and the last non-empty result of each member
that has reported one since the pending set was created. -/
structure State where
  slot : Slot
  now : Int
  recorded : List (Nat × Bytes)

/-- What can happen: the three calls on the group, time that passes, and any other
change to the queue. -/
inductive Call where
  | createGroup (memberIDs : List String)
  | createGroupIfAbsent (memberIDs : List String) (cbID : String)
  | completeGroupMember (r : Report)
  | wait (t : Int)
  | other (s : Slot)

/-- The results recorded once a member has reported. -/
def State.record (st : State) (r : Report) : List (Nat × Bytes) :=
  if r.result = [] then st.recorded else hset st.recorded r.index r.result

variable (gid : String)

/-- One call on the group `gid`.  A pending set that is created starts a new
record. -/
def State.apply (st : State) : Call → State
  | .createGroup memberIDs =>
    { st with
      slot := st.slot.createGroup gid memberIDs st.now
      recorded := if (st.slot.group gid).members = [] then [] else st.recorded }
  | .createGroupIfAbsent memberIDs cbID =>
    let (slot, found) := st.slot.createGroupIfAbsent gid memberIDs cbID st.now
    { st with slot, recorded := if found = .created then [] else st.recorded }
  | .completeGroupMember r =>
    { st with slot := (st.slot.groupComplete r st.now).1, recorded := st.record r }
  | .wait t => { st with slot := st.slot.purge t, now := t }
  | .other s => { st with slot := s }

/-- The calls the code can make: no group is created without members, reports are
for this group, time does not go back, and other requests leave the two keys
alone. -/
def State.Valid (st : State) : Call → Prop
  | .createGroup memberIDs => memberIDs ≠ []
  | .createGroupIfAbsent memberIDs _ => memberIDs ≠ []
  | .completeGroupMember r => r.groupID = gid
  | .wait t => st.now ≤ t
  | .other s => s.group gid = st.slot.group gid ∧ s.groupResult gid = st.slot.groupResult gid

/-- There is no result hash, or it lives at least as long as a pending set renewed
now. -/
def State.Fresh (st : State) : Prop :=
  (st.slot.groupResult gid).fields = [] ∨
    st.now + groupTTL ≤ (st.slot.groupResult gid).expireAt

/-- No pending set is renewed over an older hash. -/
def State.Lockstep (st : State) : Call → Prop
  | .createGroup _ => (st.slot.group gid).members ≠ [] → st.Fresh gid
  | .createGroupIfAbsent memberIDs cbID =>
    (st.slot.createGroupIfAbsent gid memberIDs cbID st.now).2 = .present → st.Fresh gid
  | _ => True

/-- One call that the code can make and that `ok` allows. -/
def Step (ok : State → Call → Prop) (st st' : State) : Prop :=
  ∃ c, st.Valid gid c ∧ ok st c ∧ st' = st.apply gid c

/-- The states a run of such calls reaches. -/
def Reaches (ok : State → Call → Prop) : State → State → Prop :=
  Relation.ReflTransGen (Step gid ok)

/-! ## What a run keeps -/

/-- The results recorded are in the hash, which outlives the pending set. -/
structure State.Safe (st : State) : Prop where
  holds : ∀ j b, hget st.recorded j = some b →
    hget (st.slot.groupResult gid).fields j = some b
  outlives : (st.slot.group gid).expireAt ≤ (st.slot.groupResult gid).expireAt

/-- While the pending set exists, what has been recorded is safe. -/
def State.Inv (st : State) : Prop :=
  (st.slot.group gid).members ≠ [] → st.recorded ≠ [] → st.Safe gid

variable {gid} {st : State}

/-- A member that reports adds its result to the hash as it adds it to the
record. -/
theorem State.hget_record (h : st.recorded ≠ [] → st.Safe gid) {r : Report}
    (hr : r.groupID = gid) {j : Nat} {b : Bytes} (hj : hget (st.record r) j = some b) :
    hget (st.slot.reportedFields r) j = some b := by
  have hrec (hj : hget st.recorded j = some b) :
      hget (st.slot.groupResult r.groupID).fields j = some b := by
    rw [hr]
    refine (h fun hnil => ?_).holds j b hj
    rw [hnil] at hj
    cases hj
  unfold State.record at hj
  unfold reportedFields
  by_cases hres : r.result = []
  · rw [if_pos hres] at hj ⊢
    exact hrec hj
  · rw [if_neg hres] at hj ⊢
    by_cases hij : j = r.index
    · subst hij
      rwa [hget_hset_self] at hj ⊢
    · rw [hget_hset_ne _ _ hij] at hj ⊢
      exact hrec hj

/-- The hash of a group with recorded results exists. -/
theorem State.Safe.fields_ne_nil (h : st.Safe gid) (hrec : st.recorded ≠ []) :
    (st.slot.groupResult gid).fields ≠ [] := by
  intro hnil
  obtain ⟨⟨j, b⟩, rest, hcons⟩ := List.exists_cons_of_ne_nil hrec
  have hj := h.holds j b (by rw [hcons]; simp [hget])
  rw [hnil] at hj
  cases hj

/-- A pending set renewed over a fresh hash does not outlive it. -/
theorem State.Safe.renew (h : st.Safe gid) (hrec : st.recorded ≠ []) (hf : st.Fresh gid) :
    st.now + groupTTL ≤ (st.slot.groupResult gid).expireAt :=
  hf.resolve_left (h.fields_ne_nil hrec)

theorem State.Inv.createGroup (h : st.Inv gid) {memberIDs : List String}
    (hok : st.Lockstep gid (.createGroup memberIDs)) :
    (st.apply gid (.createGroup memberIDs)).Inv gid := by
  intro _ hrec
  by_cases hset : (st.slot.group gid).members = []
  · exact absurd (if_pos hset) hrec
  · have hrec' : (st.apply gid (.createGroup memberIDs)).recorded = st.recorded := if_neg hset
    rw [hrec'] at hrec
    refine ⟨?_, ?_⟩
    · rw [hrec']
      exact (h hset hrec).holds
    · simpa [State.apply, Slot.createGroup] using (h hset hrec).renew hrec (hok hset)

theorem State.Inv.createGroupIfAbsent (h : st.Inv gid) {memberIDs : List String} {cbID : String}
    (hok : st.Lockstep gid (.createGroupIfAbsent memberIDs cbID)) :
    (st.apply gid (.createGroupIfAbsent memberIDs cbID)).Inv gid := by
  intro hset hrec
  rcases hc : st.slot.createGroupIfAbsent gid memberIDs cbID st.now with ⟨slot, found⟩
  simp only [State.Lockstep, State.apply, hc] at hok hset hrec ⊢
  unfold Slot.createGroupIfAbsent at hc
  split at hc
  · obtain ⟨rfl, rfl⟩ := Prod.mk.inj hc
    exact ⟨(h hset hrec).holds, (h hset hrec).outlives⟩
  · split at hc
    · rename_i hne
      obtain ⟨rfl, rfl⟩ := Prod.mk.inj hc
      refine ⟨(h hne hrec).holds, ?_⟩
      simpa using (h hne hrec).renew hrec (hok rfl)
    · obtain ⟨rfl, rfl⟩ := Prod.mk.inj hc
      exact absurd rfl hrec

theorem State.Inv.completeGroupMember (h : st.Inv gid) {r : Report} (hr : r.groupID = gid) :
    (st.apply gid (.completeGroupMember r)).Inv gid := by
  subst hr
  intro hset hrec
  unfold State.apply Slot.groupComplete at hset ⊢
  by_cases hm : (st.slot.group r.groupID).members = []
  · simp [hm] at hset
  · by_cases hrest : srem (st.slot.group r.groupID).members r.member = []
    · -- the last report deletes the pending set
      simp only [hm, hrest, ne_eq, not_true_eq_false, if_false] at hset
      split at hset <;> simp [dropGroup] at hset
    · simp only [hm, hrest, ne_eq, not_false_eq_true, if_false, if_true]
      refine ⟨fun j b hj => ?_, ?_⟩
      · simpa using State.hget_record (h hm) rfl hj
      · simp

theorem State.Inv.wait (h : st.Inv gid) (t : Int) : (st.apply gid (.wait t)).Inv gid := by
  intro hset hrec
  simp only [State.apply, purge] at hset hrec ⊢
  by_cases hexp : (st.slot.group gid).expireAt ≤ t
  · simp [hexp] at hset
  · simp only [hexp, if_false] at hset
    have hs := h hset hrec
    -- the hash expires no earlier than the pending set, which is still there
    have halive : ¬ (st.slot.groupResult gid).expireAt ≤ t :=
      fun hle => hexp (hs.outlives.trans hle)
    refine ⟨?_, ?_⟩
    · simpa [halive] using hs.holds
    · simpa [hexp, halive] using hs.outlives

/-- **Step lemma.** -/
theorem State.Inv.step (h : st.Inv gid) {st' : State}
    (hstep : Step gid (State.Lockstep gid) st st') : st'.Inv gid := by
  obtain ⟨c, hv, hok, rfl⟩ := hstep
  cases c with
  | createGroup memberIDs => exact h.createGroup hok
  | createGroupIfAbsent memberIDs cbID => exact h.createGroupIfAbsent hok
  | completeGroupMember r => exact h.completeGroupMember hv
  | wait t => exact h.wait t
  | other s =>
    obtain ⟨hg, hr⟩ := hv
    intro hset hrec
    have hs := h (hg ▸ hset) hrec
    exact ⟨hr ▸ hs.holds, by simpa only [State.apply, hg, hr] using hs.outlives⟩

/-- **Run lemma.** -/
theorem State.Inv.run {st' : State} (h : st.Inv gid)
    (hr : Reaches gid (State.Lockstep gid) st st') : st'.Inv gid := by
  induction hr with
  | refl => exact h
  | tail _ hstep ih => exact ih.step hstep

/-- The results a callback is given are those recorded, its last member's
included. -/
theorem State.Inv.callback (h : st.Inv gid) {r : Report} (hr : r.groupID = gid)
    (hfires : (st.slot.groupComplete r st.now).2 = true) :
    ∃ cb, (st.slot.groupComplete r st.now).1.body r.callback.id = some cb ∧
      ∀ j < r.size, ∀ b, hget (st.record r) j = some b → cb.groupResults[j]? = some (some b) := by
  subst hr
  unfold Slot.groupComplete at hfires ⊢
  by_cases hm : (st.slot.group r.groupID).members = []
  · simp [hm] at hfires
  · by_cases hrest : srem (st.slot.group r.groupID).members r.member = []
    · simp only [hm, hrest, ne_eq, not_true_eq_false, if_false] at hfires ⊢
      split at hfires
      · cases hfires
      · rename_i habsent
        simp only [habsent]
        refine ⟨withResults r.callback (st.slot.reportedFields r) r.size, ?_, ?_⟩
        · cases r.score <;> simp [placeCallback]
        · intro j hj b hb
          have hfield := State.hget_record (h hm) rfl hb
          have hne : st.slot.reportedFields r ≠ [] := fun hnil => by
            rw [hnil] at hfield
            cases hfield
          have hpos : 0 < r.size := by omega
          simp [withResults, hne, hpos, hj, hfield]
    · simp [hm, hrest] at hfires

/-- **A group's results outlive its pending set.**  In a run that renews no pending
set over an older hash: while the pending set exists and some result has been
reported since it was created, the hash exists, holds the last result of every
such member, and expires no earlier than the pending set; so a callback that is
created carries every result recorded. -/
theorem results_outlive_group {st₀ : State} (hnew : (st₀.slot.group gid).members = [])
    (hr : Reaches gid (State.Lockstep gid) st₀ st) :
    ((st.slot.group gid).members ≠ [] → st.recorded ≠ [] →
      (st.slot.groupResult gid).fields ≠ [] ∧
      (∀ j b, hget st.recorded j = some b →
        hget (st.slot.groupResult gid).fields j = some b) ∧
      (st.slot.group gid).expireAt ≤ (st.slot.groupResult gid).expireAt) ∧
    ∀ r : Report, r.groupID = gid → (st.slot.groupComplete r st.now).2 = true →
      ∃ cb, (st.slot.groupComplete r st.now).1.body r.callback.id = some cb ∧
        ∀ j < r.size, ∀ b, hget (st.record r) j = some b →
          cb.groupResults[j]? = some (some b) := by
  have hinv : st.Inv gid := State.Inv.run (fun hset => absurd hnew hset) hr
  refine ⟨fun hset hrec => ?_, fun r hr hfires => hinv.callback hr hfires⟩
  have hs := hinv hset hrec
  exact ⟨hs.fields_ne_nil hrec, hs.holds, hs.outlives⟩

/-! ## Runs of a stage of two members -/

/-- The report of a member of the stage. -/
def sampleReport (j : Nat) (result : Bytes) : Report where
  groupID := "g"
  member := memberID "g" j
  callback := { id := "g:cb", kind := "total", payload := [], queue := "q", maxRetry := 3 }
  score := none
  result := result
  index := j
  size := 2

/-- The predecessor of the stage succeeds. -/
def sampleCreate : Call := .createGroupIfAbsent [memberID "g" 0, memberID "g" 1] "g:cb"

/-- A list of calls, each of which can be made and is allowed. -/
def Plays (gid : String) (ok : State → Call → Prop) : State → List Call → Prop
  | _, [] => True
  | st, c :: cs => st.Valid gid c ∧ ok st c ∧ Plays gid ok (st.apply gid c) cs

theorem Plays.reaches {ok : State → Call → Prop} {cs : List Call} (h : Plays gid ok st cs) :
    Reaches gid ok st (cs.foldl (State.apply gid) st) := by
  induction cs generalizing st with
  | nil => exact .refl
  | cons c cs ih =>
    obtain ⟨hv, hok, hrest⟩ := h
    exact (ih hrest).head ⟨c, hv, hok, rfl⟩

/-- An empty queue at time zero. -/
def sampleStart : State := ⟨.empty, 0, []⟩

/-- The predecessor is delivered twice before any member reports; the first member
then reports a result. -/
def earlyRedelivery : List Call :=
  [sampleCreate, .wait second, sampleCreate, .completeGroupMember (sampleReport 0 [7])]

theorem early_redelivery_safe :
    let st := earlyRedelivery.foldl (State.apply "g") sampleStart
    hget st.recorded 0 = some [7] ∧
      (st.slot.group "g").expireAt ≤ (st.slot.groupResult "g").expireAt := by
  have hplays : Plays "g" (State.Lockstep "g") sampleStart earlyRedelivery :=
    ⟨List.cons_ne_nil _ _, fun h => absurd h (by decide), (by decide : (0 : Int) ≤ second), trivial,
      List.cons_ne_nil _ _, fun _ => .inl rfl, rfl, trivial, trivial⟩
  exact ⟨rfl, ((results_outlive_group rfl hplays.reaches).1 (by decide) (by decide)).2.2⟩

/-- The predecessor is delivered again after a member has reported, and a week
passes. -/
def lateRedelivery : List Call :=
  [sampleCreate, .wait second, .completeGroupMember (sampleReport 0 [7]), .wait (2 * second),
    sampleCreate, .wait (groupTTL + second)]

/-- A predecessor delivered again after a member has reported renews the pending
set alone.  The hash expires first, and the last member's report creates the
callback without the result recorded. -/
theorem late_redelivery_drops_result :
    let st := lateRedelivery.foldl (State.apply "g") sampleStart
    let fired := st.slot.groupComplete (sampleReport 1 []) st.now
    Reaches "g" (fun _ _ => True) sampleStart st ∧
      (st.slot.group "g").members ≠ [] ∧ hget st.recorded 0 = some [7] ∧
      (st.slot.groupResult "g").fields = [] ∧
      fired.2 = true ∧ (fired.1.body "g:cb").map TaskMessage.groupResults = some [] := by
  have hplays : Plays "g" (fun _ _ => True) sampleStart lateRedelivery :=
    ⟨List.cons_ne_nil _ _, trivial, (by decide : (0 : Int) ≤ second), trivial, rfl, trivial,
      (by decide : second ≤ 2 * second), trivial, List.cons_ne_nil _ _, trivial,
      (by decide : 2 * second ≤ groupTTL + second), trivial, trivial⟩
  exact ⟨hplays.reaches, by decide +kernel⟩

end GroupExpiry
end ChronosGo
