import ChronosGo.Passage
import ChronosGo.Reference
import ChronosGo.WorkflowRuns

/-! # Runs without failures

A workflow is enqueued, and fetch rounds, forwarders and recoverers run in any
number and in any order.  No handler fails, no request fails, no process stops, no
record expires, and the recoverer never finds an entry that it may claim.  In such a
run every task of the workflow is with one process at a time, from the moment it is
created until it is acknowledged, and what has been recorded of the tasks is a run of
the plan.

`Steady` is the invariant.  Most of it is about one task: where it is, who holds its
entry, who works on it, who has created it.  `Deed` lists the requests that occur in
these runs, with what is known when they are sent, and every part of the invariant is
then kept by each of them.
-/
namespace ChronosGo
open Interleaving Redis GroupCompletion

/-! ## The runs -/

/-- The jobs of a server besides the workers: fetch rounds, recoverers, forwarders. -/
def Job.Serves : Job → Prop
  | fetch .. | recover .. => True
  | send op => Traffic op ∧ ∃ q z now max, op = .forward q z now max
  | _ => False

/-- Runs in which nothing goes wrong, when handlers return what `f` says. -/
def undisturbed (f : Handlers) : Regime where
  spawn := Job.Serves
  allow := fun _ op w => match op with
    | .xAutoClaim q consumer minIdle max =>
      (w.slot q).stream.claimed consumer minIdle max w.now = []
    | _ => True
  handler := fun _ m out => out = .ok (f m)
  tick := World.KeepsGroups
  faults := False
  crash := False

/-! ## The invariant -/

section Invariant
variable (P : Plan) (f : Handlers) (ops : List Op) (t : Chronicle)

/-- Process `i` works on the task of step `a`, whose entry is `sid`, and has come so
far. -/
def Works (i : Nat) (a : P.Step) (sid : Nat) (h : Hist) : Prop :=
  t.procs[i]? = some ⟨.work (P.message a).queue sid (P.message a).active, h⟩

/-- The process holds the entry: it works on it, or has fetched it and not passed it
on. -/
def Holds (p : Party) (q : String) (sid : Nat) (id : String) : Prop :=
  match p.job with
  | .work q' sid' m => q' = q ∧ sid' = sid ∧ m.id = id ∧ Unacked p.hist
  | .fetch q' consumer count _ =>
    q' = q ∧ Fetched q' consumer count p.hist sid id ∧ Undispatched p.hist sid
  | _ => False

/-- The entry exists, was delivered, and belongs to process `i`. -/
structure World.Lent (w : World) (i : Nat) (q : String) (sid : Nat) (id : String) : Prop where
  owner : w.owner q sid = some i
  entry : (sid, id) ∈ (w.slot q).stream.entries
  delivered : sid ≤ (w.slot q).stream.lastDelivered

/-- What a process can hear. -/
def Heard (w : World) : Event Cmd Cmd.Reply Job → Prop
  | .call (.redis (.chainEnqueue m)) r => r = some true ∧ w.Created m.id
  | .call (.redis (.chainSchedule m _)) r => r = some true ∧ w.Created m.id
  | .call (.redis (.enqueue m)) r => r ≠ none ∧ w.Created m.id
  | .call (.redis (.schedule m _)) r => r ≠ none ∧ w.Created m.id
  | .call (.redis (.createGroupIfAbsent ..)) r => r = some .created
  | .call (.redis (.groupMembers ..)) _ => False
  | .call (.redis (.xReadGroup ..)) r => ∃ es, r = some es ∧ (es.map Prod.fst).Nodup
  | .call (.redis (.xAutoClaim ..)) r => r = some []
  | .call (.redis _) r => r ≠ none
  | .call (.handle m) out => out = .ok (f m) ∧ Record.handled m out ∈ w.log
  | _ => True

/-- The course of a task: it does not exist, or waits and nobody has acknowledged it, or
its worker has acknowledged it. -/
inductive Phase (a : P.Step) : Prop where
  | unborn (hc : ¬ t.world.Created (P.message a).id)
      (hs : (t.world.slot (P.message a).queue).Absent (P.message a).id)
  | waits (hc : t.world.Created (P.message a).id) (hw : ∀ i sid h, Works P t i a sid h → Unacked h)
      (hs : (t.world.slot (P.message a).queue).Waits (P.message a))
  | settled (hw : ∃ i sid h, Works P t i a sid h ∧ ¬ Unacked h)
      (hs : (t.world.slot (P.message a).queue).Settled (P.message a).id)

/-- Who has created a task: the client, or the worker of a task that it needs. -/
def Origin (b : P.Step) : Prop :=
  (∃ h n op, t.procs[0]? = some ⟨.sendAll ops, h⟩ ∧ n < h.length ∧ ops[n]? = some op ∧
    Submits (P.message b) op) ∨
  ∃ i a sid h op, Works P t i a sid h ∧ P.Needs b a ∧ Tried h op ∧
    op.target = some (P.message b).id

/-- Who has created the pending set of a group: the client, or the worker of the task
before the stage. -/
def Opened (g : String) : Prop :=
  (∃ q ids h, ops[0]? = some (.createGroup q g ids) ∧ t.procs[0]? = some ⟨.sendAll ops, h⟩ ∧
    Did h (.createGroup q g ids) ()) ∨
  ∃ i a sid h link rest st, Works P t i a sid h ∧ (P.message a).chain = link :: rest ∧
    link.group ≠ [] ∧ stageID (P.message a) = g ∧
    Did h (stageOp (finished f (P.message a)) link) st

/-- The worker of the task has reported to the group. -/
def HasReported (a : P.Step) : Prop :=
  ∃ i sid h q r v, Works P t i a sid h ∧ Did h (.groupComplete q r) v

/-- The course of a group: nothing of it exists, or its keys track the reports that were
made, each for a member that has succeeded. -/
inductive GroupPhase (g : String) (link : ChainLink) (n : Nat) (fin : Nat → P.Step) (b : P.Step) :
    Prop where
  | closed (ho : ¬ Opened P f ops t g) (hs : (t.world.slot link.queue).group g = {})
      (hf : (t.world.slot link.queue).groupResult g = {})
      (hb : ¬ t.world.Created (P.message b).id)
      (hm : ∀ a, (P.message a).groupID = g → ¬ t.world.Created (P.message a).id)
  | opened (ho : Opened P f ops t g) {cs : List Call}
      (ht : Tracks g n (P.message b).id cs (t.world.slot link.queue))
      (hc : ∀ c ∈ cs, c.slot < n ∧ c.result = resultOf f (P.message (fin c.slot)) ∧
        P.ran f (fin c.slot) ∈ t.world.log)
      (hr : ∀ j < n, HasReported P t (fin j) → ∃ c ∈ cs, c.slot = j)
      (hb : t.world.Created (P.message b).id ↔ Complete n cs)

/-- What holds throughout an undisturbed run of a plan that the first process has
started. -/
structure Steady : Prop where
  sane : Sane t
  known : Known t
  first : ∃ h, t.procs[0]? = some ⟨.sendAll ops, h⟩
  others : ∀ (i : Nat) p, i ≠ 0 → t.procs[i]? = some p → p.job.Serves ∨
    ∃ a sid h, Works P t i a sid h
  located : ∀ q x, (t.world.slot q).Located x
  heard : t.Knows (fun _ _ => True) (Heard f)
  lent : ∀ (i : Nat) p q sid id, t.procs[i]? = some p → Holds p q sid id → t.world.Lent i q sid id
  loaded : ∀ p ∈ t.procs, ∀ q c n k, p.job = .fetch q c n k → ∀ id r, Did p.hist (.getTask q id) r →
    ∃ a m, r = some m ∧ P.Is a m
  unique : ∀ i j a sid sid' h h', Works P t i a sid h → Works P t j a sid' h' → i = j
  bodies : ∀ q x m, (t.world.slot q).body x = some m →
    ∃ a, (P.message a).id = x ∧ (P.message a).queue = q
  phase : ∀ a, Phase P t a
  origin : ∀ b, t.world.Created (P.message b).id → Origin P ops t b
  handedOver : ∀ i a sid h, Works P t i a sid h → ¬ Unacked h →
    HandedOver h (finished f (P.message a)) ∧ P.ran f a ∈ t.world.log
  handled : ∀ m out, Record.handled m out ∈ t.world.log →
    ∃ i a sid h, Works P t i a sid h ∧ m = (P.message a).active ∧ h ≠ []
  group : ∀ g link n fin b, P.Gathers f g link n fin b → GroupPhase P f ops t g link n fin b
  runs : P.Runs f t.world.log

end Invariant

/-! ## The requests of undisturbed runs -/

/-- The report of a member that has succeeded. -/
abbrev Plan.report (P : Plan) (f : Handlers) (a : P.Step) (link : ChainLink) (score : Option Int) :
    Slot.Report :=
  memberReport { P.message a with result := resultOf f (P.message a) } link score

section Deed
variable (P : Plan) (f : Handlers) (ops : List Op) (s : Chronicle) (i : Nat)
  (p : Party)

/-- The requests that occur, and what is known when they are sent. -/
inductive Deed : Op → Prop where
  | submit {b : P.Step} {op : Op} (hi : i = 0) (hp : ops[p.hist.length]? = some op)
      (ho : Submits (P.message b) op) (hn : ∀ c, ¬ P.Needs b c)
      (hnew : ¬ s.world.Created (P.message b).id)
      (hopen : (P.message b).groupID ≠ "" → Opened P f ops s (P.message b).groupID) : Deed op
  | openGroup {g : String} {link : ChainLink} {n : Nat} {fin : Nat → P.Step} {b : P.Step}
      (hi : i = 0) (hh : p.hist = []) (hG : P.Gathers f g link n fin b)
      (ho : ops[0]? = some (.createGroup link.queue g (slots g n)))
      (hclosed : ¬ Opened P f ops s g) : Deed (.createGroup link.queue g (slots g n))
  | next {a b : P.Step} {sid : Nat} {delay : Int} {op : Op} (hp : Works P s i a sid p.hist)
      (ok : P.ran f a ∈ s.world.log) (hc : (P.message a).chain ≠ [])
      (ho : LinkOp (P.message b) delay op) (hn : ∀ c, P.Needs b c ↔ c = a)
      (hnew : ¬ s.world.Created (P.message b).id)
      (hopen : (P.message b).groupID ≠ "" → Opened P f ops s (P.message b).groupID) : Deed op
  | stage {a : P.Step} {sid : Nat} {link : ChainLink} {rest : List ChainLink}
      {fin : Nat → P.Step} {b : P.Step} (hp : Works P s i a sid p.hist)
      (hc : (P.message a).chain = link :: rest) (hg : link.group ≠ [])
      (hG : P.Gathers f (stageID (P.message a)) (callbackLink link) link.group.length fin b)
      (hclosed : ¬ Opened P f ops s (stageID (P.message a))) :
      Deed (stageOp (finished f (P.message a)) link)
  | report {g : String} {link : ChainLink} {n j : Nat} {fin : Nat → P.Step} {b : P.Step}
      {sid : Nat} {score : Option Int} (hp : Works P s i (fin j) sid p.hist)
      (ok : P.ran f (fin j) ∈ s.world.log) (hj : j < n) (hG : P.Gathers f g link n fin b) :
      Deed (.groupComplete link.queue (P.report f (fin j) link score))
  | retain {a : P.Step} {sid : Nat} {now score : Int} (hp : Works P s i a sid p.hist)
      (hu : Unacked p.hist) (hd : HandedOver p.hist (finished f (P.message a)))
      (ok : P.ran f a ∈ s.world.log) :
      Deed (.moveToZSet (P.message a).queue sid
        { finished f (P.message a) with chain := [], completedAt := unix now } .completed score)
  | delete {a : P.Step} {sid : Nat} (hp : Works P s i a sid p.hist) (hu : Unacked p.hist)
      (hd : HandedOver p.hist (finished f (P.message a))) (ok : P.ran f a ∈ s.world.log) :
      Deed (.ackDelete (P.message a).queue sid (P.message a).id)
  | read {q consumer : String} {count keep : Nat} (hj : p.job = .fetch q consumer count keep)
      (hh : p.hist = []) : Deed (.xReadGroup q consumer (max count 1))
  | load {a : P.Step} {q consumer : String} {count keep sid : Nat}
      (hj : p.job = .fetch q consumer count keep) (hq : (P.message a).queue = q)
      (hh : Holds p q sid (P.message a).id) : Deed (.getTask q (P.message a).id)
  | mark {a : P.Step} {sid : Nat} (hh : Holds p (P.message a).queue sid (P.message a).id) :
      Deed (.markActive (P.message a).queue (P.message a).id)
  | requeue {a : P.Step} {consumer : String} {count keep sid : Nat}
      (hj : p.job = .fetch (P.message a).queue consumer count keep)
      (hh : Holds p (P.message a).queue sid (P.message a).id) :
      Deed (.requeue (P.message a).queue sid (P.message a).id)
  | forward {q : String} {z : ZKey} {now : Int} {max : Nat} (hj : p.job.Serves)
      (hz : z = .retry ∨ z = .scheduled) : Deed (.forward q z now max)
  | look {op : Op} (hs : op.subject = none) (ha : op.acks = []) (hg : ¬ op.Groups)
      (hb : ¬ op.Batch) (hr : (s.world.slot op.queue).Ready op)
      (hd : ∀ k, op.delivers (s.world.reply k op) = [])
      (hh : ∀ k w', Heard f w' (.call (.redis op) (some (s.world.reply k op))))
      (hw : ∀ q c n keep, p.job = .fetch q c n keep → ∀ q' id, op ≠ .getTask q' id) : Deed op

end Deed

namespace Steady
variable {P : Plan} {f : Handlers} {ops : List Op} {s : Chronicle} {i j : Nat}
  {p : Party} {a b : P.Step} {sid : Nat} {hist : Hist} {op : Op}

section
variable (h : Steady P f ops s)
include h

/-- Nothing has failed. -/
theorem smooth (hp : p ∈ s.procs) : Smooth p.hist := by
  have hh := (h.heard p hp).2
  refine ⟨fun op hm => ?_, fun msg hm => ?_, fun msg score hm => ?_⟩
  · have hheard := hh _ hm
    cases op <;> simp [Heard] at hheard
  · have hheard := hh _ hm
    simp [Heard] at hheard
  · have hheard := hh _ hm
    simp [Heard] at hheard

/-- What a handler has returned is what `f` says. -/
theorem ran (hw : Works P s i a sid hist) {r : Option Bytes}
    (ok : Ran hist (P.message a).active (.ok r)) :
    r = f (P.message a).active ∧ P.ran f a ∈ s.world.log := by
  obtain ⟨heq, hlog⟩ := (h.heard _ (List.mem_of_getElem? hw)).2 _ ok
  cases heq
  exact ⟨rfl, hlog⟩

/-- A handler has not failed. -/
theorem not_failed (hp : p ∈ s.procs) {m : TaskMessage} {err : String} {skip : Bool}
    (bad : Ran p.hist m (.fail err skip)) : False := by
  obtain ⟨heq, -⟩ := (h.heard p hp).2 _ bad
  cases heq

/-- A task whose entry is in the stream waits. -/
theorem waits_of_entry {q id : String} (he : (sid, id) ∈ (s.world.slot q).stream.entries) :
    ∃ a, (P.message a).id = id ∧ (P.message a).queue = q ∧
      (∀ i sid h, Works P s i a sid h → Unacked h) ∧ (s.world.slot q).Waits (P.message a) := by
  have hs : (s.world.slot q).Sits id (.entry sid) := (h.located q id).sits he
  obtain ⟨m, hm⟩ := Option.isSome_iff_exists.mp hs.body
  obtain ⟨a, rfl, rfl⟩ := h.bodies q id m hm
  refine ⟨a, rfl, rfl, ?_⟩
  cases h.phase a with
  | unborn _ ha => exact absurd he (ha.nowhere (.entry sid))
  | waits _ hw hs' => exact ⟨hw, hs'⟩
  | settled _ hs' =>
    rcases hs' with ha | hs'
    · exact absurd he (ha.nowhere (.entry sid))
    · cases (hs'.at_iff (.entry sid)).mp he

/-- An entry that is held is that of a task that waits. -/
theorem waits_of_holds (hp : s.procs[i]? = some p) {q id : String} (hh : Holds p q sid id) :
    ∃ a, (P.message a).id = id ∧ (P.message a).queue = q ∧
      (∀ i sid h, Works P s i a sid h → Unacked h) ∧ (s.world.slot q).Waits (P.message a) :=
  h.waits_of_entry (h.lent i p q sid id hp hh).entry

/-- A task that is worked on was created. -/
theorem created_of_works (hw : Works P s i a sid hist) :
    s.world.Created (P.message a).id := by
  have hc := h.known.held.work (List.mem_of_getElem? hw)
  exact hc

/-- A task of a group that was created belongs to a group that was opened. -/
theorem opened_of_created (hP : P.Sound f) (hc : s.world.Created (P.message a).id)
    (hg : (P.message a).groupID ≠ "") :
    Opened P f ops s (P.message a).groupID := by
  obtain ⟨link, n, fin, b, hG⟩ := hP.group a hg
  cases h.group _ _ _ _ _ hG with
  | closed _ _ _ _ hm => exact absurd hc (hm a rfl)
  | opened ho => exact ho

/-- A task that is built from the message of another was not created before its worker
asked for it. -/
theorem new_of_untried (hw : Works P s i a sid hist) (hn : ∀ c, P.Needs b c ↔ c = a)
    (hno : ∀ op, Tried hist op → op.target ≠ some (P.message b).id) (hl : P.Launch f ops)
    (hP : P.Sound f) : ¬ s.world.Created (P.message b).id := by
  intro hc
  rcases h.origin b hc with ⟨h₀, n, op, -, -, hop, hsub⟩ |
    ⟨i', a', sid', h', op, hw', hn', ht, htarget⟩
  · rcases hl.op n op hop with ⟨-, _, _, _, _, _, -, rfl⟩ | ⟨c, hc, hnone, -⟩
    · cases hsub
    · have hcb : c = b := by
        refine hP.inj c b ?_
        cases hc with
        | enqueue | schedule =>
          generalize hm : P.message b = m at hsub
          cases hsub
          rfl
      subst hcb
      exact hnone a ((hn a).mpr rfl)
  · obtain rfl := (hn a').mp hn'
    obtain rfl := h.unique i' i a' sid' sid h' hist hw' hw
    cases hw'.symm.trans hw
    exact hno op ht htarget

/-- A parallel stage is opened by the worker of the task before it, once. -/
theorem not_opened_of_stage (hP : P.Sound f) (hl : P.Launch f ops) (hw : Works P s i a sid hist)
    {link : ChainLink} {rest : List ChainLink} (hc : (P.message a).chain = link :: rest)
    (hg : link.group ≠ []) (hno : ∀ st, ¬ Did hist (stageOp (finished f (P.message a)) link) st) :
    ¬ Opened P f ops s (stageID (P.message a)) := by
  rintro (⟨q, ids, h₀, hop, -⟩ | ⟨i', a', sid', h', link', rest', st, hw', hc', hg', hid, hd⟩)
  · exact hl.apart q _ ids hop a link rest hc hg rfl
  · -- two tasks before one stage would have a member of it in common
    obtain ⟨gm, hj⟩ : ∃ gm, link.group[0]? = some gm :=
      ⟨_, List.getElem?_eq_getElem (List.length_pos_iff.mpr hg)⟩
    obtain ⟨gm', hj'⟩ : ∃ gm, link'.group[0]? = some gm :=
      ⟨_, List.getElem?_eq_getElem (List.length_pos_iff.mpr hg')⟩
    obtain ⟨b, hb, hn⟩ := hP.member a link rest 0 gm hc hj
    obtain ⟨b', hb', hn'⟩ := hP.member a' link' rest' 0 gm' hc' hj'
    have hbb : b = b' := by
      refine hP.inj b b' ?_
      rw [hb, hb']
      change memberID (stageID (finished f (P.message a))) 0 =
        memberID (stageID (finished f (P.message a'))) 0
      rw [stageID_finished, stageID_finished, hid]
    subst hbb
    obtain rfl := (hn a').mp ((hn' a').mpr rfl)
    obtain rfl := h.unique i' i a' sid' sid h' hist hw' hw
    cases hw'.symm.trans hw
    cases hc'.symm.trans hc
    exact hno st hd

/-- The requests of the first process. -/
theorem deed_first (hl : P.Launch f ops) (hp : s.procs[0]? = some ⟨.sendAll ops, hist⟩)
    (hr : SendOp ops hist op) :
    Deed P f ops s 0 ⟨.sendAll ops, hist⟩ op := by
  rcases hl.op _ op hr.next with ⟨hz, g, link, n, fin, b, hG, rfl⟩ | ⟨b, hsub, hnone, hopen⟩
  · have hnil : hist = [] := List.length_eq_zero_iff.mp hz
    subst hnil
    refine .openGroup rfl rfl hG hr.next ?_
    rintro (⟨q, ids, h₀, -, hp₀, hd⟩ | ⟨i', a', sid', h', link', rest', st, -, hc', hg', hid, -⟩)
    · cases hp.symm.trans hp₀
      cases hd
    · exact hl.apart _ _ _ hr.next a' link' rest' hc' hg' hid
  · refine .submit rfl hr.next hsub hnone (fun hc => ?_) fun hg => ?_
    · rcases h.origin b hc with ⟨h₀, n, op', hp₀, hlt, hop, hsub'⟩ | ⟨_, a, _, _, _, _, hn, -⟩
      · cases hp.symm.trans hp₀
        have heq := hl.once n _ b op' op hop hr.next hsub' hsub
        omega
      · exact hnone a hn
    · obtain ⟨hz, link, n, fin, b', -, hop⟩ := hopen hg
      obtain ⟨_, hd⟩ := hr.before 0 _ (Nat.pos_of_ne_zero hz) hop
      exact Or.inl ⟨_, _, hist, hop, hp, hd⟩

/-- The requests of fetch rounds, recoverers and forwarders. -/
theorem deed_serves (hp : s.procs[i]? = some p) (hj : p.job.Serves) (hr : p.job.Request p.hist op)
    (hok : (undisturbed f).allow i op s.world) :
    Deed P f ops s i p op := by
  have hmem := List.mem_of_getElem? hp
  have hheard := (h.heard p hmem).2
  obtain ⟨job, hist⟩ := p
  cases job with
  | fetch q consumer count keep =>
    -- an entry that was fetched is held until it is passed on
    have hholds : ∀ {sid id}, Fetched q consumer count hist sid id → Undispatched hist sid →
        Holds ⟨.fetch q consumer count keep, hist⟩ q sid id := fun hf hu => ⟨rfl, hf, hu⟩
    have hdistinct : DistinctEntries q consumer count hist := by
      intro es hd
      obtain ⟨es', heq, hnd⟩ := hheard _ hd
      cases heq
      exact hnd
    cases hr with
    | read hh => exact .read rfl hh
    | @load sid id hf hu =>
      obtain ⟨a, rfl, hq, -⟩ := h.waits_of_holds hp (hholds hf (hu sid))
      exact .load rfl hq (hholds hf (hu sid))
    | @orphans sids ho =>
      have hnil : sids = [] := by
        refine List.eq_nil_iff_forall_not_mem.mpr fun sid hs => ?_
        obtain ⟨id, -, hd⟩ := ho sid hs
        obtain ⟨a, m, hm, -⟩ := h.loaded _ hmem q consumer count keep rfl id none hd
        cases hm
      subst hnil
      refine .look rfl rfl (fun hg => hg) (fun hb => hb) (fun _ hs => absurd hs List.not_mem_nil)
        (fun _ => rfl) (fun _ _ => ?_) fun _ _ _ _ _ _ _ ho => nomatch ho
      simp [Heard]
    | @mark sid m hl hu =>
      obtain ⟨id, hf, hd⟩ := hl
      obtain ⟨rfl, rfl⟩ := h.sane.loaded hmem hd
      obtain ⟨a, hid, hq, -⟩ := h.waits_of_holds hp (hholds hf (hu sid))
      have hh : Holds ⟨.fetch m.queue consumer count keep, hist⟩ (P.message a).queue sid
          (P.message a).id := by
        rw [hid, hq]
        exact hholds hf (hu sid)
      have hdeed : Deed P f ops s i _ _ := .mark hh
      rwa [hid, hq] at hdeed
    | @requeue sid m hl hm hu =>
      obtain ⟨id, hf, hd⟩ := hl
      obtain ⟨rfl, rfl⟩ := h.sane.loaded hmem hd
      obtain ⟨a, hid, hq, -⟩ := h.waits_of_holds hp (hholds hf (hu hdistinct))
      have hh : Holds ⟨.fetch m.queue consumer count keep, hist⟩ (P.message a).queue sid
          (P.message a).id := by
        rw [hid, hq]
        exact hholds hf (hu hdistinct)
      have hdeed : Deed P f ops s i ⟨.fetch m.queue consumer count keep, hist⟩ _ :=
        .requeue (by rw [hq]) hh
      rwa [hid, hq] at hdeed
  | recover q consumer minIdle max =>
    have hnone : ∀ {sid id}, ¬ Claimed q consumer minIdle max hist sid id := by
      rintro sid id ⟨es, hd, hm⟩
      have hes : some es = some [] := hheard _ hd
      cases hes
      cases hm
    cases hr with
    | claim =>
      refine .look rfl rfl (fun hg => hg) (fun hb => hb) trivial (fun _ => hok) (fun k w' => ?_)
        fun _ _ _ _ ho => nomatch ho
      have hreply : s.world.reply k (.xAutoClaim q consumer minIdle max) = [] := hok
      exact congrArg some hreply
    | load hc | orphan hc => exact absurd hc hnone
    | archive hc | retry hc | release hc =>
      obtain ⟨id, hc, -⟩ := hc
      exact absurd hc hnone
  | send op =>
    obtain rfl := List.mem_singleton.mp (List.mem_of_getElem? hr.next)
    obtain ⟨htr, q, z, now, max, rfl⟩ := hj
    refine .forward ⟨htr, q, z, now, max, rfl⟩ ?_
    cases htr with
    | forwardRetry => exact Or.inl rfl
    | forwardScheduled => exact Or.inr rfl
  | _ => exact hj.elim

/-- The requests of a worker. -/
theorem deed_work (hP : P.Sound f) (hl : P.Launch f ops) (hw : Works P s i a sid hist)
    (hr : WorkOp (P.message a).queue sid (P.message a).active hist op) :
    Deed P f ops s i ⟨.work (P.message a).queue sid (P.message a).active, hist⟩ op := by
  have hmem := List.mem_of_getElem? hw
  have hsmooth : Smooth hist := h.smooth hmem
  have hheard := (h.heard _ hmem).2
  have hlook : ∀ {op : Op}, op.subject = none → op.acks = [] → ¬ op.Groups → ¬ op.Batch →
      (s.world.slot op.queue).Ready op → (∀ k, op.delivers (s.world.reply k op) = []) →
      (∀ k w', Heard f w' (.call (.redis op) (some (s.world.reply k op)))) →
      Deed P f ops s i ⟨.work (P.message a).queue sid (P.message a).active, hist⟩ op :=
    fun h₁ h₂ h₃ h₄ h₅ h₆ h₇ => .look h₁ h₂ h₃ h₄ h₅ h₆ h₇ fun _ _ _ _ ho => nomatch ho
  cases hr with
  | @link r link rest _ ok hc hg ho hnew =>
    obtain ⟨rfl, hran⟩ := h.ran hw ok
    obtain ⟨b, hb, hn⟩ := hP.link a link rest hc hg
    have ho' : LinkOp (P.message b) (delayDuration link.delay) op := hb ▸ ho
    have hne : (P.message a).chain ≠ [] := by
      change (P.message a).chain = _ at hc
      simp [hc]
    refine .next hw hran hne ho' hn (h.new_of_untried hw hn ?_ hl hP) fun hgid => ?_
    · rw [hb]
      exact hnew hsmooth
    · have heq : (P.message b).groupID = (P.message a).groupID := by
        rw [hb, nextLink_finished (hP.clean a)]
        rfl
      rw [heq] at hgid ⊢
      exact h.opened_of_created hP (h.created_of_works hw) hgid
  | @stage r link rest ok hc hg hnew =>
    obtain ⟨rfl, -⟩ := h.ran hw ok
    obtain ⟨fin, b, hG⟩ := hP.stage a link rest hc hg
    exact .stage hw hc hg hG (h.not_opened_of_stage hP hl hw hc hg (hnew hsmooth))
  | pending _ _ hs =>
    have hst : some Slot.GroupStageState.present = some .created := hheard _ hs
    cases hst
  | @member r link rest j gm st _ ok hc hs hst hj ho hnew =>
    obtain ⟨rfl, hran⟩ := h.ran hw ok
    obtain ⟨b, hb, hn⟩ := hP.member a link rest j gm hc hj
    have ho' : LinkOp (P.message b) (delayDuration gm.delay) op := hb ▸ ho
    have hne : (P.message a).chain ≠ [] := by
      change (P.message a).chain = _ at hc
      simp [hc]
    refine .next hw hran hne ho' hn (h.new_of_untried hw hn ?_ hl hP) fun _ => ?_
    · rw [hb]
      exact hnew hsmooth
    · have heq : (P.message b).groupID = stageID (P.message a) := by
        rw [hb, stageMember_finished (hP.clean a)]
        rfl
      rw [heq]
      exact Or.inr ⟨i, a, sid, hist, link, rest, st, hw, hc,
        List.ne_nil_of_mem (List.mem_of_getElem? hj), rfl, hs⟩
  | drainState | drainGet =>
    exact hlook rfl rfl (fun hg => hg) (fun hb => hb) trivial (fun _ => rfl)
      fun _ _ => by simp [Heard]
  | drain _ _ _ hnot => exact absurd hsmooth hnot
  | @report r _ ok hc hg ho hnew =>
    obtain ⟨rfl, hran⟩ := h.ran hw ok
    obtain ⟨link, n, fin, b, hG⟩ := hP.group a hg
    obtain ⟨j, hj, rfl⟩ := hG.last a rfl hc
    have hcb : (finished f (P.message (fin j))).groupCallback = some link := by
      rw [finished_eq (hP.clean _)]
      exact hG.groupCallback j hj
    have hrep : ∀ score, memberReport (finished f (P.message (fin j))) link score =
        P.report f (fin j) link score := by
      intro score
      rw [finished_eq (hP.clean _)]
      rfl
    cases ho with
    | enqueue hl' =>
      cases hcb.symm.trans hl'
      change Deed P f ops s i _ (.groupComplete _ (memberReport (finished f _) link none))
      rw [hrep]
      exact .report hw hran hj hG
    | schedule now hl' =>
      cases hcb.symm.trans hl'
      change Deed P f ops s i _ (.groupComplete _ (memberReport (finished f _) link (some _)))
      rw [hrep]
      exact .report hw hran hj hG
  | retain ok hd _ hu =>
    obtain ⟨rfl, hran⟩ := h.ran hw ok
    exact .retain hw hu hd hran
  | delete ok hd _ hu =>
    obtain ⟨rfl, hran⟩ := h.ran hw ok
    exact .delete hw hu hd hran
  | discard bad | archive bad | retry bad => exact (h.not_failed hmem bad).elim
  | release =>
    exact hlook rfl rfl (fun hg => hg) (fun hb => hb) trivial (fun _ => rfl)
      fun _ _ => by simp [Heard]

/-- **The requests of an undisturbed run.** -/
theorem deed (hP : P.Sound f) (hl : P.Launch f ops) (hp : s.procs[i]? = some p)
    (hr : p.job.Request p.hist op) (hok : (undisturbed f).allow i op s.world) :
    Deed P f ops s i p op := by
  by_cases hi : i = 0
  · subst hi
    obtain ⟨hist, hp₀⟩ := h.first
    cases hp.symm.trans hp₀
    exact h.deed_first hl hp hr
  · rcases h.others i p hi hp with hj | ⟨a, sid, hist, hw⟩
    · exact h.deed_serves hp hj hr hok
    · cases hp.symm.trans hw
      exact h.deed_work hP hl hw hr

end

end Steady

end ChronosGo
