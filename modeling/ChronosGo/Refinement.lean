import ChronosGo.Continuation
import ChronosGo.UndisturbedRuns
import ChronosGo.WorkflowRequests

/-! # Workflows run as prescribed

A chain or a group that its builder accepts is enqueued, and its tasks are fetched,
processed and forwarded in any order and by any number of workers, without failures.
Then what is recorded of its tasks is at every moment a run of its plan, and once
nothing is pending, scheduled or active the plan is finished: each task was created
once, as prescribed, and has run once.

The proof goes through the invariant `Steady`: the requests of such a run are treated
in `UndisturbedRuns`, the other steps here.  When nothing is left to do, each task that
was created has been acknowledged, so its worker has handed over to its successors,
and the plan is exhausted by induction on what its tasks need.
-/
namespace ChronosGo
open Interleaving Redis GroupCompletion

variable {P : Plan} {f : Handlers} {ops : List Op} {s t : Chronicle}
  {p p' : Party} {ps qs : List Party} {job : Job} {w : World}
  {m : TaskMessage} {es : Hist} {g q id : String} {link : ChainLink} {n : Nat}
  {fin : Nat → P.Step}

/-- The task is not pending, scheduled or active. -/
def World.Idle (w : World) (m : TaskMessage) : Prop :=
  ∀ st ∈ [TaskState.pending, .scheduled, .active], ((w.slot m.queue).task m.id).state ≠ some st

instance (w : World) (m : TaskMessage) : Decidable (w.Idle m) :=
  inferInstanceAs (Decidable (∀ st ∈ [TaskState.pending, .scheduled, .active], _))

/-- No task that was created is pending, scheduled or active. -/
def World.Quiet (w : World) : Prop := ∀ m, Record.created m ∈ w.log → w.Idle m

/-! ## Steps that send no request -/

section Calm
variable {k : Keys} {i j : Nat} {a b : P.Step} {sid : Nat} {hist : Hist}

/-- None of the events is the answer to a request. -/
def Silent (es : Hist) : Prop := ∀ op r, Event.call (Cmd.redis op) r ∉ es

/-- The process was there before, and has seen no answer since. -/
def GoesOn (ps : List Party) (i : Nat) (p' : Party) : Prop :=
  ∃ p es, ps[i]? = some p ∧ p' = ⟨p.job, p.hist ++ es⟩ ∧ Silent es

/-- No request was answered: the tasks, the streams and the keys of the groups are as
before, nothing was created, and processes have seen no answer. -/
structure Calm (s t : Chronicle) : Prop where
  agree : ∀ q, (s.world.slot q).Agree (t.world.slot q)
  created : ∀ x, t.world.Created x → s.world.Created x
  group : ∀ q g, ((t.world.slot q).group g).members = ((s.world.slot q).group g).members ∧
    ((s.world.slot q).group g = {} → (t.world.slot q).group g = {})
  groupResult : ∀ q g,
    ((t.world.slot q).groupResult g).fields = ((s.world.slot q).groupResult g).fields ∧
    ((s.world.slot q).groupResult g = {} → (t.world.slot q).groupResult g = {})
  procs : ∀ (i : Nat) p', t.procs[i]? = some p' →
    GoesOn s.procs i p' ∨ s.procs[i]? = none ∧ p'.hist = []

/-- The processes after one has moved. -/
theorem procs_set {e : Event Cmd Cmd.Reply Job} (hp : ps[i]? = some p)
    (he : ∀ op r, e ≠ .call (.redis op) r) (hp' : (ps.set i ⟨p.job, p.hist ++ [e]⟩)[j]? = some p') :
    GoesOn ps j p' := by
  by_cases hj : i = j
  · subst hj
    rw [List.getElem?_set_self (List.getElem?_eq_some_iff.mp hp).1] at hp'
    refine ⟨p, [e], hp, (Option.some.inj hp').symm, fun op r hm => ?_⟩
    exact he op r (List.mem_singleton.mp hm).symm
  · rw [List.getElem?_set_ne hj] at hp'
    exact ⟨p', [], hp', by rw [List.append_nil], fun _ _ => List.not_mem_nil⟩

/-- The processes after one was started. -/
theorem procs_append (hlen : qs.length = ps.length) (hold : ∀ p', qs[j]? = some p' → GoesOn ps j p')
    (hp' : (qs ++ [⟨job, []⟩])[j]? = some p') :
    GoesOn ps j p' ∨ ps[j]? = none ∧ p'.hist = [] := by
  rcases Nat.lt_trichotomy j qs.length with hlt | rfl | hgt
  · rw [List.getElem?_append_left hlt] at hp'
    exact Or.inl (hold p' hp')
  · rw [List.getElem?_concat_length] at hp'
    cases hp'
    exact Or.inr ⟨List.getElem?_eq_none (by omega), rfl⟩
  · rw [List.getElem?_eq_none (by simp; omega)] at hp'
    cases hp'

/-- Processes that have not moved. -/
theorem procs_same (p' : Party) (hp' : ps[j]? = some p') : GoesOn ps j p' :=
  ⟨p', [], hp', by rw [List.append_nil], fun _ _ => List.not_mem_nil⟩

theorem calm_of_world {w' : World} (hslot : w'.slot = w.slot)
    (hlog : ∀ m, Record.created m ∈ w'.log → Record.created m ∈ w.log)
    (hprocs : ∀ (i : Nat) p', qs[i]? = some p' → GoesOn ps i p' ∨ ps[i]? = none ∧ p'.hist = []) :
    Calm ⟨w, ps⟩ ⟨w', qs⟩ where
  agree := fun q => by
    change (w.slot q).Agree (w'.slot q)
    rw [hslot]
    exact .refl _
  created := by
    rintro x ⟨m, hm, hid⟩
    exact ⟨m, hlog m hm, hid⟩
  group := fun q g => by
    change ((w'.slot q).group g).members = _ ∧ (_ → (w'.slot q).group g = {})
    rw [hslot]
    exact ⟨rfl, fun h => h⟩
  groupResult := fun q g => by
    change ((w'.slot q).groupResult g).fields = _ ∧ (_ → (w'.slot q).groupResult g = {})
    rw [hslot]
    exact ⟨rfl, fun h => h⟩
  procs := hprocs

theorem calm_of_tick {now : Int} (hk : w.KeepsGroups now) : Calm ⟨w, ps⟩ ⟨w.tick now, ps⟩ where
  agree := fun q => ⟨rfl, rfl, rfl⟩
  created := fun x hc => hc
  group := fun q g => by
    refine ⟨hk.members q g, fun h => ?_⟩
    change (if ((w.slot q).group g).expireAt ≤ now then ({} : GroupSet)
      else (w.slot q).group g) = {}
    split
    · rfl
    · exact h
  groupResult := fun q g => by
    change (if ((w.slot q).groupResult g).expireAt ≤ now then ({} : GroupHash)
      else (w.slot q).groupResult g).fields = ((w.slot q).groupResult g).fields ∧
      (_ → (if ((w.slot q).groupResult g).expireAt ≤ now then ({} : GroupHash)
        else (w.slot q).groupResult g) = {})
    split
    · rename_i hle
      refine ⟨?_, fun _ => rfl⟩
      by_contra hne
      have hlt := (hk q g).2 (Ne.symm hne)
      omega
    · exact ⟨rfl, fun h => h⟩
  procs := fun i p' hp' => Or.inl (procs_same p' hp')

/-- The steps of an undisturbed run: a request is answered, a handler returns, a worker is
started, or nothing happens to tasks at all. -/
inductive Turn (f : Handlers) (k : Keys) (s : Chronicle) :
    Chronicle → Prop where
  | request {i : Nat} {p : Party} {op : Op} (hp : s.procs[i]? = some p)
      (hr : p.job.Request p.hist op) (hok : (undisturbed f).allow i op s.world) :
      Turn f k s (answered k s i p op)
  | handle {i : Nat} {p : Party} {m : TaskMessage} (hp : s.procs[i]? = some p)
      (hr : p.job.Runs p.hist m) : Turn f k s ⟨s.world.handled m (.ok (f m)),
        s.procs.set i ⟨p.job, p.hist ++ [.call (.handle m) (.ok (f m))]⟩⟩
  | fork {i : Nat} {p : Party} {job : Job} (hp : s.procs[i]? = some p)
      (hf : p.job.Forks p.hist job) : Turn f k s ⟨s.world.give i s.procs.length job,
        s.procs.set i ⟨p.job, p.hist ++ [.fork job]⟩ ++ [⟨job, []⟩]⟩
  | plain {t : Chronicle} (hc : Calm s t)
      (howner : t.world.owner = s.world.owner) (hlog : t.world.log = s.world.log)
      (hnew : ∀ (j : Nat) p', t.procs[j]? = some p' → s.procs[j]? = none → p'.job.Serves) :
      Turn f k s t

theorem turn_of_act (ha : ((undisturbed f).machine k).Act protocol s t) : Turn f k s t := by
  have hset : ∀ {ps : List Party} {n j : Nat} {p₀ p' : Party},
      (ps.set n p₀)[j]? = some p' → ps[j]? = none → p'.job.Serves := by
    intro ps n j p₀ p' hp' hnone
    rw [List.getElem?_eq_none (by simpa using hnone)] at hp'
    cases hp'
  cases ha with
  | @call w w' ps i p c r hp hc he =>
    -- a command that does nothing to the world
    have hcalm : (∀ op, c ≠ .redis op) →
        Calm ⟨w, ps⟩ ⟨w, ps.set i ⟨p.job, p.hist ++ [.call c r]⟩⟩ := by
      intro hno
      refine calm_of_world rfl (fun _ h => h)
        fun j p' hp' => Or.inl (procs_set hp (fun op r' heq => ?_) hp')
      injection heq with hcmd
      exact hno op hcmd
    cases c with
    | redis op =>
      rcases he with ⟨hok, rfl, rfl | ⟨hf, -⟩⟩ | ⟨hf, -⟩
      · exact .request (s := ⟨w, ps⟩) hp hc hok
      · exact hf.elim
      · exact hf.elim
    | handle m =>
      obtain ⟨rfl, rfl⟩ := he
      exact .handle (s := ⟨w, ps⟩) hp hc
    | now =>
      obtain ⟨-, rfl⟩ := he
      exact .plain (hcalm fun _ h => nomatch h) rfl rfl fun _ _ => hset
    | retryDelay | ctxDone =>
      obtain rfl : w' = w := he
      exact .plain (hcalm fun _ h => nomatch h) rfl rfl fun _ _ => hset
  | @fork w ps i p j hp hf => exact .fork (s := ⟨w, ps⟩) hp hf
  | @spawn w ps j hj =>
    refine .plain (calm_of_world rfl (fun _ h => h) fun n p' hp' => procs_append rfl procs_same hp')
      rfl rfl fun n p' hp' hnone => ?_
    have hn : ps.length ≤ n := List.getElem?_eq_none_iff.mp hnone
    rw [List.getElem?_append_right hn, List.getElem?_singleton] at hp'
    split at hp'
    · cases hp'
      exact hj
    · cases hp'
  | env he =>
    obtain ⟨now, -, hk, rfl⟩ := he
    refine .plain (calm_of_tick hk) rfl rfl fun j p' hp' hnone => ?_
    cases hp'.symm.trans hnone

theorem calm_handled {out : Outcome} (hp : s.procs[i]? = some p) :
    Calm s ⟨s.world.handled m out, s.procs.set i ⟨p.job, p.hist ++ [.call (.handle m) out]⟩⟩ := by
  refine calm_of_world rfl (fun m' hm' => ?_)
    fun j p' hp' => Or.inl (procs_set hp (by rintro _ _ ⟨⟩) hp')
  exact (List.mem_cons.mp hm').resolve_left fun h => nomatch h

theorem calm_forked (hp : s.procs[i]? = some p) :
    Calm s ⟨s.world.give i s.procs.length job,
      s.procs.set i ⟨p.job, p.hist ++ [.fork job]⟩ ++ [⟨job, []⟩]⟩ := by
  refine calm_of_world (World.slot_give _ _) (fun m hm => World.log_give s.world _ _ job ▸ hm)
    fun n p' hp' => procs_append (by simp) (fun p' hp' => ?_) hp'
  exact procs_set hp (by rintro _ _ ⟨⟩) hp'

/-- Who works on a task after a calm step. -/
theorem Calm.works (hc : Calm s t) (hw : Works P t j a sid hist) :
    (∃ h es, Works P s j a sid h ∧ hist = h ++ es ∧ Silent es) ∨
      s.procs[j]? = none ∧ hist = [] := by
  rcases hc.procs j _ hw with ⟨⟨job, h⟩, es, hp, heq, hno⟩ | hnew
  · cases heq
    exact Or.inl ⟨h, es, hp, rfl, hno⟩
  · exact Or.inr hnew

/-- Events that are no requests acknowledge nothing. -/
theorem Unacked.append {h : Hist} (hu : Unacked h) (hno : Silent es) : Unacked (h ++ es) := by
  rintro op ⟨r, hr⟩
  rcases List.mem_append.mp hr with hr | hr
  · exact hu op ⟨r, hr⟩
  · exact absurd hr (hno op r)

theorem Did.of_append {h : Hist} (hno : Silent es) {op : Op} {r : op.Reply}
    (hd : Did (h ++ es) op r) : Did h op r :=
  (List.mem_append.mp hd).resolve_right (hno op _)

theorem Calm.opened (hc : Calm s t) (ho : Opened P f ops t g) :
    Opened P f ops s g := by
  rcases ho with ⟨q, ids, h, hop, hp, hd⟩ | ⟨j, a, sid, h, link, rest, st, hw, hch, hg, hid, hd⟩
  · rcases hc.procs 0 _ hp with ⟨⟨job, h₀⟩, es, hp₀, heq, hno⟩ | ⟨-, hnil⟩
    · cases heq
      exact Or.inl ⟨q, ids, h₀, hop, hp₀, hd.of_append hno⟩
    · obtain rfl : h = [] := hnil
      cases hd
  · rcases hc.works hw with ⟨h₀, es, hw₀, rfl, hno⟩ | ⟨-, rfl⟩
    · exact Or.inr ⟨j, a, sid, h₀, link, rest, st, hw₀, hch, hg, hid, hd.of_append hno⟩
    · cases hd

theorem Calm.hasReported (hc : Calm s t) (hr : HasReported P t a) : HasReported P s a := by
  obtain ⟨j, sid, h, q, r, v, hw, hd⟩ := hr
  rcases hc.works hw with ⟨h₀, es, hw₀, rfl, hno⟩ | ⟨-, rfl⟩
  · exact ⟨j, sid, h₀, q, r, v, hw₀, hd.of_append hno⟩
  · cases hd

end Calm

/-- What a run of a plan has created is a task of the plan. -/
theorem Plan.Runs.is {log : List Record} (h : P.Runs f log) (hm : Record.created m ∈ log) :
    ∃ b, P.Is b m := by
  induction h with
  | nil => cases hm
  | create _ his _ _ ih =>
    rcases List.mem_cons.mp hm with heq | hm
    · cases heq
      exact ⟨_, his⟩
    · exact ih hm
  | run _ _ _ ih => exact ih ((List.mem_cons.mp hm).resolve_left fun heq => nomatch heq)

namespace Steady
variable {k : Keys} {i j : Nat} {a b : P.Step} {sid : Nat} {hist : Hist}

section
variable (h : Steady P f ops s) (ha : ((undisturbed f).machine k).Act protocol s t)
  (hc : Calm s t)
include h ha hc

theorem phase_calm (a : P.Step) : Phase P t a := by
  have hsame : (s.world.slot (P.message a).queue).Same (P.message a).id
      (t.world.slot (P.message a).queue) := (hc.agree _).same
  refine (h.phase a).step hsame.absent hsame.waits hsame.settled (hc.created _) (extends_act ha)
    (fun j sid h' hw => ?_) fun _ _ _ hw => works_act ha hw
  rcases hc.works hw with ⟨h₀, es, hw₀, rfl, hno⟩ | ⟨-, rfl⟩
  · exact Or.inr ⟨h₀, hw₀, fun hu => hu.append hno⟩
  · exact Or.inl rfl

theorem group_calm (hG : P.Gathers f g link n fin b) : GroupPhase P f ops t g link n fin b := by
  have hext := extends_act ha
  refine (h.group g link n fin b hG).step ⟨hc.opened, fun ho => ho.act ha⟩ (hc.group _ g).2
    (hc.groupResult _ g).2 (hc.group _ g).1 (hc.groupResult _ g).1
    ⟨hc.created _, fun hcr => hcr.mono hext⟩ (fun _ a _ hcr => hc.created _ hcr) hext
    (fun j _ hr => hc.hasReported hr) fun hnew => ?_
  cases h.phase_calm ha hc b with
  | unborn _ hs =>
    rw [hG.callback_queue] at hs
    exact hs.not_present
  | waits hcr => exact absurd hcr hnew
  | settled hw =>
    obtain ⟨j, sid, hist, hw, hu⟩ := hw
    refine absurd ?_ hnew
    rcases hc.works hw with ⟨h₀, es, hw₀, -⟩ | ⟨-, rfl⟩
    · exact (h.created_of_works hw₀).mono hext
    · exact absurd unacked_nil hu

theorem handedOver_calm (hw : Works P t j a sid hist) (hu : ¬ Unacked hist) :
    HandedOver hist (finished f (P.message a)) ∧ P.ran f a ∈ t.world.log := by
  rcases hc.works hw with ⟨h₀, es, hw₀, rfl, hno⟩ | ⟨-, rfl⟩
  · obtain ⟨hdone, ok⟩ := h.handedOver j a sid h₀ hw₀ fun hu₀ => hu (hu₀.append hno)
    exact ⟨hdone.mono (List.subset_append_left _ _), extends_act ha _ ok⟩
  · exact absurd unacked_nil hu

end

theorem loaded_calm (h : Steady P f ops s) (hc : Calm s t) (hp' : p' ∈ t.procs) {c : String}
    {keep : Nat} (hj : p'.job = .fetch q c n keep) {r : Option TaskMessage}
    (hd : Did p'.hist (.getTask q id) r) :
    ∃ a m, r = some m ∧ P.Is a m := by
  obtain ⟨i, hi⟩ := List.mem_iff_getElem?.mp hp'
  rcases hc.procs i p' hi with ⟨p, es, hp, rfl, hno⟩ | ⟨-, hnil⟩
  · exact h.loaded p (List.mem_of_getElem? hp) q c n keep hj id r (hd.of_append hno)
  · rw [hnil] at hd
    cases hd

/-- A process that has seen no answer holds what it held before. -/
theorem holds_calm (hno : Silent es) (hh : Holds ⟨p.job, p.hist ++ es⟩ q sid id) :
    Holds p q sid id := by
  obtain ⟨job, hist⟩ := p
  cases job with
  | work q' sid' m =>
    obtain ⟨rfl, rfl, rfl, hu⟩ := hh
    exact ⟨rfl, rfl, rfl, hu.of_append⟩
  | fetch q' consumer count keep =>
    obtain ⟨rfl, ⟨es', hread, hmem⟩, hund⟩ := hh
    exact ⟨rfl, ⟨es', hread.of_append hno, hmem⟩, hund.of_append⟩
  | _ => exact hh.elim

theorem lent_agree {w' : World} (hl : w.Lent i q sid id) (hagree : (w.slot q).Agree (w'.slot q))
    (howner : w'.owner q sid = some j) :
    w'.Lent j q sid id := by
  refine ⟨howner, ?_, ?_⟩
  · rw [hagree.stream]
    exact hl.entry
  · rw [hagree.stream]
    exact hl.delivered

/-- Entries stay with their processes when no worker is started. -/
theorem lent_calm (h : Steady P f ops s) (hc : Calm s t) (howner : t.world.owner = s.world.owner)
    (hnew : ∀ (j : Nat) p', t.procs[j]? = some p' → s.procs[j]? = none → p'.job.Serves)
    (hp' : t.procs[j]? = some p') (hh : Holds p' q sid id) : t.world.Lent j q sid id := by
  rcases hc.procs j p' hp' with ⟨p, es, hp, rfl, hno⟩ | ⟨hnone, hnil⟩
  · have hl := h.lent j p q sid id hp (holds_calm hno hh)
    exact lent_agree hl (hc.agree q) (howner ▸ hl.owner)
  · have hserves := hnew j p' hp' hnone
    obtain ⟨job, hist⟩ := p'
    obtain rfl : hist = [] := hnil
    cases job with
    | fetch =>
      obtain ⟨-, ⟨es, hread, -⟩, -⟩ := hh
      cases hread
    | recover | send => exact hh.elim
    | _ => exact hserves.elim

/-- One process works on a task when no worker is started. -/
theorem unique_calm (h : Steady P f ops s) (hc : Calm s t)
    (hnew : ∀ (j : Nat) p', t.procs[j]? = some p' → s.procs[j]? = none → p'.job.Serves)
    {sid' : Nat} {hist' : Hist} (hw : Works P t i a sid hist) (hw' : Works P t j a sid' hist') :
    i = j := by
  have hback : ∀ {j sid hist}, Works P t j a sid hist → ∃ h, Works P s j a sid h := by
    intro j sid hist hw
    rcases hc.works hw with ⟨h₀, es, hw₀, -⟩ | ⟨hnone, -⟩
    · exact ⟨h₀, hw₀⟩
    · exact (hnew j _ hw hnone).elim
  obtain ⟨h₁, hw₁⟩ := hback hw
  obtain ⟨h₂, hw₂⟩ := hback hw'
  exact h.unique i j a sid sid' h₁ h₂ hw₁ hw₂

/-! ### A worker is started -/

/-- The worker that a fetch round starts works on a task that the round holds. -/
theorem fork_worker (h : Steady P f ops s) (hp : s.procs[i]? = some p)
    (hf : p.job.Forks p.hist job) : ∃ a sid, job = .work (P.message a).queue sid
      (P.message a).active ∧ Holds p (P.message a).queue sid (P.message a).id ∧
      ∀ b sid' hist, ¬ Works P s i b sid' hist := by
  have hmem := List.mem_of_getElem? hp
  have hnone : ∀ {q c n keep}, p.job = .fetch q c n keep →
      ∀ b sid' hist, ¬ Works P s i b sid' hist := by
    intro q c n keep hj b sid' hist hw
    cases hj.symm.trans (hw.job hp)
  obtain ⟨job', hist⟩ := p
  cases job' with
  | fetch q consumer count keep =>
    cases hf with
    | @work sid m hl hm hu =>
      obtain ⟨id, hfe, hd⟩ := hl
      obtain ⟨a, m', heq, st, rfl⟩ := h.loaded _ hmem q consumer count keep rfl id _ hd
      cases heq
      obtain ⟨rfl, rfl⟩ := h.sane.loaded hmem hd
      refine ⟨a, sid, rfl, ⟨rfl, hfe, hu fun es hread => ?_⟩, hnone rfl⟩
      obtain ⟨es', heq, hnd⟩ := (h.heard _ hmem).2 _ hread
      cases heq
      exact hnd
  | _ => exact hf.elim

/-- The processes after a worker was started. -/
theorem procs_fork (hp : ps[i]? = some p)
    (hp' : (ps.set i ⟨p.job, p.hist ++ [.fork job]⟩ ++ [⟨job, []⟩])[j]? = some p') :
    j ≠ i ∧ ps[j]? = some p' ∨ j = i ∧ p' = ⟨p.job, p.hist ++ [.fork job]⟩ ∨
      j = ps.length ∧ p' = ⟨job, []⟩ := by
  have hlt : i < ps.length := (List.getElem?_eq_some_iff.mp hp).1
  rcases Nat.lt_trichotomy j ps.length with hj | rfl | hj
  · rw [List.getElem?_append_left (by simpa using hj)] at hp'
    by_cases hji : i = j
    · subst hji
      rw [List.getElem?_set_self hlt] at hp'
      exact Or.inr (Or.inl ⟨rfl, (Option.some.inj hp').symm⟩)
    · rw [List.getElem?_set_ne hji] at hp'
      exact Or.inl ⟨Ne.symm hji, hp'⟩
  · rw [List.getElem?_append_right (by simp)] at hp'
    simp only [List.length_set, Nat.sub_self, List.getElem?_cons_zero, Option.some.injEq] at hp'
    exact Or.inr (Or.inr ⟨rfl, hp'.symm⟩)
  · rw [List.getElem?_eq_none (by simp; omega)] at hp'
    cases hp'

/-- Who works on a task after a worker was started. -/
theorem works_fork (hp : ps[i]? = some p)
    (hw : Works P ⟨w.give i ps.length job, ps.set i ⟨p.job, p.hist ++ [.fork job]⟩ ++ [⟨job, []⟩]⟩
      j a sid hist) :
    (∃ h, Works P ⟨w, ps⟩ j a sid h) ∨
      j = ps.length ∧ job = .work (P.message a).queue sid (P.message a).active := by
  rcases procs_fork hp hw with ⟨-, hw₀⟩ | ⟨rfl, heq⟩ | ⟨rfl, heq⟩
  · exact Or.inl ⟨_, hw₀⟩
  · obtain ⟨job', h⟩ := p
    cases heq
    exact Or.inl ⟨h, hp⟩
  · cases heq
    exact Or.inr ⟨rfl, rfl⟩

theorem unique_fork (h : Steady P f ops ⟨w, ps⟩) (hP : P.Sound f) (hp : ps[i]? = some p)
    (hf : p.job.Forks p.hist job) {i' : Nat} {sid' : Nat} {hist' : Hist}
    (hw : Works P ⟨w.give i ps.length job, ps.set i ⟨p.job, p.hist ++ [.fork job]⟩ ++ [⟨job, []⟩]⟩
      i' a sid hist)
    (hw' : Works P ⟨w.give i ps.length job,
      ps.set i ⟨p.job, p.hist ++ [.fork job]⟩ ++ [⟨job, []⟩]⟩ j a sid' hist') : i' = j := by
  obtain ⟨c, sid₀, hjob, hh, hnone⟩ := h.fork_worker hp hf
  have hl : w.Lent i (P.message c).queue sid₀ (P.message c).id := h.lent i p _ _ _ hp hh
  -- a worker on the task would hold the entry that the fetch round holds
  have hother : ∀ {j sid sid' h'}, job = .work (P.message a).queue sid (P.message a).active →
      ¬ Works P ⟨w, ps⟩ j a sid' h' := by
    intro j sid sid' h' hjob' hw₀
    obtain rfl : c = a := by
      have heq := hjob.symm.trans hjob'
      simp only [Job.work.injEq] at heq
      have hid := congrArg TaskMessage.id heq.2.2
      exact hP.inj c a hid
    obtain ⟨hunacked, hwaits⟩ := h.waits_of_lent hP hl
    have hl' := h.lent_of_works hw₀ (hunacked _ _ _ hw₀)
    have hplace := ((hwaits.sits hl.entry).at_iff (.entry sid')).mp hl'.entry
    injection hplace with hsid
    have howner := hl'.owner
    rw [hsid] at howner
    obtain rfl := Option.some.inj (hl.owner.symm.trans howner)
    exact hnone _ _ _ hw₀
  rcases works_fork hp hw with ⟨h₁, hw₁⟩ | ⟨rfl, hjob₁⟩
  · rcases works_fork hp hw' with ⟨h₂, hw₂⟩ | ⟨rfl, hjob₂⟩
    · exact h.unique i' j a sid sid' h₁ h₂ hw₁ hw₂
    · exact absurd hw₁ (hother hjob₂)
  · rcases works_fork hp hw' with ⟨h₂, hw₂⟩ | ⟨rfl, -⟩
    · exact absurd hw₂ (hother hjob₁)
    · rfl

/-- The worker that is started is given the entry by the round that has held it. -/
theorem lent_fork (h : Steady P f ops ⟨w, ps⟩) (hp : ps[i]? = some p)
    (hf : p.job.Forks p.hist job)
    (hp' : (ps.set i ⟨p.job, p.hist ++ [.fork job]⟩ ++ [⟨job, []⟩])[j]? = some p')
    (hh' : Holds p' q sid id) : (w.give i ps.length job).Lent j q sid id := by
  obtain ⟨c, sid₀, rfl, hh, -⟩ := h.fork_worker hp hf
  have hl : w.Lent i (P.message c).queue sid₀ (P.message c).id := h.lent i p _ _ _ hp hh
  have hgive : ∀ q' sid', (w.give i ps.length (.work (P.message c).queue sid₀
      (P.message c).active)).owner q' sid' =
      if q' = (P.message c).queue ∧ sid' = sid₀ then some ps.length else w.owner q' sid' := by
    intro q' sid'
    change (if q' = _ ∧ sid' = sid₀ ∧ w.owner _ sid₀ = some i then _ else _) = _
    simp only [hl.owner, and_true]
  -- an entry that was held before, and is not the one that is handed over
  have hkept : ∀ {p₀ : Party}, ps[j]? = some p₀ → Holds p₀ q sid id →
      ¬ (q = (P.message c).queue ∧ sid = sid₀) →
      (w.give i ps.length (.work (P.message c).queue sid₀ (P.message c).active)).Lent
        j q sid id := by
    intro p₀ hp₀ hh₀ hne
    have hl₀ := h.lent j p₀ q sid id hp₀ hh₀
    refine lent_agree hl₀ ?_ ?_
    · rw [World.slot_give]
      exact .refl _
    · rw [hgive, if_neg hne]
      exact hl₀.owner
  rcases procs_fork hp hp' with ⟨hj, hp₀⟩ | ⟨rfl, rfl⟩ | ⟨rfl, rfl⟩
  · refine hkept hp₀ hh' ?_
    rintro ⟨rfl, rfl⟩
    have howner := (h.lent j p' _ _ _ hp₀ hh').owner
    exact hj (Option.some.inj (howner.symm.trans hl.owner))
  · have hno : ∀ job op r,
        Event.call (Cmd.redis op) r ∉ [(Event.fork job : Event Cmd Cmd.Reply Job)] := by simp
    have hh₀ : Holds p q sid id := holds_calm (hno _) hh'
    refine hkept hp hh₀ ?_
    rintro ⟨rfl, rfl⟩
    obtain ⟨job', hist'⟩ := p
    cases job' with
    | fetch =>
      obtain ⟨-, -, hund⟩ := hh'
      exact hund.1 _ _ List.mem_concat_self
    | _ => exact hf.elim
  · obtain ⟨rfl, rfl, rfl, -⟩ := hh'
    refine lent_agree hl ?_ ?_
    · rw [World.slot_give]
      exact .refl _
    · rw [hgive, if_pos ⟨rfl, rfl⟩]

/-! ### One step -/

theorem serves_external {j : Job} (hj : j.Serves) : j.External := by
  cases j with
  | send => exact hj.1
  | fetch | recover => trivial
  | _ => exact hj.elim

section
variable (h : Steady P f ops s)
include h

theorem first_act (ha : ((undisturbed f).machine k).Act protocol s t) :
    ∃ h, t.procs[0]? = some ⟨.sendAll ops, h⟩ := by
  obtain ⟨h₀, hp⟩ := h.first
  obtain ⟨es, hp'⟩ := Trace.exists_proc_act ha hp
  exact ⟨_, hp'⟩

theorem others_act (ha : ((undisturbed f).machine k).Act protocol s t) (hi : i ≠ 0)
    (hp' : t.procs[i]? = some p') :
    p'.job.Serves ∨ ∃ a sid h, Works P t i a sid h := by
  rcases Trace.proc_act ha hp' with ⟨p, es, hp, rfl⟩ | ⟨-, hnil, hspawn | ⟨p, hp, hf⟩⟩
  · rcases h.others i p hi hp with hserves | ⟨a, sid, hist, hw⟩
    · exact Or.inl hserves
    · obtain ⟨es', hw'⟩ := works_act ha hw
      exact Or.inr ⟨a, sid, _, hw'⟩
  · exact Or.inl hspawn
  · obtain ⟨n, hn⟩ := List.mem_iff_getElem?.mp hp
    obtain ⟨a, sid, hjob, -⟩ := h.fork_worker hn hf
    obtain ⟨job, hist⟩ := p'
    obtain rfl : job = _ := hjob
    exact Or.inr ⟨a, sid, hist, hp'⟩

theorem heard_act (hP : P.Sound f) (hl : P.Launch f ops)
    (ha : ((undisturbed f).machine k).Act protocol s t) : t.Knows (fun _ _ => True) (Heard f) := by
  refine h.heard.act ha (fun _ _ => trivial) (fun _ => Heard.mono (extends_act ha)) ?_
    (fun _ _ _ _ _ => ⟨trivial, trivial⟩) fun _ _ => trivial
  intro i p c r hp hc he
  cases c with
  | redis op =>
    rcases he with ⟨hok, hw, rfl | ⟨hf, -⟩⟩ | ⟨hf, -⟩
    · have hsane : Sane (answered k s i p op) :=
        sane_act (fun _ => serves_external) h.sane
          (Machine.Act.call (M := (undisturbed f).machine k) hp hc (Or.inl ⟨hok, rfl, Or.inl rfl⟩))
      rw [hw]
      exact h.heard_answered (h.deed hP hl hp hc hok) hsane
    · exact hf.elim
    · exact hf.elim
  | handle m =>
    obtain ⟨rfl, hw⟩ := he
    refine ⟨rfl, ?_⟩
    rw [hw]
    exact List.mem_cons_self
  | now | retryDelay | ctxDone => trivial

/-- A handler that returns is that of a task that has not run before. -/
theorem runs_handled (hP : P.Sound f) (hp : s.procs[i]? = some p) (hr : p.job.Runs p.hist m) :
    (∃ a sid, Works P s i a sid [] ∧ m = (P.message a).active) ∧
      P.Runs f (s.world.handled m (.ok (f m))).log := by
  have hi : i ≠ 0 := by
    rintro rfl
    rw [h.procs_zero hp] at hr
    exact hr
  rcases h.others i p hi hp with hserves | ⟨a, sid, hist, hw⟩
  · obtain ⟨job, hist⟩ := p
    cases job with
    | work => exact hserves.elim
    | _ => exact hr.elim
  · cases hp.symm.trans hw
    obtain ⟨rfl, rfl⟩ : m = _ ∧ hist = [] := hr
    refine ⟨⟨a, sid, hw, rfl⟩, .run h.runs ?_ fun m' out hm' hid => ?_⟩
    · obtain ⟨m, hm, hid⟩ := h.created_of_works hw
      obtain ⟨b, his⟩ := h.runs.is hm
      obtain rfl := hP.inj b a (his.id.symm.trans hid)
      exact ⟨m, his, hm⟩
    · obtain ⟨i', a', sid', h', hw', rfl, hne⟩ := h.handled m' out hm'
      obtain rfl := hP.inj a' a hid
      obtain rfl := h.unique i' i a' sid' sid h' [] hw' hw
      cases hw'.symm.trans hw
      exact hne rfl

/-- What has been handled before a step has a worker after it. -/
theorem handled_old (ha : ((undisturbed f).machine k).Act protocol s t) {out : Outcome}
    (hm : Record.handled m out ∈ s.world.log) :
    ∃ i a sid h, Works P t i a sid h ∧ m = (P.message a).active ∧ h ≠ [] := by
  obtain ⟨i, a, sid, hist, hw, rfl, hne⟩ := h.handled m out hm
  obtain ⟨es, hw'⟩ := works_act ha hw
  exact ⟨i, a, sid, _, hw', rfl, by simp [hne]⟩

/-- A step without a request keeps the invariant, if entries stay with one process each,
tasks with one worker, and the records are as they should. -/
theorem of_calm (hP : P.Sound f) (hl : P.Launch f ops)
    (ha : ((undisturbed f).machine k).Act protocol s t) (hc : Calm s t)
    (hlent : ∀ (i : Nat) p q sid id, t.procs[i]? = some p → Holds p q sid id →
      t.world.Lent i q sid id)
    (hunique : ∀ i j a sid sid' h h', Works P t i a sid h → Works P t j a sid' h' → i = j)
    (hhandled : ∀ m out, Record.handled m out ∈ t.world.log → ∃ i a sid h, Works P t i a sid h ∧
      m = (P.message a).active ∧ h ≠ []) (hruns : P.Runs f t.world.log) : Steady P f ops t where
  sane := sane_act (fun _ => serves_external) h.sane ha
  known := known_act (fun _ => serves_external) h.sane h.known ha
  first := h.first_act ha
  others := fun _ _ hi hp => h.others_act ha hi hp
  located := fun q x => (hc.agree q).same.located (h.located q x)
  heard := h.heard_act hP hl ha
  lent := hlent
  loaded := fun _ hp _ _ _ _ hj _ _ hd => h.loaded_calm hc hp hj hd
  unique := hunique
  bodies := fun q x m hm => h.bodies q x m ((hc.agree q).same.body.symm.trans hm)
  phase := h.phase_calm ha hc
  origin := fun b hcr => (h.origin b (hc.created _ hcr)).act ha
  handedOver := fun _ _ _ _ hw hu => h.handedOver_calm ha hc hw hu
  handled := hhandled
  group := fun _ _ _ _ _ hG => h.group_calm ha hc hG
  runs := hruns

/-- A request leaves each task with its one worker. -/
theorem unique_answered (hp : s.procs[i]? = some p) {i' j : Nat} {sid sid' : Nat}
    {h₁ h₂ : List (Event Cmd Cmd.Reply Job)} (hw : Works P (answered k s i p op) i' a sid h₁)
    (hw' : Works P (answered k s i p op) j a sid' h₂) : i' = j := by
  have hback : ∀ {j sid h'}, Works P (answered k s i p op) j a sid h' →
      ∃ h₀, Works P s j a sid h₀ := by
    intro j sid h' hw
    rcases works_answered hp hw with ⟨-, hw⟩ | ⟨rfl, hw, -⟩
    · exact ⟨_, hw⟩
    · exact ⟨_, hw⟩
  obtain ⟨_, hw₁⟩ := hback hw
  obtain ⟨_, hw₂⟩ := hback hw'
  exact h.unique i' j a sid sid' _ _ hw₁ hw₂

/-- A request keeps the invariant. -/
theorem act_request (hP : P.Sound f) (hl : P.Launch f ops) (hp : s.procs[i]? = some p)
    (hd : Deed P f ops s i p op)
    (ha : ((undisturbed f).machine k).Act protocol s (answered k s i p op)) :
    Steady P f ops (answered k s i p op) := by
  have hsane := sane_act (fun _ => serves_external) h.sane ha
  refine ⟨hsane, known_act (fun _ => serves_external) h.sane h.known ha, h.first_act ha,
    fun _ _ hi hp => h.others_act ha hi hp, fun q x => ?_, h.heard_act hP hl ha,
    fun _ _ _ _ _ hp' hh => h.lent_answered hp hd hp' hh,
    fun p' hp' q c n keep hj id r hdid => ?_,
    fun _ _ _ _ _ _ _ hw hw' => h.unique_answered hp hw hw',
    fun q x m hm => h.bodies_answered hP hd hm, h.phase_answered hP hp hd hsane,
    fun b hc => h.origin_answered hP hp hd hsane (fun _ ho => ho.act ha) hc,
    fun _ _ _ _ hw hu => h.handedOver_answered hP hp hd hw hu, fun m out hm => ?_,
    fun _ _ _ _ _ hG => h.group_answered hP hp hd hsane (fun ho => ho.act ha) hG,
    h.runs_answered hP hp hd hsane⟩
  · change ((s.world.perform k i op).slot q).Located x
    by_cases hq : q = op.queue
    · rw [hq, World.slot_perform_self]
      exact Slot.located_run _ (h.ready hp hd) (h.located _) x
    · rw [World.slot_perform_ne hq]
      exact h.located q x
  · obtain ⟨j, hj'⟩ := List.mem_iff_getElem?.mp hp'
    exact h.loaded_answered hP hp hd hj' hj hdid
  · have hm' : Record.handled m out ∈ s.world.log := by
      rcases List.mem_append.mp hm with hm | hm
      · obtain ⟨m', -, heq⟩ := Option.map_eq_some_iff.mp (Option.mem_toList.mp hm)
        cases heq
      · exact hm
    exact h.handled_old ha hm'

/-- **One step.**  Every step of an undisturbed run keeps the invariant. -/
theorem act (hP : P.Sound f) (hl : P.Launch f ops)
    (ha : ((undisturbed f).machine k).Act protocol s t) : Steady P f ops t := by
  have hold := ha
  cases turn_of_act ha with
  | request hp hr hok => exact h.act_request hP hl hp (h.deed hP hl hp hr hok) ha
  | @handle i p m hp hr =>
    have hc : Calm s ⟨s.world.handled m (.ok (f m)),
        s.procs.set i ⟨p.job, p.hist ++ [.call (.handle m) (.ok (f m))]⟩⟩ := calm_handled hp
    have hnew : ∀ (j : Nat) p',
        (s.procs.set i ⟨p.job, p.hist ++ [.call (.handle m) (.ok (f m))]⟩)[j]? = some p' →
        s.procs[j]? = none → p'.job.Serves := by
      intro j p' hp' hnone
      rw [List.getElem?_eq_none (by simpa using hnone)] at hp'
      cases hp'
    obtain ⟨⟨a, sid, hw, rfl⟩, hruns⟩ := h.runs_handled hP hp hr
    refine h.of_calm hP hl ha hc (fun _ _ _ _ _ hp' hh => h.lent_calm hc rfl hnew hp' hh)
      (fun _ _ _ _ _ _ _ hw hw' => h.unique_calm hc hnew hw hw') (fun m' out hm' => ?_) hruns
    rcases List.mem_cons.mp hm' with heq | hm'
    · cases heq
      refine ⟨i, a, sid, [.call (.handle (P.message a).active) (.ok (f (P.message a).active))], ?_,
        rfl, by simp⟩
      cases hp.symm.trans hw
      exact List.getElem?_set_self (List.getElem?_eq_some_iff.mp hp).1
    · exact h.handled_old hold hm'
  | @fork i p job hp hf =>
    refine h.of_calm hP hl ha (calm_forked hp) (fun _ _ _ _ _ hp' hh => h.lent_fork hp hf hp' hh)
      (fun _ _ _ _ _ _ _ hw hw' => h.unique_fork hP hp hf hw hw') (fun m out hm => ?_) ?_
    · exact h.handled_old hold (World.log_give s.world _ _ job ▸ hm)
    · change P.Runs f (s.world.give _ _ job).log
      rw [World.log_give]
      exact h.runs
  | plain hc howner hlog hnew =>
    exact h.of_calm hP hl ha hc (fun _ _ _ _ _ hp' hh => h.lent_calm hc howner hnew hp' hh)
      (fun _ _ _ _ _ _ _ hw hw' => h.unique_calm hc hnew hw hw')
      (fun m out hm => h.handled_old ha (hlog ▸ hm)) (hlog ▸ h.runs)

end

/-! ### The start -/

/-- **The start.**  The invariant holds before the first request. -/
theorem init (hl : P.Launch f ops) : Steady P f ops ⟨World.init, [⟨.sendAll ops, []⟩]⟩ := by
  have htraffic : ∀ op ∈ ops, Traffic op := by
    intro op hop
    obtain ⟨n, hn⟩ := List.mem_iff_getElem?.mp hop
    rcases hl.op n op hn with ⟨-, g, link, m, fin, b, -, rfl⟩ | ⟨a, hsub, -⟩
    · exact .createGroup _ _ _
    · cases hsub with
      | enqueue => exact .enqueue _
      | schedule => exact .schedule _ _
  have hproc : ∀ {i : Nat} {p : Party},
      [(⟨.sendAll ops, []⟩ : Party)][i]? = some p →
      i = 0 ∧ p = ⟨.sendAll ops, []⟩ := by
    intro i p hp
    obtain ⟨hlt, rfl⟩ := List.getElem?_eq_some_iff.mp hp
    obtain rfl : i = 0 := by simpa using hlt
    exact ⟨rfl, rfl⟩
  have hmem : ∀ {p : Party},
      p ∈ [(⟨.sendAll ops, []⟩ : Party)] → p = ⟨.sendAll ops, []⟩ :=
    fun hp => List.mem_singleton.mp hp
  have hidle : ∀ {i a sid h}, ¬ Works P ⟨World.init, [⟨.sendAll ops, []⟩]⟩ i a sid h := by
    intro i a sid h hw
    obtain ⟨-, heq⟩ := hproc hw
    cases heq
  have hnew : ∀ {x}, ¬ World.init.Created x := fun ⟨_, hm, _⟩ => absurd hm List.not_mem_nil
  have habsent : ∀ q x, (World.init.slot q).Absent x := fun _ _ => ⟨rfl, fun p hp => by
    cases p with
    | entry => exact absurd hp List.not_mem_nil
    | set => exact absurd hp ZSet.not_mem_empty⟩
  refine ⟨⟨Sane.init.wellKept, fun p hp => ?_⟩, ⟨Known.init.slot, Known.init.held.body,
    fun p hp => ?_⟩, ⟨[], rfl⟩, fun i p hi hp => absurd (hproc hp).1 hi,
    fun q x => Or.inl (habsent q x), fun p hp => ?_, fun i p q sid id hp hh => ?_,
    fun p hp q c n keep hj => ?_, fun i j a sid sid' h h' hw => absurd hw hidle,
    fun _ _ _ h => (nomatch h), fun a => .unborn hnew (habsent _ _), fun b hc => absurd hc hnew,
    fun i a sid h hw => absurd hw hidle, fun m out hm => absurd hm List.not_mem_nil,
    fun g link n fin b _ => .closed ?_ rfl rfl hnew fun a _ => hnew, .nil⟩
  · rw [hmem hp]
    exact ⟨htraffic, fun e he => absurd he List.not_mem_nil⟩
  · rw [hmem hp]
    exact ⟨trivial, fun e he => absurd he List.not_mem_nil⟩
  · rw [hmem hp]
    exact ⟨trivial, fun e he => absurd he List.not_mem_nil⟩
  · obtain ⟨-, rfl⟩ := hproc hp
    exact hh.elim
  · rw [hmem hp] at hj
    cases hj
  · rintro (⟨q, ids, h, -, hp, hd⟩ | ⟨i, a, sid, h, link', rest, st, hw, -⟩)
    · obtain ⟨-, heq⟩ := hproc hp
      cases heq
      cases hd
    · exact hidle hw

/-! ### The end -/

/-- The record of a task that was created. -/
theorem exists_created (h : Steady P f ops t) (hP : P.Sound f)
    (hc : t.world.Created (P.message a).id) : ∃ m, Record.created m ∈ t.world.log ∧ P.Is a m := by
  obtain ⟨m, hm, hid⟩ := hc
  obtain ⟨b, hb⟩ := h.runs.is hm
  obtain rfl := hP.inj b a (hb.id.symm.trans hid)
  exact ⟨m, hm, hb⟩

/-- The task of a step that was created has been acknowledged, if nothing waits. -/
theorem acknowledged (h : Steady P f ops t) (hP : P.Sound f) (hq : t.world.Quiet)
    (hc : t.world.Created (P.message a).id) : ∃ i sid h, Works P t i a sid h ∧
      HandedOver h (finished f (P.message a)) ∧ P.ran f a ∈ t.world.log := by
  cases h.phase a with
  | unborn hno => exact absurd hc hno
  | waits _ _ hs =>
    obtain ⟨⟨pl, hpl, hsits⟩, -⟩ := hs
    obtain ⟨m, hm, st, rfl⟩ := h.exists_created hP hc
    have hidle : ∀ st ∈ [TaskState.pending, .scheduled, .active],
        ((t.world.slot (P.message a).queue).task (P.message a).id).state ≠ some st :=
      hq { P.message a with state := st } hm
    have hshows := hsits.shows
    cases pl with
    | entry =>
      rcases hshows with hst | hst
      · exact absurd hst (hidle .pending (by decide))
      · exact absurd hst (hidle .active (by decide))
    | set z =>
      obtain rfl : z = .scheduled := hpl
      exact absurd hshows (hidle .scheduled (by decide))
  | settled hw =>
    obtain ⟨i, sid, hist, hw, hack⟩ := hw
    obtain ⟨hover, hran⟩ := h.handedOver i a sid hist hw hack
    exact ⟨i, sid, hist, hw, hover, hran⟩

theorem created_of_linkDone (h : Steady P f ops t) (hp : p ∈ t.procs) {delay : Int}
    (hd : LinkDone p.hist m delay) : t.world.Created m.id := by
  obtain ⟨op, r, ho, hd⟩ := hd
  have hheard := (h.heard p hp).2 _ hd
  cases ho with
  | enqueue | schedule => exact hheard.2

/-- A worker that has handed over has created what is built from its message. -/
theorem created_of_handedOver (h : Steady P f ops t) (hP : P.Sound f) (hw : Works P t i a sid hist)
    (hd : HandedOver hist (finished f (P.message a))) {rest : List ChainLink}
    (hc : (P.message a).chain = link :: rest)
    (hb : link.group = [] ∧ P.message b = nextLink (finished f (P.message a)) link rest ∨
      ∃ j gm, link.group[j]? = some gm ∧
        P.message b = stageMember (finished f (P.message a)) link rest j gm) :
    t.world.Created (P.message b).id := by
  have hmem := List.mem_of_getElem? hw
  have hchain : (finished f (P.message a)).chain = link :: rest := by
    rw [finished_eq (hP.clean a)]
    exact hc
  cases hd with
  | link hc' hg hd =>
    cases hchain.symm.trans hc'
    rcases hb with ⟨-, hb⟩ | ⟨j, gm, hj, -⟩
    · rw [hb]
      exact h.created_of_linkDone hmem hd
    · rw [hg] at hj
      cases hj
  | stage hc' hg hd =>
    cases hchain.symm.trans hc'
    obtain ⟨st, hd, hst⟩ := hd
    have hcreated : some st = some .created := (h.heard _ hmem).2 _ hd
    cases hcreated
    rcases hb with ⟨hg', -⟩ | ⟨j, gm, hj, hb⟩
    · exact absurd hg' hg
    · rcases hst with hst | hst
      · cases hst
      · rcases hst j gm hj with hd | ⟨ids, hd, -⟩
        · rw [hb]
          exact h.created_of_linkDone hmem hd
        · exact ((h.heard _ hmem).2 _ hd).elim
  | report hc' | last hc' => cases hchain.symm.trans hc'

/-- The members of a group that were acknowledged have reported. -/
theorem hasReported_of_handedOver (hP : P.Sound f) (hG : P.Gathers f g link n fin b) (hj : j < n)
    (hw : Works P t i (fin j) sid hist) (hd : HandedOver hist (finished f (P.message (fin j)))) :
    HasReported P t (fin j) := by
  have hfin := finished_eq (f := f) (hP.clean (fin j))
  have hchain : (finished f (P.message (fin j))).chain = [] := by
    rw [hfin]
    exact hG.chain j hj
  have hgroup : (finished f (P.message (fin j))).groupID = g := by
    rw [hfin]
    exact hG.isGroup.groupID j hj
  cases hd with
  | link hc' | stage hc' => cases hchain.symm.trans hc'
  | report hc' _ hd =>
    obtain ⟨op, r, ho, hd⟩ := hd
    cases ho with
    | enqueue | schedule => exact ⟨i, sid, hist, _, _, r, hw, hd⟩
  | last hc' hg => exact absurd (hgroup.symm.trans hg) hG.named

section
variable (h : Steady P f ops t) (hP : P.Sound f) (hl : P.Launch f ops) (hp : p ∈ t.procs)
  (hsent : ∀ op ∈ ops, ∃ r, Did p.hist op r) (hq : t.world.Quiet)
include h hP hl hp hsent hq

/-- **The end.**  When the client has sent its requests and nothing waits, every task of the
plan was created. -/
theorem created_of_quiet (b : P.Step) : t.world.Created (P.message b).id := by
  -- by induction on what the step needs
  refine hP.wf.induction (C := fun b => t.world.Created (P.message b).id) b fun b ih => ?_
  rcases hP.cases b with hnone | ⟨a, link, rest, hc, hn, hb⟩ | ⟨g, link, n, fin, hG⟩
  · obtain ⟨op, hop, hsub⟩ := hl.all b hnone
    obtain ⟨r, hd⟩ := hsent op hop
    have hheard := (h.heard p hp).2 _ hd
    cases hsub with
    | enqueue | schedule => exact hheard.2
  · obtain ⟨i, sid, hist, hw, hd, -⟩ := h.acknowledged hP hq (ih a ((hn a).mpr rfl))
    exact h.created_of_handedOver hP hw hd hc hb
  · cases h.group g link n fin b hG with
    | closed _ _ _ _ hm =>
      have hpos := hG.isGroup.size
      exact absurd (ih (fin 0) ((hG.needs _).mpr ⟨0, hpos, rfl⟩))
        (hm (fin 0) (hG.isGroup.groupID 0 hpos))
    | opened _ _ _ hr hb =>
      refine hb.mpr fun j hj => hr j hj ?_
      obtain ⟨i, sid, hist, hw, hd, -⟩ := h.acknowledged hP hq
        (ih _ ((hG.needs _).mpr ⟨j, hj, rfl⟩))
      exact hasReported_of_handedOver hP hG hj hw hd

theorem finished_of_quiet :
    P.Finished t.world.log := by
  have hall := h.created_of_quiet hP hl hp hsent hq
  refine h.runs.finished (fun a => h.exists_created hP (hall a)) fun a => ?_
  obtain ⟨i, sid, hist, -, -, hran⟩ := h.acknowledged hP hq (hall a)
  exact hran

end

end Steady

/-! ## Workflows -/

/-- A workflow that its builder accepts when the clock shows `now`: the requests that
enqueue it, and the plan of what it asks for. -/
inductive Accepted (f : Handlers) (now : Int) : List Op → Plan → Prop where
  | chain {ch : Chain} {c : String} {op : Op} (h : ch.enqueue now c = .ok op) :
      Accepted f now [op] (chainPlan f (ch.asked now c))
  | group {grp : Group} {g : String} {ops : List Op} (hg : g ≠ "")
      (h : grp.enqueue now g = .ok ops) :
      Accepted f now ops (groupPlan f g (grp.asked now) (grp.firsts now g))

theorem Submits.eq {m' : TaskMessage} {op : Op} (h : Submits m op) (h' : Submits m' op) :
    m = m' := by
  cases h with
  | enqueue | schedule =>
    cases h'
    rfl

/-- The plan of an accepted workflow is sound, and its requests start it. -/
theorem Accepted.sound {now : Int} (h : Accepted f now ops P) : P.Sound f ∧ P.Launch f ops := by
  cases h with
  | @chain _ _ op h =>
    obtain ⟨m, hfirst, -, -, hop⟩ := Chain.enqueue_ok h
    have hm : Submits m op := by
      rcases hop with rfl | ⟨t, rfl⟩
      · exact .enqueue
      · exact .schedule t
    rw [(Chain.enqueue_asked h).eq hm]
    exact ⟨chainPlan_sound f hfirst, chainPlan_launch f hfirst hm⟩
  | @group grp g ops hg h =>
    obtain ⟨starts, rfl, hfirsts⟩ := Group.enqueue_asked h
    obtain ⟨cb, ms, starts', hs, heq, hlen, -, hstart, hsnap⟩ := Group.enqueue_ok hg h
    obtain ⟨hop, rfl⟩ := List.cons.inj heq
    have hstart' : ∀ (j : Nat) m, ms[j]? = some m → ∃ op, starts[j]? = some op ∧ Submits m op := by
      intro j m hj
      rcases hstart j m hj with hj | ⟨t, hj⟩
      · exact ⟨_, hj, .enqueue⟩
      · exact ⟨_, hj, .schedule t⟩
    have hms : List.Forall₂ Submits ms starts := by
      refine List.forall₂_iff_get.mpr ⟨hlen.symm, fun j h₁ h₂ => ?_⟩
      obtain ⟨op, hj, hsub⟩ := hstart' j _ (List.getElem?_eq_getElem h₁)
      cases (List.getElem?_eq_getElem h₂).symm.trans hj
      exact hsub
    have hunique : Relator.LeftUnique Submits := fun _ _ _ h h' => Submits.eq h h'
    obtain rfl := List.left_unique_forall₂' hunique hms hfirsts
    -- the members tell which callback was frozen
    have hcb : cb = grp.asked now := by
      obtain ⟨m, hm⟩ := List.exists_mem_of_ne_nil _ hs.nonempty
      obtain ⟨j, hj⟩ := List.mem_iff_getElem?.mp hm
      have hcb : m.groupCallback = some cb := by
        cases hs.member j m hj with
        | flat => rfl
        | chain => rfl
      exact Option.some.inj (hcb.symm.trans (Group.groupCallback_firsts hj))
    rw [hop, ← hcb]
    exact ⟨groupPlan_sound f hs, groupPlan_launch f hs hlen hstart'⟩

/-- **Workflows run as prescribed.**  A chain or a group that its builder accepts is
enqueued, and any number of fetch rounds, workers, forwarders and recoverers run, in any
order, while nothing fails, expires or is taken from its holder.  Then the records of its
tasks are at every moment a run of its plan, and when its requests are sent and no task is
pending, scheduled or active, the plan is finished. -/
theorem workflow_runs_as_prescribed (f : Handlers) (k : Keys) {now : Int} {ops : List Op}
    {P : Plan} (h : Accepted f now ops P) {d : Deployment}
    (hr : ((undisturbed f).machine k).Reaches World.init [.sendAll ops] d) :
    P.Runs f d.world.log ∧
      (d.procs[0]? = some (some (.pure ())) → d.world.Quiet → P.Finished d.world.log) := by
  obtain ⟨hP, hl⟩ := h.sound
  obtain ⟨hs, hinv, hmatch⟩ := Discipline.invariant (obeys_protocol (undisturbed f) k)
    (I := Steady P f ops) (Steady.init hl) (fun _ _ h ha => h.act hP hl ha) hr
  refine ⟨hinv.runs, fun hret hq => ?_⟩
  obtain ⟨p, hp, hfollows⟩ := Discipline.matches_getElem hmatch hret
  obtain ⟨hist, hp₀⟩ := hinv.first
  cases hp.symm.trans hp₀
  have hmem := List.mem_of_getElem? hp
  have hsent : ∀ op ∈ ops, ∃ r, Did hist op r := hfollows _ rfl (hinv.smooth hmem).clean
  exact hinv.finished_of_quiet hP hl hmem hsent hq

/-- The answers in a run in which nothing goes wrong and no recoverer runs. -/
def smoothAnswer (k : Keys) (f : Handlers) (_ : Unit) (i : Nat) :
    (c : Cmd) → World → Option (c.Reply × World)
  | .handle msg, w => some (.ok (f msg), w.handled msg (.ok (f msg)))
  | .redis (.xAutoClaim ..), _ => none
  | c, w => answer k (fun _ _ _ => true) (.ok none) i c w

/-- The player of such a run. -/
def smoothPlayer (k : Keys) (f : Handlers) : Player Cmd Cmd.Reply Job World Unit Empty where
  start := Job.start
  give := fun i n j w => w.give i n j
  answer := smoothAnswer k f
  env := fun e _ => nomatch e

theorem smoothPlayer_sound (k : Keys) (f : Handlers) :
    (smoothPlayer k f).Sound ((undisturbed f).machine k) where
  start := rfl
  give := rfl
  answer := fun _ i c w a h => by
    cases c with
    | now =>
      cases h
      exact ⟨rfl, rfl⟩
    | retryDelay | ctxDone =>
      cases h
      rfl
    | handle msg =>
      cases h
      exact ⟨rfl, rfl⟩
    | redis op =>
      cases op with
      | xAutoClaim => cases h
      | _ =>
        cases h
        exact Or.inl ⟨trivial, rfl, Or.inl rfl⟩
  env := fun e => nomatch e

/-- The first process has returned and nothing is left to do. -/
def atRest (d : Deployment) : Bool :=
  (match d.procs[0]? with
    | some (some (Prog.pure _)) => true
    | _ => false) &&
  d.world.log.all fun r => match r with
    | .created m => decide (d.world.Idle m)
    | .handled .. => true

theorem quiet_of_atRest {d : Deployment} (h : atRest d = true) :
    d.procs[0]? = some (some (.pure ())) ∧ d.world.Quiet := by
  obtain ⟨hret, hall⟩ := Bool.and_eq_true_iff.mp h
  refine ⟨?_, fun m hm => ?_⟩
  · split at hret
    · assumption
    · cases hret
  · exact of_decide_eq_true (List.all_eq_true.mp hall _ hm)

/-- A run of a chain of one task and a group of two, whose members are processed side by
side. -/
def sideBySide : List (Interleaving.Choice Unit Empty Job) :=
  [.step 0 (), .spawn (.fetch "default" "w" 1 1)] ++ List.replicate 4 (.step 1 ()) ++
    List.replicate 5 (.step 2 ()) ++ [.spawn (.fetch "default" "w" 2 2)] ++
    List.replicate 7 (.step 3 ()) ++ [.step 4 (), .step 5 (), .step 5 (), .step 4 (), .step 4 (),
      .step 5 (), .spawn (.fetch "default" "w" 2 2)] ++
    List.replicate 4 (.step 6 ()) ++ List.replicate 2 (.step 7 ())

/-- At its end the plan of the chain is finished. -/
theorem parallel_chain_finished : ∃ d : Deployment,
    ((undisturbed fun _ => some [1]).machine sampleKeys).Reaches World.init
      [.sendAll [.enqueue sampleFirst]] d ∧
      (chainPlan (fun _ => some [1]) sampleFirst).Runs (fun _ => some [1]) d.world.log ∧
      (chainPlan (fun _ => some [1]) sampleFirst).Finished d.world.log := by
  obtain ⟨d, hr, hd⟩ := (smoothPlayer_sound sampleKeys fun _ => some [1]).exists_config
    sideBySide (And.intro trivial (And.intro trivial (And.intro trivial trivial)))
    (((undisturbed fun _ => some [1]).machine sampleKeys).boot World.init
      [.sendAll [.enqueue sampleFirst]])
    atRest (by decide +kernel)
  obtain ⟨hret, hq⟩ := quiet_of_atRest hd
  have hch : sampleChain.enqueue 0 "c" = .ok (.enqueue sampleFirst) := rfl
  have hplan : Accepted (fun _ => some [1]) 0 [.enqueue sampleFirst]
      (chainPlan (fun _ => some [1]) sampleFirst) := .chain hch
  obtain ⟨hruns, hfin⟩ := workflow_runs_as_prescribed (fun _ => some [1]) sampleKeys hplan hr
  exact ⟨d, hr, hruns, hfin hret hq⟩

end ChronosGo
