import ChronosGo.Scheduler

/-! # At most once for each trigger

A trigger is kept from being enqueued twice by two pieces of state: its
deduplication key, which expires, and the last fired time of its schedule, which a
pass reads before it enqueues and which is persisted after.  Neither is enough
alone.  Twice the two can come apart: a pass may read a last fired time that is
older than a trigger whose key is gone, and a key may expire between the read of a
pass and its enqueue.  Without these two, no trigger is enqueued twice
(`trigger_enqueued_once`); with the first one it is, though no pass stays open for
long (`trigger_enqueued_twice`).
-/
namespace ChronosGo.Scheduler
open Interleaving

/-! ## Runs -/

/-- All instances register the same schedules: an identifier stands for one entry. -/
def Registers (reg : String → ScheduleEntry) (j : Job) : Prop := ∀ e ∈ j.entries, reg e.id = e

/-- Runs in which no pass stays open for longer than the deduplication keys live. -/
def timely (reg : String → ScheduleEntry) (leaderTTL : Int) : Regime where
  spawn := fun j => j.leaderTTL = leaderTTL ∧ Registers reg j
  allow := fun i c w => c = .now ∨ w.now ≤ (w.view i).now + wrap64 (10 * leaderTTL)
  faults := False
  lost := False
  crash := True

/-- The last fired time that is persisted is not older than any trigger whose
deduplication key has expired. -/
def Cluster.Recorded (w : Cluster) (e : ScheduleEntry) : Prop :=
  ∀ last, w.lastFired e.id = some last →
    ∀ t, (e.queue, triggerID e.id t) ∈ w.lapsed → unix t ≤ last

/-- Runs in which each read of a last fired time finds it recorded, and the key of a
trigger does not expire between that read and the enqueue of the trigger. -/
def fenced (reg : String → ScheduleEntry) : Regime where
  spawn := Registers reg
  allow := fun i c w =>
    match c with
    | .getLastFired id => w.Recorded (reg id)
    | .enqueuePeriodic msg tid _ =>
      (msg.queue, tid) ∈ w.lapsed → (msg.queue, tid) ∈ w.lapsedAtRead i
    | _ => True
  faults := True
  lost := True
  crash := True

/-- What is true along a fenced run. -/
structure Fenced (reg : String → ScheduleEntry) (t : Chronicle) : Prop where
  tied : Tied t
  jobs : ∀ p ∈ t.procs, Registers reg p.job
  known : ∀ d ∈ t.world.enqueued, ∃ e trigger,
    reg e.id = e ∧ d = (e.queue, triggerID e.id trigger)
  nodup : t.world.enqueued.Nodup
  reading : ∀ i e last, reg e.id = e → (t.world.view i).read = some (e.id, some (some last)) →
    ∀ trigger, (e.queue, triggerID e.id trigger) ∈ t.world.lapsedAtRead i →
      unix trigger * second ≤ last

variable {reg : String → ScheduleEntry}

/-- A trigger that a fenced pass enqueues is new. -/
theorem Fenced.fresh (hreg : ∀ id, (reg id).schedule.Advances ∧ (reg id).schedule.WholeSeconds)
    {t : Chronicle} (h : Fenced reg t) {i : Nat}
    {p : Proc Cmd Cmd.Reply Job} (hp : t.procs[i]? = some p) {e : ScheduleEntry}
    (he : e ∈ p.job.entries) {last trigger : Int} (hl : (viewOf p.hist).From e last)
    (ht : trigger ∈ (computeFires e.schedule last (viewOf p.hist).now e.misfire).1)
    (hgone : ((t.world.slot e.queue).dedup (triggerID e.id trigger)).isNone)
    (hfence : (e.queue, triggerID e.id trigger) ∈ t.world.lapsed →
      (e.queue, triggerID e.id trigger) ∈ t.world.lapsedAtRead i) :
    (e.queue, triggerID e.id trigger) ∉ t.world.enqueued := by
  intro hmem
  have hreg' := h.jobs p (List.mem_of_getElem? hp) e he
  obtain ⟨hadv, hwhole⟩ := hreg' ▸ hreg e.id
  obtain ⟨hlast, hnow, u, rfl⟩ := due_of_mem_fires hadv ht
  rcases hl with hl | hl
  · -- a pass that works with its own clock has nothing due
    omega
  · have hread := h.tied i
    rw [histOf_eq hp] at hread
    have hold := h.reading i e last hreg' (hread ▸ hl) _
      (hfence (List.mem_filter.mpr ⟨hmem, hgone⟩))
    rw [hwhole.unix_mul] at hold
    omega

/-- The reading of a process stays true when it is answered: a read that gave a time
was made when the time was recorded. -/
theorem Fenced.reading_call {t : Chronicle} (h : Fenced reg t) {i : Nat}
    {c : Cmd} {w' : Cluster} {r : c.Reply} (he : (fenced reg).exec i c t.world r w')
    {e : ScheduleEntry} (hreg : reg e.id = e) {n : Nat} {last : Int}
    (hread : (w'.view n).read = some (e.id, some (some last))) {trigger : Int}
    (hgone : (e.queue, triggerID e.id trigger) ∈ w'.lapsedAtRead n) :
    unix trigger * second ≤ last := by
  have hview := Regime.view_exec he
  rw [hview] at hread
  by_cases hn : n = i
  · subst hn
    rw [Function.update_self] at hread
    cases c with
    | now =>
      rcases he with ⟨-, rfl, -⟩ | ⟨-, hf, -⟩
      · exact h.reading n e last hreg hread _ hgone
      · cases hf
    | getLastFired id =>
      obtain ⟨rfl, rfl⟩ : id = e.id ∧ r = some (some last) := by simpa [View.see] using hread
      rcases he with ⟨hrec, rfl, hr | ⟨-, hr⟩⟩ | ⟨-, hr, -⟩
      · obtain ⟨sec, hsec, rfl⟩ := Option.map_eq_some_iff.mp (Option.some.inj hr).symm
        rw [show (fenced reg).allow n (.getLastFired e.id) t.world = t.world.Recorded (reg e.id)
          from rfl, hreg] at hrec
        have hle := hrec sec hsec trigger
          (by simpa [Cluster.see, Cluster.perform] using hgone)
        exact Int.mul_le_mul_of_nonneg_right hle (by decide)
      · cases hr
      · cases hr
    | setLastFired id time => cases hread
    | enqueuePeriodic msg tid ttl =>
      rcases he with ⟨-, rfl, -⟩ | ⟨-, -, rfl⟩
      all_goals exact h.reading n e last hreg hread _ hgone
  · rw [Function.update_of_ne hn] at hread
    refine h.reading n e last hreg hread _ ?_
    rcases he with ⟨-, rfl, -⟩ | ⟨-, -, rfl⟩
    · cases c with
      | getLastFired id =>
        simpa [Cluster.see, Cluster.perform, Function.update_of_ne hn] using hgone
      | now | setLastFired | enqueuePeriodic => exact hgone
    · exact hgone

theorem Fenced.act (hreg : ∀ id, (reg id).schedule.Advances ∧ (reg id).schedule.WholeSeconds)
    {s t : Chronicle} (h : Fenced reg s)
    (ha : (fenced reg).machine.Act protocol s t) : Fenced reg t := by
  have htied := tied_act h.tied ha
  cases ha with
  | @call w w' ps i p c r hp hc he =>
    have hjobs : ∀ q ∈ ps.set i ⟨p.job, p.hist ++ [.call c r]⟩, Registers reg q.job := by
      intro q hq
      rcases List.mem_or_eq_of_mem_set hq with hq | rfl
      · exact h.jobs q hq
      · exact h.jobs p (List.mem_of_getElem? hp)
    have hreading : ∀ n e last, reg e.id = e → (w'.view n).read = some (e.id, some (some last)) →
        ∀ trigger, (e.queue, triggerID e.id trigger) ∈ w'.lapsedAtRead n →
          unix trigger * second ≤ last :=
      fun _ _ _ hr hread _ hgone => h.reading_call he hr hread hgone
    rcases enqueued_exec he with henq | ⟨msg, tid, ttl, rfl, hallow, hnone, henq⟩
    · exact ⟨htied, hjobs, henq ▸ h.known, henq ▸ h.nodup, hreading⟩
    · cases hc with
      | @enqueue e hmem last trigger _ hl ht =>
        have hfresh := h.fresh hreg hp hmem hl ht hnone hallow
        refine ⟨htied, hjobs, ?_, ?_, hreading⟩
        · intro d hd
          rcases List.mem_cons.mp (henq ▸ hd) with rfl | hd
          · exact ⟨e, trigger, h.jobs p (List.mem_of_getElem? hp) e hmem, rfl⟩
          · exact h.known d hd
        · change w'.enqueued.Nodup
          rw [henq]
          exact List.nodup_cons.mpr ⟨hfresh, h.nodup⟩
  | fork _ hf => exact hf.elim
  | @spawn w ps j hj =>
    refine ⟨htied, fun q hq => ?_, h.known, h.nodup, h.reading⟩
    rcases List.mem_append.mp hq with hq | hq
    · exact h.jobs q hq
    · rw [List.mem_singleton.mp hq]
      exact hj
  | env he =>
    obtain ⟨t, -, rfl⟩ := he
    exact ⟨htied, h.jobs, h.known, h.nodup, h.reading⟩

theorem Fenced.init : Fenced reg ⟨Cluster.init, []⟩ where
  tied := tied_init []
  jobs := fun _ hp => absurd hp List.not_mem_nil
  known := fun _ hd => absurd hd List.not_mem_nil
  nodup := List.nodup_nil
  reading := fun _ _ _ _ hread => nomatch hread

/-- How often the trigger of a schedule at an instant has been enqueued. -/
def Cluster.timesEnqueued (w : Cluster) (id : String) (trigger : Int) : Nat :=
  (w.enqueued.map Prod.snd).count (triggerID id trigger)

/-- **At most once.**  In every fenced run, each trigger of each schedule is enqueued
at most once. -/
theorem trigger_enqueued_once
    (hreg : ∀ id, (reg id).schedule.Advances ∧ (reg id).schedule.WholeSeconds)
    {c : Deployment}
    (hr : (fenced reg).machine.Reachable ((fenced reg).machine.boot Cluster.init []) c)
    (id : String) (trigger : Int) : c.world.timesEnqueued id trigger ≤ 1 := by
  obtain ⟨hs, h, -⟩ := Discipline.invariant (obeys_protocol (fenced reg))
    (I := Fenced reg) Fenced.init (fun _ _ h ha => h.act hreg ha) hr
  refine List.nodup_iff_count_le_one.mp (List.Nodup.map_on ?_ h.nodup) _
  intro d hd d' hd' heq
  obtain ⟨e, t, hre, rfl⟩ := h.known d hd
  obtain ⟨e', t', hre', rfl⟩ := h.known d' hd'
  obtain rfl : e = e' := hre.symm.trans ((congrArg reg (triggerID_injective heq).1).trans hre')
  exact Prod.ext rfl heq

/-- A job every 1000 seconds. -/
def sampleEntry : ScheduleEntry where
  id := "s"
  kind := "mail"
  payload := []
  queue := "q"
  maxRetry := 3
  schedule := ⟨fun t => t / second * second + 1000 * second⟩

/-- One pass of an instance with the default term of leadership. -/
def samplePass : Job := ⟨5 * second, [sampleEntry], 1⟩

theorem registers_samplePass : Registers (fun _ => sampleEntry) samplePass := by
  intro e he
  exact (List.mem_singleton.mp he).symm

/-- Two passes see the first trigger due, and it is enqueued once. -/
theorem due_trigger_enqueued_once : ∃ c : Deployment,
    (fenced fun _ => sampleEntry).machine.Reachable
      ((fenced fun _ => sampleEntry).machine.boot Cluster.init []) c ∧
      1 ≤ c.world.timesEnqueued "s" (1000 * second) ∧
      c.world.timesEnqueued "s" (1000 * second) ≤ 1 := by
  have hallow : ∀ i c w, w.lapsed.isEmpty = true →
      (fenced fun _ => sampleEntry).allow i c w := by
    intro i c w h
    rw [List.isEmpty_iff] at h
    cases c with
    | now => trivial
    | setLastFired id time => trivial
    | getLastFired id =>
      intro last _ t ht
      rw [h] at ht
      cases ht
    | enqueuePeriodic msg tid ttl =>
      intro hmem
      rw [h] at hmem
      cases hmem
  obtain ⟨c, hr, hc⟩ := (player_sound true hallow (fun _ => trivial)).exists_reaches
    [.spawn samplePass, .step 0 true, .step 0 true, .step 0 true, .env (1000 * second),
      .spawn samplePass, .spawn samplePass, .step 1 true, .step 1 true, .step 2 true,
      .step 2 true, .step 2 true, .step 1 true]
    (And.intro registers_samplePass
      (And.intro registers_samplePass (And.intro registers_samplePass trivial)))
    Cluster.init []
    (fun w => decide (1 ≤ w.timesEnqueued "s" (1000 * second))) (by decide +kernel)
  have hsample : sampleEntry.schedule.HasInterval (1000 * second) :=
    ⟨by decide, by decide, fun _ => rfl⟩
  exact ⟨c, hr, of_decide_eq_true hc, trigger_enqueued_once
    (fun _ => ⟨hsample.advances, hsample.wholeSeconds⟩) hr _ _⟩

/-- An instance enqueues the trigger of second 1000 and crashes before it can persist
it.  A hundred seconds later the deduplication key is gone, the last fired time is
still the baseline, and the next instance enqueues the trigger again; no pass was
open for any time. -/
theorem trigger_enqueued_twice : ∃ c : Deployment,
    (timely (fun _ => sampleEntry) (5 * second)).machine.Reachable
      ((timely (fun _ => sampleEntry) (5 * second)).machine.boot Cluster.init []) c ∧
      1 < c.world.timesEnqueued "s" (1000 * second) := by
  let check : Nat → Cmd → Cluster → Bool := fun i c w =>
    match c with
    | .now => true
    | _ => decide (w.now ≤ (w.view i).now + wrap64 (10 * (5 * second)))
  have hallow : ∀ i c w, check i c w = true →
      (timely (fun _ => sampleEntry) (5 * second)).allow i c w := by
    intro i c w h
    cases c with
    | now => exact Or.inl rfl
    | getLastFired | setLastFired | enqueuePeriodic => exact Or.inr (of_decide_eq_true h)
  obtain ⟨c, hr, hc⟩ := (player_sound false hallow (fun h => nomatch h)).exists_reaches
    [.spawn samplePass, .step 0 true, .step 0 true, .step 0 true, .env (1000 * second),
      .spawn samplePass, .step 1 true, .step 1 true, .step 1 true, .crash 1,
      .env (1100 * second), .spawn samplePass, .step 2 true, .step 2 true, .step 2 true]
    (And.intro ⟨rfl, registers_samplePass⟩ (And.intro ⟨rfl, registers_samplePass⟩
      (And.intro trivial (And.intro ⟨rfl, registers_samplePass⟩ trivial))))
    Cluster.init []
    (fun w => decide (1 < w.timesEnqueued "s" (1000 * second))) (by decide +kernel)
  exact ⟨c, hr, of_decide_eq_true hc⟩

end ChronosGo.Scheduler
