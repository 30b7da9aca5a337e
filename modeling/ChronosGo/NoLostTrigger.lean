import ChronosGo.Scheduler

/-! # Redis errors and the last fired time

One leader makes its passes over one entry, and each request may fail without
effect.  An activation between the first baseline and the last fired time that is
persisted should have been enqueued, or dropped by the misfire policy in a pass
that knew what it was doing (`Cluster.Accounted`).

A failed enqueue does no harm: the last fired time stays, and the next pass tries
again.  A failed read does: `lastFiredOrInit` takes it for a schedule that was never
seen, and writes the clock over the last fired time.  As long as such a write skips
no activation, all are accounted for (`activation_accounted`); `activation_lost` is
a run in which it does.
-/
namespace ChronosGo.Scheduler
open Interleaving

variable {g : Regime} {i : Nat} {c : Cmd} {w w' : Cluster} {e : ScheduleEntry} {msg : TaskMessage}
  {last : Int} {t : Chronicle} {r : c.Reply}

/-! ## Activations that are accounted for -/

/-- The trigger of the activation has been enqueued. -/
def Cluster.Enqueued (w : Cluster) (e : ScheduleEntry) (a : Int) : Prop :=
  (e.queue, triggerID e.id a) ∈ w.enqueued

/-- The activation was dropped by the misfire policy, in a pass that had read the last
fired time as it was persisted and saw at least two activations elapsed. -/
def Cluster.Skipped (w : Cluster) (e : ScheduleEntry) (a : Int) : Prop :=
  ∃ m ∈ w.writes, m.schedule = e.id ∧ ∃ last : Int, m.persisted = some last ∧
    m.read = some (some (last * second)) ∧
    e.schedule.next (e.schedule.next (last * second)) ≤ m.now ∧
    last * second < a ∧ a ≤ (computeFires e.schedule (last * second) m.now e.misfire).2 ∧
    a ∉ (computeFires e.schedule (last * second) m.now e.misfire).1

def Cluster.Accounted (w : Cluster) (e : ScheduleEntry) (a : Int) : Prop :=
  w.Enqueued e a ∨ w.Skipped e a

/-! ## Runs of one leader -/

/-- The read of the pass gave no last fired time. -/
def View.Blind (v : View) (id : String) : Prop :=
  ∀ last, v.read ≠ some (id, some (some last))

/-- All runs in which requests may fail. -/
def faulty : Regime where
  spawn := fun _ => False
  allow := fun _ _ _ => True
  faults := True
  lost := False
  crash := True

/-- Runs in which a pass that could not read the last fired time overwrites it only
with a time that has the same next activation. -/
def sighted (e : ScheduleEntry) : Regime where
  spawn := fun _ => False
  allow := fun i c w =>
    match c with
    | .setLastFired id time => (w.view i).Blind id → ∀ last, w.lastFired id = some last →
      e.schedule.next (unix time * second) = e.schedule.next (last * second)
    | _ => True
  faults := True
  lost := False
  crash := True

/-! ## What a command keeps -/

theorem enqueued_mono (he : g.exec i c w r w') {d : String × String} (hd : d ∈ w.enqueued) :
    d ∈ w'.enqueued := by
  rcases enqueued_exec he with h | ⟨msg, tid, ttl, -, -, -, h⟩
  · exact h ▸ hd
  · exact h ▸ List.mem_cons_of_mem _ hd

theorem writes_mono (he : g.exec i c w r w') {m : LastFiredWrite} (hm : m ∈ w.writes) :
    m ∈ w'.writes := by
  rcases he with ⟨-, rfl, -⟩ | ⟨-, -, rfl⟩
  · cases c with
    | setLastFired id time => exact List.mem_cons_of_mem _ hm
    | now => exact hm
    | getLastFired id => exact hm
    | enqueuePeriodic msg tid ttl => exact hm
  · exact hm

/-- What is accounted for stays so. -/
theorem Cluster.Accounted.exec {a : Int} (h : w.Accounted e a) (he : g.exec i c w r w') :
    w'.Accounted e a := by
  rcases h with h | ⟨m, hm, h⟩
  · exact Or.inl (enqueued_mono he h)
  · exact Or.inr ⟨m, writes_mono he hm, h⟩

/-- Every deduplication key stands for a trigger that was enqueued. -/
def Cluster.Keyed (w : Cluster) : Prop :=
  ∀ q tid, ((w.slot q).dedup tid).isSome → (q, tid) ∈ w.enqueued

/-- The keys after an enqueue: those from before, and that of the trigger. -/
theorem dedup_enqueuePeriodic {s : Slot} {tid x : String} {ttl now : Int}
    (hx : ((s.enqueuePeriodic msg tid ttl now).1.dedup x).isSome) :
    (s.dedup x).isSome ∨ x = tid ∧ (s.enqueuePeriodic msg tid ttl now).2 = true := by
  by_cases h : x = tid
  · unfold Slot.enqueuePeriodic at hx ⊢
    split at hx
    · exact Or.inl hx
    · rename_i hnone
      exact Or.inr ⟨h, by rw [if_neg hnone]⟩
  · rw [dedup_enqueuePeriodic_of_ne h] at hx
    exact Or.inl hx

theorem Cluster.Keyed.exec (h : w.Keyed) (he : g.exec i c w r w') : w'.Keyed := by
  intro q tid hkey
  by_cases hold : ((w.slot q).dedup tid).isSome
  · exact enqueued_mono he (h q tid hold)
  · rcases he with ⟨-, rfl, -⟩ | ⟨-, -, rfl⟩
    · cases c with
      | enqueuePeriodic msg t ttl =>
        by_cases hq : q = msg.queue
        · subst hq
          simp only [Cluster.see, Cluster.perform, Function.update_self] at hkey
          rcases dedup_enqueuePeriodic hkey with hkey | ⟨rfl, hok⟩
          · exact absurd hkey hold
          · simp [Cluster.see, Cluster.perform, hok]
        · simp only [Cluster.see, Cluster.perform, Function.update_of_ne hq] at hkey
          exact absurd hkey hold
      | now | getLastFired | setLastFired => exact absurd hkey hold
    · exact absurd hkey hold

theorem Cluster.Keyed.tick (h : w.Keyed) (t : Int) : (w.tick t).Keyed := by
  intro q tid hkey
  refine h q tid ?_
  have hfilter : (((w.slot q).dedup tid).filter fun e => decide (t < e)).isSome := hkey
  cases hd : (w.slot q).dedup tid with
  | none =>
    rw [hd] at hfilter
    cases hfilter
  | some e => rfl

/-- An enqueue that was answered without an error leaves its trigger enqueued, by it or
by an earlier one. -/
theorem Cluster.Keyed.answered {tid : String} {ttl : Int} {b : Bool} (h : w.Keyed)
    (he : g.exec i (.enqueuePeriodic msg tid ttl) w (some b) w') :
    (msg.queue, tid) ∈ w'.enqueued := by
  rcases he with ⟨-, rfl, hr | ⟨-, hr⟩⟩ | ⟨-, hr, -⟩
  · by_cases hok : ((w.slot msg.queue).enqueuePeriodic msg tid ttl w.now).2 = true
    · simp [Cluster.see, Cluster.perform, hok]
    · have hkey : ((w.slot msg.queue).dedup tid).isSome := by
        unfold Slot.enqueuePeriodic at hok
        by_contra hnone
        rw [if_neg hnone] at hok
        exact hok rfl
      have hmem := h msg.queue tid hkey
      simpa [Cluster.see, Cluster.perform, hok] using hmem
  · cases hr
  · cases hr

/-! ## Moving the last fired time -/

/-- The activations after the baseline up to the last fired time are accounted for, and
the next one is the schedule's next. -/
def Cluster.Covered (w : Cluster) (e : ScheduleEntry) : Prop :=
  ∀ last, w.lastFired e.id = some last → ∃ base m, w.baseline e.id = some base ∧
    e.schedule.next (last * second) = e.schedule.next^[m + 1] (base * second) ∧
    ∀ n < m, w.Accounted e (e.schedule.next^[n + 1] (base * second))

/-- **A pass that has read the last fired time loses nothing** when it moves it on and
everything due has been enqueued. -/
theorem advance_accounted (hadv : e.schedule.Advances) {now : Int}
    (hne : (computeFires e.schedule (last * second) now e.misfire).2 ≠ last * second)
    (hfires : ∀ t ∈ (computeFires e.schedule (last * second) now e.misfire).1, w.Enqueued e t)
    (hwrite : ⟨e.id, some last, some (some (last * second)), now⟩ ∈ w.writes) :
    ∃ r, (computeFires e.schedule (last * second) now e.misfire).2 =
        e.schedule.next^[r + 1] (last * second) ∧
      ∀ n ≤ r, w.Accounted e (e.schedule.next^[n + 1] (last * second)) := by
  rcases computeFires_spec hadv (last * second) now e.misfire with ⟨-, h⟩ | ⟨r, hle, h⟩
  · rw [h] at hne
    exact absurd rfl hne
  · refine ⟨r, by rw [h], fun n hn => ?_⟩
    by_cases hmem : e.schedule.next^[n + 1] (last * second) ∈
        (computeFires e.schedule (last * second) now e.misfire).1
    · exact Or.inl (hfires _ hmem)
    · -- it is not the only one that has elapsed, so the policy has dropped it
      have hpos : 1 ≤ r := by
        by_contra hr
        obtain ⟨rfl, rfl⟩ : r = 0 ∧ n = 0 := by omega
        rw [h] at hmem
        exact hmem (by simp)
      have htwo : e.schedule.next^[2] (last * second) ≤ e.schedule.next^[r + 1] (last * second) :=
        hadv.iterate_le _ (by omega)
      refine Or.inr ⟨_, hwrite, rfl, last, rfl, rfl, Int.le_trans htwo hle,
        hadv.lt_iterate _ n, ?_, hmem⟩
      rw [h]
      exact hadv.iterate_le _ (by omega)

/-! ## The invariant -/

/-- What is true along a sighted run of one leader with one entry. -/
structure Sighted (j : Job) (e : ScheduleEntry) (t : Chronicle) : Prop where
  tied : Tied t
  alone : ∃ h, t.procs = [⟨j, h⟩]
  keyed : t.world.Keyed
  asked : ∀ msg tid ttl b, Event.call (.enqueuePeriodic msg tid ttl) (some b) ∈ histOf t 0 →
    (msg.queue, tid) ∈ t.world.enqueued
  knows : ∀ last, (t.world.view 0).read = some (e.id, some (some last)) →
    ∃ sec, t.world.lastFired e.id = some sec ∧ last = sec * second
  fresh : t.world.lastFired e.id = none → t.world.baseline e.id = none
  covered : t.world.Covered e

/-- Only a successful write moves the last fired time. -/
theorem lastFired_exec (he : g.exec i c w r w') :
    (w'.lastFired = w.lastFired ∧ w'.baseline = w.baseline) ∨ ∃ id time,
      c = .setLastFired id time ∧ g.allow i c w ∧
      w'.lastFired = Function.update w.lastFired id (some (unix time)) ∧
      w'.baseline = Function.update w.baseline id ((w.baseline id).or (some (unix time))) ∧
      ⟨id, w.lastFired id, (w.view i).read.bind (fun r => r.2), (w.view i).now⟩ ∈ w'.writes := by
  rcases he with ⟨ha, rfl, -⟩ | ⟨-, -, rfl⟩
  · cases c with
    | setLastFired id time => exact Or.inr ⟨id, time, rfl, ha, rfl, rfl, List.mem_cons_self⟩
    | now | getLastFired | enqueuePeriodic => exact Or.inl ⟨rfl, rfl⟩
  · exact Or.inl ⟨rfl, rfl⟩

/-- What the pass has read is what is persisted, until it writes. -/
theorem knows_exec (h : ∀ last, (w.view 0).read = some (e.id, some (some last)) → ∃ sec,
      w.lastFired e.id = some sec ∧ last = sec * second) (he : g.exec 0 c w r w')
    (hread : (w'.view 0).read = some (e.id, some (some last))) :
    ∃ sec, w'.lastFired e.id = some sec ∧ last = sec * second := by
  have hview := Regime.view_exec he
  rw [hview, Function.update_self] at hread
  rcases lastFired_exec he with ⟨hsame, -⟩ | ⟨id, time, rfl, -⟩
  · rw [hsame]
    cases c with
    | now | enqueuePeriodic => exact h last hread
    | setLastFired id time => cases hread
    | getLastFired id =>
      obtain ⟨rfl, rfl⟩ : id = e.id ∧ r = some (some last) := by simpa [View.see] using hread
      rcases he with ⟨-, -, hr | ⟨-, hr⟩⟩ | ⟨-, hr, -⟩
      · obtain ⟨sec, hsec, rfl⟩ := Option.map_eq_some_iff.mp (Option.some.inj hr).symm
        exact ⟨sec, hsec, rfl⟩
      · cases hr
      · cases hr
  · cases hread

/-- A write without knowledge covers what was covered before. -/
theorem Cluster.Covered.blind (hcov : w.Covered e)
    (hfresh : w.lastFired e.id = none → w.baseline e.id = none) {time : Int}
    (hnext : ∀ last, w.lastFired e.id = some last →
      e.schedule.next (unix time * second) = e.schedule.next (last * second))
    (hacc : ∀ a, w.Accounted e a → w'.Accounted e a)
    (hl : w'.lastFired e.id = some (unix time))
    (hb : w'.baseline e.id = (w.baseline e.id).or (some (unix time))) : w'.Covered e := by
  rintro _ hlast
  obtain rfl := Option.some.inj (hl.symm.trans hlast)
  cases hold : w.lastFired e.id with
  | none =>
    rw [hfresh hold] at hb
    exact ⟨unix time, 0, hb, rfl, fun _ hn => absurd hn (Nat.not_lt_zero _)⟩
  | some last =>
    obtain ⟨base, m, hbase, hm, hall⟩ := hcov last hold
    rw [hbase] at hb
    exact ⟨base, m, hb, (hnext last hold).trans hm, fun n hn => hacc _ (hall n hn)⟩

/-- A write that follows a read covers also the activations in between. -/
theorem Cluster.Covered.advance (hcov : w.Covered e) (hwhole : e.schedule.WholeSeconds) {r : Int}
    {k : Nat} (hold : w.lastFired e.id = some last)
    (hr : r = e.schedule.next^[k + 1] (last * second))
    (hnew : ∀ n ≤ k, w'.Accounted e (e.schedule.next^[n + 1] (last * second)))
    (hacc : ∀ a, w.Accounted e a → w'.Accounted e a) (hl : w'.lastFired e.id = some (unix r))
    (hb : w'.baseline e.id = (w.baseline e.id).or (some (unix r))) : w'.Covered e := by
  rintro _ hlast
  obtain rfl := Option.some.inj (hl.symm.trans hlast)
  obtain ⟨base, m, hbase, hm, hall⟩ := hcov last hold
  rw [hbase] at hb
  -- the activations after the old last fired time continue those after the baseline
  have hiter : ∀ n, e.schedule.next^[n + 1] (last * second) =
      e.schedule.next^[m + n + 1] (base * second) := by
    intro n
    rw [Function.iterate_succ_apply, hm, ← Function.iterate_add_apply]
    congr 1
    omega
  have hround : unix r * second = r := by
    rw [hr, Function.iterate_succ_apply']
    exact hwhole.unix_mul _
  refine ⟨base, m + (k + 1), hb, ?_, fun n hn => ?_⟩
  · rw [hround, hr, ← Function.iterate_succ_apply' e.schedule.next, hiter]
  · by_cases hlt : n < m
    · exact hacc _ (hall n hlt)
    · obtain ⟨d, rfl⟩ := Nat.exists_eq_add_of_le (Nat.le_of_not_lt hlt)
      rw [← hiter]
      exact hnew d (by omega)

/-- A write of the leader leaves the activations covered. -/
theorem Sighted.covered_write {j : Job} (hj : j.entries = [e]) (hadv : e.schedule.Advances)
    (hwhole : e.schedule.WholeSeconds) (h : Sighted j e t) {id : String} {time : Int}
    (hc : Justified j (histOf t 0) (.setLastFired id time))
    (hallow : (sighted e).allow 0 (.setLastFired id time) t.world)
    (hacc : ∀ a, t.world.Accounted e a → w'.Accounted e a)
    (henq : ∀ d ∈ t.world.enqueued, d ∈ w'.enqueued)
    (hl : w'.lastFired = Function.update t.world.lastFired id (some (unix time)))
    (hb : w'.baseline = Function.update t.world.baseline id
      ((t.world.baseline id).or (some (unix time))))
    (hw : ⟨id, t.world.lastFired id, (t.world.view 0).read.bind (fun r => r.2),
      (t.world.view 0).now⟩ ∈ w'.writes) : id = e.id ∧ w'.Covered e := by
  have hview := h.tied 0
  have hsole : ∀ e', e' ∈ j.entries → e' = e := fun e' he' => by simpa [hj] using he'
  cases hc with
  | @baseline e' he' r hr hnone =>
    obtain rfl := hsole e' he'
    refine ⟨rfl, h.covered.blind h.fresh (hallow fun last hlast => ?_) hacc (by simp [hl])
      (by simp [hb])⟩
    rw [hview, hr] at hlast
    exact hnone last (Prod.mk.inj (Option.some.inj hlast)).2
  | @advance e' he' last hlast hne hall =>
    obtain rfl := hsole e' he'
    refine ⟨rfl, ?_⟩
    rcases hlast with rfl | hread
    · -- nothing is due at the pass's own clock
      rcases computeFires_spec hadv (viewOf (histOf t 0)).now (viewOf (histOf t 0)).now
          e'.misfire with ⟨-, hnothing⟩ | ⟨k, hle, -⟩
      · rw [hnothing] at hne
        exact absurd rfl hne
      · exact absurd (hadv.lt_iterate (viewOf (histOf t 0)).now k) (by omega)
    · rw [← hview] at hne hall hread hl hb
      obtain ⟨sec, hsec, rfl⟩ := h.knows last hread
      rw [hsec, hread] at hw
      obtain ⟨k, hk, hnew⟩ := advance_accounted hadv hne (fun trigger ht => by
        obtain ⟨ttl, b, hev⟩ := hall trigger ht
        exact henq _ (h.asked _ _ _ _ hev)) hw
      exact h.covered.advance hwhole hsec hk hnew hacc (by simp [hl]) (by simp [hb])

theorem Sighted.act {j : Job} (hj : j.entries = [e]) (hadv : e.schedule.Advances)
    (hwhole : e.schedule.WholeSeconds) {s : Chronicle} (h : Sighted j e s)
    (ha : (sighted e).machine.Act protocol s t) : Sighted j e t := by
  have htied := tied_act h.tied ha
  cases ha with
  | @call w w' ps i p c r hp hc he =>
    obtain ⟨hist, rfl⟩ := h.alone
    obtain ⟨rfl, rfl⟩ : i = 0 ∧ ⟨j, hist⟩ = p := by
      cases i with
      | zero => exact ⟨rfl, Option.some.inj hp⟩
      | succ i => simp at hp
    refine ⟨htied, ⟨_, rfl⟩, h.keyed.exec he, ?_, fun last => knows_exec h.knows he, ?_, ?_⟩
    · intro msg tid ttl b hev
      rcases List.mem_append.mp hev with hev | hev
      · exact enqueued_mono he (h.asked msg tid ttl b hev)
      · cases List.mem_singleton.mp hev
        exact h.keyed.answered he
    · intro hnone
      rcases lastFired_exec he with ⟨hl, hb⟩ | ⟨id, time, rfl, hallow, hl, hb, hw⟩
      · change w'.baseline e.id = none
        rw [hb]
        exact h.fresh (hl ▸ hnone)
      · obtain ⟨rfl, -⟩ := h.covered_write hj hadv hwhole hc hallow
          (fun a hacc => hacc.exec he) (fun _ hd => enqueued_mono he hd) hl hb hw
        change w'.lastFired e.id = none at hnone
        rw [hl, Function.update_self] at hnone
        cases hnone
    · rcases lastFired_exec he with ⟨hl, hb⟩ | ⟨id, time, rfl, hallow, hl, hb, hw⟩
      · intro last hlast
        change w'.lastFired e.id = some last at hlast
        rw [hl] at hlast
        obtain ⟨base, m, hbase, hm, hall⟩ := h.covered last hlast
        refine ⟨base, m, ?_, hm, fun n hn => (hall n hn).exec he⟩
        change w'.baseline e.id = some base
        rw [hb]
        exact hbase
      · exact (h.covered_write hj hadv hwhole hc hallow (fun a hacc => hacc.exec he)
          (fun _ hd => enqueued_mono he hd) hl hb hw).2
  | fork _ hf => exact hf.elim
  | spawn hj => exact hj.elim
  | env he =>
    obtain ⟨t, -, rfl⟩ := he
    exact ⟨htied, h.alone, h.keyed.tick t, h.asked, h.knows, h.fresh, h.covered⟩

theorem Sighted.init (j : Job) (e : ScheduleEntry) :
    Sighted j e ⟨Cluster.init, [j].map fun j => ⟨j, []⟩⟩ where
  tied := tied_init [j]
  alone := ⟨[], rfl⟩
  keyed := fun _ _ hkey => nomatch hkey
  asked := fun _ _ _ _ hev => nomatch hev
  knows := fun _ hread => nomatch hread
  fresh := fun _ => rfl
  covered := fun _ hlast => nomatch hlast

/-- **Redis errors lose no trigger** as long as no pass overwrites blindly: every
activation after the baseline, up to the last fired time that is persisted, has been
enqueued, or was skipped by the misfire policy. -/
theorem activation_accounted {j : Job} {e : ScheduleEntry} (hj : j.entries = [e])
    (hadv : e.schedule.Advances) (hwhole : e.schedule.WholeSeconds)
    {c : Deployment}
    (hr : (sighted e).machine.Reachable ((sighted e).machine.boot Cluster.init [j]) c)
    {base last : Int} (hbase : c.world.baseline e.id = some base)
    (hlast : c.world.lastFired e.id = some last) {n : Nat}
    (hn : e.schedule.next^[n + 1] (base * second) ≤ last * second) :
    c.world.Accounted e (e.schedule.next^[n + 1] (base * second)) := by
  obtain ⟨hs, h, -⟩ := Discipline.invariant (obeys_protocol (sighted e)) (I := Sighted j e)
    (Sighted.init j e) (fun _ _ h ha => h.act hj hadv hwhole ha) hr
  obtain ⟨b, m, hb, hm, hall⟩ := h.covered last hlast
  obtain rfl := Option.some.inj (hb.symm.trans hbase)
  have hlt : last * second < e.schedule.next^[m + 1] (b * second) := hm ▸ hadv (last * second)
  have hidx : n + 1 < m + 1 := hadv.lt_of_iterate_lt (Int.lt_of_le_of_lt hn hlt)
  exact hall n (by omega)

/-- A job every ten seconds. -/
def tenSeconds : ScheduleEntry where
  id := "s"
  kind := "mail"
  payload := []
  queue := "q"
  maxRetry := 3
  schedule := ⟨fun t => t / second * second + 10 * second⟩

/-- Three passes: the baseline at zero, a pass at twelve whose enqueue fails, and one at
fifteen that enqueues and moves the last fired time to ten. -/
theorem failed_enqueue_accounted : ∃ c : Deployment,
    (sighted tenSeconds).machine.Reachable ((sighted tenSeconds).machine.boot Cluster.init
      [⟨5 * second, [tenSeconds], 3⟩]) c ∧
      c.world.lastFired "s" = some 10 ∧ c.world.Accounted tenSeconds (10 * second) := by
  let check : Nat → Cmd → Cluster → Bool := fun i c w =>
    match c with
    | .setLastFired id _ =>
      (w.lastFired id).isNone || (w.view i).read.any fun r => r.1 == id && r.2.join.isSome
    | _ => true
  have hallow : ∀ i c w, check i c w = true → (sighted tenSeconds).allow i c w := by
    intro i c w h
    cases c with
    | setLastFired id time =>
      intro hblind last hlast
      simp only [check, hlast, Option.isNone_some, Bool.false_or, Option.any_eq_true,
        Bool.and_eq_true, beq_iff_eq] at h
      obtain ⟨⟨_, r⟩, hread, rfl, hsome⟩ := h
      obtain ⟨t, ht⟩ := Option.isSome_iff_exists.mp hsome
      have hr : r = some (some t) := Option.join_eq_some_iff.mp ht
      exact absurd (hr ▸ hread) (hblind t)
    | now => trivial
    | getLastFired id => trivial
    | enqueuePeriodic msg tid ttl => trivial
  obtain ⟨c, hr, hc⟩ := (player_sound true hallow (fun _ => trivial)).exists_reaches
    [.step 0 true, .step 0 true, .step 0 true, .env (12 * second), .step 0 true, .step 0 true,
      .step 0 false, .env (15 * second), .step 0 true, .step 0 true, .step 0 true, .step 0 true]
    trivial Cluster.init [⟨5 * second, [tenSeconds], 3⟩]
    (fun w => decide (w.baseline "s" = some 0 ∧ w.lastFired "s" = some 10)) (by decide +kernel)
  obtain ⟨hbase, hlast⟩ := of_decide_eq_true hc
  have hten : tenSeconds.schedule.HasInterval (10 * second) := ⟨by decide, by decide, fun _ => rfl⟩
  exact ⟨c, hr, hlast, activation_accounted rfl hten.advances hten.wholeSeconds hr hbase hlast
    (n := 0) (by decide)⟩

/-- The baseline is zero; at fifteen the read fails, and the pass writes fifteen.  The
activation at ten is behind the last fired time, was never enqueued, and no pass that
knew of it has skipped it. -/
theorem activation_lost : ∃ c : Deployment,
    faulty.machine.Reaches Cluster.init [⟨5 * second, [tenSeconds], 2⟩] c ∧
      c.world.baseline "s" = some 0 ∧ c.world.lastFired "s" = some 15 ∧
      ¬ c.world.Accounted tenSeconds (tenSeconds.schedule.next^[1] (0 * second)) := by
  have hallow : ∀ i c w, (fun _ _ _ => true : Nat → Cmd → Cluster → Bool) i c w = true →
      faulty.allow i c w := fun _ _ _ _ => trivial
  obtain ⟨c, hr, hc⟩ := (player_sound true hallow (fun _ => trivial)).exists_reaches
    [.step 0 true, .step 0 true, .step 0 true, .env (15 * second), .step 0 true, .step 0 false,
      .step 0 true]
    trivial Cluster.init [⟨5 * second, [tenSeconds], 2⟩]
    (fun w => decide (w.baseline "s" = some 0 ∧ w.lastFired "s" = some 15 ∧ w.enqueued = [] ∧
      ∀ m ∈ w.writes, m.read.bind (fun t => t) = none)) (by decide +kernel)
  obtain ⟨hbase, hlast, henq, hblind⟩ := of_decide_eq_true hc
  refine ⟨c, hr, hbase, hlast, ?_⟩
  rintro (h | ⟨m, hm, -, last, -, hread, -⟩)
  · rw [Cluster.Enqueued, henq] at h
    cases h
  · have hnone := hblind m hm
    rw [hread] at hnone
    cases hnone

end ChronosGo.Scheduler
