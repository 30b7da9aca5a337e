import ChronosGo.GoroutineShares

/-! # A shutdown loses nothing

What the goroutines of a server share is a sum over them.  So when `Shutdown` finds the
wait group empty the sums are empty too, and since only a goroutine that is counted or
`Start` adds to the group it stays empty: every goroutine is at its end, every slot is
free and no claimed task is in between (`shutdown_complete`).  The same sums say that the
counters are never overdrawn (`counters_not_overdrawn`).
-/
namespace ChronosGo.Lifecycle
open Interleaving

variable {p : Proc Instr Instr.Reply Job} {call : Nat} {hs : List (Proc Instr Instr.Reply Job)}

section Kept
variable {s : Server} {t t' : Trace Instr Instr.Reply Job World} {j j' : Job} {v : Standing}
  {c : Instr} {r : c.Reply} {w w' : World}

/-! ## When the group is empty -/

/-- The order of a shutdown, for one goroutine: in a call that was made after `Start` had
returned, `wg.Wait()` comes after that too and finds the server quiet; and at `wg.Done()`
a goroutine has nothing left. -/
structure Orderly (w : World) (j : Job) (v : Standing) : Prop where
  called : ∀ call, j = .shutdown call → v.called = true → w.early call = false → w.returned = true
  waiting : ∀ call, j = .waiter call → w.early call = false → w.returned = true
  waited : ∀ call, j = .waiter call → v.waited = true → w.early call = false → w.quiet = true
  slots : v.done = true → slots j v.hold = 0
  tasks : v.done = true → tasks j v.hold = 0

/-- The order of a shutdown: a call of `Shutdown` that returns without an error has seen
its channel closed, which was after `wg.Wait()`, and then the group was empty for good. -/
structure Settles (t : Trace Instr Instr.Reply Job World) : Prop where
  wg : WgShared t
  sem : SemShared t
  tasks : TasksShared t
  start : StartShared t
  each : ∀ p ∈ t.procs, Orderly t.world p.job (standing p.hist)
  quiet : t.world.quiet = true → t.world.wg = 0 ∧ t.world.returned = true
  closed : ∀ call, t.world.closed call = true → t.world.early call = false → t.world.quiet = true
  result : ∀ call, t.world.result call = some true → t.world.closed call = true

/-- An entry of the group or a call of `Start` that runs: the server is not quiet. -/
theorem Settles.busy (h : Settles t) (hp : p ∈ t.procs)
    (hbusy : 0 < entries p.job (standing p.hist) ∨ 0 < starting p.job (standing p.hist)) :
    t.world.quiet = false := by
  by_contra hquiet
  obtain ⟨hwg, hreturned⟩ := h.quiet (Bool.eq_true_of_not_eq_false hquiet)
  have hentries := h.wg
  have hstarting := h.start
  obtain ⟨x, hx⟩ := total_eq_add (fun p => entries p.job (standing p.hist)) hp
  obtain ⟨y, hy⟩ := total_eq_add (fun p => starting p.job (standing p.hist)) hp
  simp only [InBalance, hx, hwg] at hentries
  simp only [InBalance, hy, hreturned, Bool.toNat_true] at hstarting
  omega

/-- Only a goroutine that the group counts, or `Start`, adds to it. -/
theorem busy_of_wgAdd (hclear : v.Clear) (h : Works v j .wgAdd) :
    0 < entries j v ∨ 0 < starting j v := by
  rw [entries_of_clear hclear]
  cases h with
  | startAdd h =>
    right
    simp [starting, h]
  | add => exact Or.inl Nat.one_pos
  | loop hc => exact hc.elim

/-- What the instructions that are not of a shutdown leave alone. -/
theorem World.Exec.flags (h : w.Exec s c r w') (hwait : ∀ call, c ≠ .wgWait call)
    (hclose : ∀ call, c ≠ .closeDone call) (hawait : ∀ call, c ≠ .awaitDone call) :
    w'.quiet = w.quiet ∧ w'.closed = w.closed ∧ w'.result = w.result := by
  cases c with
  | wgWait call => exact absurd rfl (hwait call)
  | closeDone call => exact absurd rfl (hclose call)
  | awaitDone call => exact absurd rfl (hawait call)
  | fetch =>
    obtain ⟨b, -, rfl⟩ := h
    exact ⟨rfl, rfl, rfl⟩
  | cancel =>
    obtain rfl := h
    unfold World.cancelBy
    split <;> exact ⟨rfl, rfl, rfl⟩
  | wgDone | tick | ctxErr | inflight =>
    obtain ⟨-, rfl⟩ := h
    exact ⟨rfl, rfl, rfl⟩
  | _ =>
    obtain rfl := h
    exact ⟨rfl, rfl, rfl⟩

/-- What is recorded of a shutdown stays so. -/
structure World.Grows (w w' : World) : Prop where
  early : ∀ call, w'.early call = false → w.early call = false
  returned : w.returned = true → w'.returned = true
  quiet : w.quiet = true → w'.quiet = true

theorem World.Exec.grows (h : w.Exec s c r w') : w.Grows w' := by
  cases c with
  | cancel call =>
    obtain rfl := h
    refine ⟨fun call' hearly => ?_, fun hr => ?_, fun hq => ?_⟩
    · change Function.update w.early call (w.early call || !w.returned) call' = false at hearly
      by_cases hcall : call' = call
      · subst hcall
        rw [Function.update_self] at hearly
        exact (Bool.or_eq_false_iff.mp hearly).1
      · rwa [Function.update_of_ne hcall] at hearly
    · unfold World.cancelBy
      split <;> exact hr
    · unfold World.cancelBy
      split <;> exact hq
  | wgWait =>
    obtain ⟨-, rfl⟩ := h
    exact ⟨fun _ he => he, fun hr => hr, fun hq => Bool.or_eq_true_iff.mpr (Or.inl hq)⟩
  | fetch =>
    obtain ⟨b, -, rfl⟩ := h
    exact ⟨fun _ he => he, fun hr => hr, fun hq => hq⟩
  | started =>
    obtain rfl := h
    exact ⟨fun _ he => he, fun _ => rfl, fun hq => hq⟩
  | wgDone | awaitDone | tick | ctxErr | inflight =>
    obtain ⟨-, rfl⟩ := h
    exact ⟨fun _ he => he, fun hr => hr, fun hq => hq⟩
  | _ =>
    obtain rfl := h
    exact ⟨fun _ he => he, fun hr => hr, fun hq => hq⟩

theorem grows_give (w : World) (j : Job) : w.Grows (w.give j) := by
  cases j <;> exact ⟨fun _ he => he, fun hr => hr, fun hq => hq⟩

/-- At `wg.Done()` a goroutine has nothing left. -/
theorem left_of_wgDone (h : Works v j .wgDone) : slots j v.hold = 0 ∧ tasks j v.hold = 0 := by
  cases h with
  | fetchDone hidle => simp [slots, tasks, hidle.1, hidle.2]
  | workDone hreleased => simp [slots, tasks, hreleased]
  | routineDone | loop | loopDone => exact ⟨rfl, rfl⟩

theorem Orderly.mono (h : Orderly w j v) (hw : w.Grows w') : Orderly w' j v where
  called := fun call hj hv he => hw.returned (h.called call hj hv (hw.early call he))
  waiting := fun call hj he => hw.returned (h.waiting call hj (hw.early call he))
  waited := fun call hj hv he => hw.quiet (h.waited call hj hv (hw.early call he))
  slots := h.slots
  tasks := h.tasks

/-- A step before `wg.Done()` that neither calls `s.cancel` nor waits. -/
theorem Orderly.keep (h : Orderly w j v) {v' : Standing} (hdone : v'.done = false)
    (hcalled : v'.called = v.called) (hwaited : v'.waited = v.waited) : Orderly w j v' where
  called := fun call hj hv => h.called call hj (hcalled.symm.trans hv)
  waiting := h.waiting
  waited := fun call hj hv => h.waited call hj (hwaited.symm.trans hv)
  slots := fun hd => absurd (hdone.symm.trans hd) Bool.false_ne_true
  tasks := fun hd => absurd (hdone.symm.trans hd) Bool.false_ne_true

/-- A goroutine that has done nothing yet. -/
theorem orderly_new (h : ∀ call, j = .waiter call → w.early call = false → w.returned = true) :
    Orderly w j {} where
  called := fun _ _ hv => absurd hv Bool.false_ne_true
  waiting := h
  waited := fun _ _ hv => absurd hv Bool.false_ne_true
  slots := fun hd => absurd hd Bool.false_ne_true
  tasks := fun hd => absurd hd Bool.false_ne_true

theorem job_of_cancel (h : Works v j (.cancel call)) : j = .shutdown call := by
  cases h with
  | cancel => rfl
  | loop hc => exact hc.elim

theorem orderly_call (hclear : v.Clear) (hworks : Works v j c) (he : w.Exec s c r w')
    (h : Orderly w j v) : Orderly w' j (v.see (.call c r)) := by
  have hmono := h.mono he.grows
  cases c with
  | wgDone =>
    obtain ⟨hslots, htasks⟩ := left_of_wgDone hworks
    exact ⟨hmono.called, hmono.waiting, hmono.waited, fun _ => hslots, fun _ => htasks⟩
  | cancel call =>
    -- the call is recorded as early unless `Start` has returned
    obtain rfl := job_of_cancel hworks
    have hcalled : w'.early call = false → w'.returned = true := by
      intro hearly
      obtain rfl := he
      change Function.update w.early call (w.early call || !w.returned) call = false at hearly
      rw [Function.update_self] at hearly
      have hreturned : w.returned = true := by simpa using (Bool.or_eq_false_iff.mp hearly).2
      exact (World.Exec.grows (s := s) (c := .cancel call) (r := ()) rfl).returned hreturned
    refine ⟨?_, (fun _ h => nomatch h), (fun _ h => nomatch h), fun hd => ?_, fun hd => ?_⟩
    · rintro _ ⟨⟩ _
      exact hcalled
    all_goals exact absurd (hclear.2.symm.trans hd) Bool.false_ne_true
  | wgWait =>
    obtain ⟨-, rfl⟩ := he
    refine ⟨hmono.called, hmono.waiting, fun call hj _ hearly => ?_, fun hd => ?_, fun hd => ?_⟩
    · exact Bool.or_eq_true_iff.mpr (Or.inr (h.waiting call hj hearly))
    all_goals exact absurd (hclear.2.symm.trans hd) Bool.false_ne_true
  | _ => exact hmono.keep hclear.2 rfl rfl

theorem orderly_fork (hdone : v.done = false) (hlaunch : Launches v j j') (h : Orderly w j v) :
    Orderly w j (v.see (.fork j')) ∧ Orderly w j' {} := by
  constructor
  · cases j' <;> exact h.keep hdone rfl rfl
  · refine orderly_new fun call hj' hearly => ?_
    subst hj'
    cases hlaunch with
    | waiter _ hcalled => exact h.called call rfl hcalled hearly

theorem orderly_act (h : ∀ p ∈ t.procs, Orderly t.world p.job (standing p.hist))
    (ha : (machine s).Act conduct t t') :
    ∀ p ∈ t'.procs, Orderly t'.world p.job (standing p.hist) := by
  have hgrows : t.world.Grows t'.world := by
    cases ha with
    | call _ _ he =>
      obtain ⟨w₁, he, rfl⟩ := he
      exact ⟨he.grows.early, he.grows.returned, he.grows.quiet⟩
    | fork => exact grows_give _ _
    | spawn => exact ⟨fun _ he => he, fun hr => hr, fun hq => hq⟩
    | env he =>
      obtain rfl := he
      exact ⟨fun _ he => he, fun hr => hr, fun hq => hq⟩
  refine Trace.forall_act (K := fun w p => Orderly w p.job (standing p.hist)) h ha
    (fun p hp => hp.mono hgrows) ?_ ?_ ?_
  · rintro i p c r ⟨hclear, hworks⟩ ⟨w₁, he, hw⟩ hp
    rw [standing_snoc, hw]
    exact (orderly_call hclear hworks he hp).mono ⟨fun _ he => he, fun hr => hr, fun hq => hq⟩
  · intro p j hf hp
    rw [standing_snoc]
    obtain ⟨hold, hnew⟩ := orderly_fork hf.1 hf.2 hp
    exact ⟨hold.mono hgrows, hnew.mono hgrows⟩
  · rintro _ ⟨call, rfl⟩
    exact orderly_new fun _ h => nomatch h

/-- Nobody adds to the group once it was found empty. -/
theorem quiet_call (h : Settles t) (hp : p ∈ t.procs) (hc : conduct.call p.job p.hist c)
    (he : t.world.Exec s c r w') (hq : w'.quiet = true) :
    w'.wg = 0 ∧ w'.returned = true := by
  obtain ⟨hclear, hworks⟩ := hc
  by_cases hplain : c.Plain
  · have hw := he.same hplain
    rw [hw.wg, hw.returned]
    cases c with
    | wgWait =>
      obtain ⟨hwg, rfl⟩ := he
      rcases Bool.or_eq_true_iff.mp hq with hq | hreturned
      · exact h.quiet hq
      · exact ⟨hwg, hreturned⟩
    | closeDone =>
      obtain rfl := he
      exact h.quiet hq
    | awaitDone =>
      obtain ⟨-, rfl⟩ := he
      exact h.quiet hq
    | _ => exact h.quiet ((he.flags (by simp) (by simp) (by simp)).1.symm.trans hq)
  · cases c with
    | fetch =>
      obtain ⟨b, -, rfl⟩ := he
      exact h.quiet hq
    | wgAdd =>
      obtain rfl := he
      exact absurd ((h.busy hp (busy_of_wgAdd hclear hworks)).symm.trans hq) Bool.false_ne_true
    | wgDone =>
      obtain ⟨hpos, rfl⟩ := he
      exact absurd (h.quiet hq).1 (Nat.ne_of_gt hpos)
    | started =>
      obtain rfl := he
      exact ⟨(h.quiet hq).1, rfl⟩
    | _ => exact absurd trivial hplain

theorem waited_of_closeDone (h : Works v j (.closeDone call)) :
    j = .waiter call ∧ v.waited = true := by
  cases h with
  | closeDone hwaited => exact ⟨rfl, hwaited⟩
  | loop hc => exact hc.elim

/-- The channel of a call is closed after `wg.Wait()`. -/
theorem closed_call (h : Settles t) (hp : p ∈ t.procs) (hc : conduct.call p.job p.hist c)
    (he : t.world.Exec s c r w') (hclosed : w'.closed call = true)
    (hearly : w'.early call = false) : w'.quiet = true := by
  have hbefore : t.world.closed call = true → w'.quiet = true := fun hcl =>
    he.grows.quiet (h.closed call hcl (he.grows.early call hearly))
  cases c with
  | closeDone call' =>
    by_cases hcall : call = call'
    · subst hcall
      obtain ⟨hj, hwaited⟩ := waited_of_closeDone hc.2
      exact he.grows.quiet ((h.each p hp).waited call hj hwaited (he.grows.early call hearly))
    · obtain rfl := he
      exact hbefore ((Function.update_of_ne hcall ..).symm.trans hclosed)
  | wgWait | awaitDone =>
    obtain ⟨-, rfl⟩ := he
    exact hbefore hclosed
  | _ =>
    obtain ⟨-, hsame, -⟩ := he.flags (by simp) (by simp) (by simp)
    rw [hsame] at hclosed
    exact hbefore hclosed

/-- `Shutdown` returns without an error when its channel is closed. -/
theorem result_call (h : Settles t) (he : t.world.Exec s c r w')
    (hresult : w'.result call = some true) : w'.closed call = true := by
  cases c with
  | awaitDone call' =>
    obtain ⟨hdone, rfl⟩ := he
    change Function.update t.world.result call' (some r) call = some true at hresult
    by_cases hcall : call = call'
    · subst hcall
      rw [Function.update_self] at hresult
      exact hdone (Option.some.inj hresult)
    · rw [Function.update_of_ne hcall] at hresult
      exact h.result call hresult
  | closeDone call' =>
    obtain rfl := he
    by_cases hcall : call = call'
    · subst hcall
      exact Function.update_self ..
    · exact (Function.update_of_ne hcall ..).trans (h.result call hresult)
  | wgWait =>
    obtain ⟨-, rfl⟩ := he
    exact h.result call hresult
  | _ =>
    obtain ⟨-, hclosed, hsame⟩ := he.flags (by simp) (by simp) (by simp)
    rw [hsame] at hresult
    rw [hclosed]
    exact h.result call hresult

theorem settles_act (h : Settles t) (ha : (machine s).Act conduct t t') : Settles t' := by
  have hwg := wg_act h.wg ha
  have hsem := sem_act h.sem ha
  have htasks := tasks_act h.tasks ha
  have hstart := start_act h.start ha
  have heach := orderly_act h.each ha
  cases ha with
  | call hp hc he =>
    obtain ⟨w₁, he, rfl⟩ := he
    have hmem := List.mem_of_getElem? hp
    have hquiet : w₁.quiet = true → w₁.wg = 0 ∧ w₁.returned = true := quiet_call h hmem hc he
    have hclosed : ∀ call, w₁.closed call = true → w₁.early call = false → w₁.quiet = true :=
      fun _ => closed_call h hmem hc he
    have hresult : ∀ call, w₁.result call = some true → w₁.closed call = true :=
      fun _ => result_call h he
    exact ⟨hwg, hsem, htasks, hstart, heach, hquiet, hclosed, hresult⟩
  | @fork w _ _ _ j _ _ =>
    refine ⟨hwg, hsem, htasks, hstart, heach, ?_, ?_, ?_⟩
    · cases j <;> exact h.quiet
    · cases j <;> exact h.closed
    · cases j <;> exact h.result
  | spawn => exact ⟨hwg, hsem, htasks, hstart, heach, h.quiet, h.closed, h.result⟩
  | env he =>
    obtain rfl := he
    exact ⟨hwg, hsem, htasks, hstart, heach, h.quiet, h.closed, h.result⟩

end Kept

/-! ## The end of a server -/

section Shutdown
variable {s : Server} {rounds : Nat} {ticks : Loop → Nat} {d : Config Instr Instr.Reply Job World}

theorem exists_settles (hr : (machine s).Reachable (boot s rounds ticks) d) :
    ∃ hs, Settles ⟨d.world, hs⟩ ∧ List.Forall₂ conduct.Matches d.procs hs := by
  refine Discipline.invariant (obeys_conduct s) ?_ (fun _ _ h ha => settles_act h ha) hr
  refine ⟨rfl, rfl, rfl, rfl, ?_, ?_, ?_, ?_⟩
  · intro p hp
    obtain rfl := List.mem_singleton.mp hp
    exact orderly_new fun _ h => nomatch h
  · intro h
    exact absurd h Bool.false_ne_true
  · intro _ h
    exact absurd h Bool.false_ne_true
  · intro _ h
    cases h

/-- The instructions of `Shutdown` and of the goroutine it starts. -/
def Instr.OfShutdown : Instr → Prop
  | .cancel _ | .wgWait _ | .closeDone _ | .awaitDone _ => True
  | _ => False

/-- A goroutine that has nothing more to do, but for a call of `Shutdown`. -/
def Ends : Thread Unit → Prop
  | .pure _ => True
  | .call c _ => c.OfShutdown
  | .fork j _ => ∃ call, j = .waiter call

/-- Once the group was found empty, each goroutine is at its end, or part of a call of
`Shutdown`. -/
theorem ends_of_quiet (h : Settles ⟨d.world, hs⟩) (hq : d.world.quiet = true) (hp : p ∈ hs)
    {q : Thread Unit} (hm : conduct.Matches (some q) p) : Ends q := by
  have hidle : ¬ (0 < entries p.job (standing p.hist) ∨ 0 < starting p.job (standing p.hist)) :=
    fun hbusy => absurd ((h.busy hp hbusy).symm.trans hq) Bool.false_ne_true
  have hfollows := hm q rfl
  cases q with
  | pure => trivial
  | call c k =>
    obtain ⟨hclear, hworks⟩ := hfollows.1
    rw [entries_of_clear hclear] at hidle
    generalize p.job = j at hworks hidle
    cases hworks with
    | cancel | awaitDone | wgWait | closeDone => trivial
    | ensureGroup h | setCancel h | startAdd h | started h => simp [starting, h] at hidle
    | _ => simp [Job.counted] at hidle
  | fork j k =>
    obtain ⟨hdone, hlaunch⟩ := hfollows.1
    generalize p.job = j' at hlaunch hidle
    cases hlaunch with
    | waiter => exact ⟨_, rfl⟩
    | fetchLoop h | loop h => simp [entries, h] at hidle
    | _ => simp [entries, Job.counted, hdone] at hidle

/-- The wait group, the channel and the claimed tasks at that point. -/
theorem empty_of_quiet (h : Settles ⟨d.world, hs⟩) (hq : d.world.quiet = true) :
    d.world.base.sem = 0 ∧
      d.world.base.claimed.Perm (d.world.base.started ++ d.world.requeued) := by
  have hleft : ∀ p ∈ hs, slots p.job (standing p.hist).hold = 0 ∧
      tasks p.job (standing p.hist).hold = 0 := by
    intro p hp
    have hidle : ¬ 0 < entries p.job (standing p.hist) :=
      fun hbusy => absurd ((h.busy hp (Or.inl hbusy)).symm.trans hq) Bool.false_ne_true
    cases hj : p.job with
    | fetch j =>
      have hdone : (standing p.hist).done = true := by
        cases hd : (standing p.hist).done with
        | true => rfl
        | false => simp [hj, entries, Job.counted, hd] at hidle
      rw [← hj]
      exact ⟨(h.each p hp).slots hdone, (h.each p hp).tasks hdone⟩
    | _ => exact ⟨rfl, rfl⟩
  have hslots := total_eq_zero fun p hp => (hleft p hp).1
  have htasks := total_eq_zero fun p hp => (hleft p hp).2
  have hsem := h.sem
  have hclaimed := h.tasks
  simp only [InBalance, hslots] at hsem
  simp only [InBalance, htasks, add_zero, Multiset.coe_add] at hclaimed
  exact ⟨hsem, Multiset.coe_eq_coe.mp hclaimed⟩

/-- **A shutdown loses nothing.**  When a call of `Shutdown` that was made after `Start` had
returned has returned without an error, in any interleaving and whatever other calls there
were: no goroutine of the server does anything more, the other calls of `Shutdown` apart;
the wait group is empty and every slot is free; and each task that was claimed was either
given to a worker, which has ended, or returned to the stream. -/
theorem shutdown_complete (hr : (machine s).Reachable (boot s rounds ticks) d) {call : Nat}
    (hresult : d.world.result call = some true) (hafter : d.world.early call = false) :
    (∀ (i : Nat) (p : Thread Unit), d.procs[i]? = some (some p) → Ends p) ∧
      d.world.wg = 0 ∧ d.world.base.sem = 0 ∧
      d.world.base.claimed.Perm (d.world.base.started ++ d.world.requeued) := by
  obtain ⟨hs, hsettles, hmatches⟩ := exists_settles hr
  have hquiet := hsettles.closed call (hsettles.result call hresult) hafter
  refine ⟨fun i p hp => ?_, (hsettles.quiet hquiet).1, empty_of_quiet hsettles hquiet⟩
  obtain ⟨a, ha, hm⟩ := Discipline.matches_getElem hmatches hp
  exact ends_of_quiet hsettles hquiet (List.mem_of_getElem? ha) hm

/-- **The counters are never overdrawn.**  `wg.Done()` is called only on a positive
counter, so it does not panic, and the receive with which the loop or a worker returns its
slot never waits. -/
theorem counters_not_overdrawn (hr : (machine s).Reachable (boot s rounds ticks) d) {i : Nat}
    {p : Thread Unit} (hp : d.procs[i]? = some (some p)) :
    (∀ k, p = .call .wgDone k → 0 < d.world.wg) ∧
      ∀ k, p = .call (.fetch .release) k → 0 < d.world.base.sem := by
  obtain ⟨hs, hsettles, hmatches⟩ := exists_settles hr
  obtain ⟨a, ha, hm⟩ := Discipline.matches_getElem hmatches hp
  have hmem := List.mem_of_getElem? ha
  constructor
  · rintro k rfl
    obtain ⟨hclear, hworks⟩ := (hm _ rfl).1
    have hwg := hsettles.wg
    obtain ⟨x, hx⟩ := total_eq_add (fun p => entries p.job (standing p.hist)) hmem
    simp only [InBalance, hx, entries_of_clear hclear, counted_of_wgDone hworks,
      Bool.toNat_true] at hwg
    omega
  · rintro k rfl
    obtain ⟨hclear, hworks⟩ := (hm _ rfl).1
    have hsem := hsettles.sem
    obtain ⟨x, hx⟩ := total_eq_add (fun p => slots p.job (standing p.hist).hold) hmem
    simp only [InBalance, hx, slots_of_release hworks] at hsem
    omega

end Shutdown

/-! A server that is shut down while a worker has a task. -/

def oneQueue : Server := newServer FetchLoop.sampleConfig "c"

/-- `Start`, and a round of the fetch loop that finds one task. -/
def atWork : List (Choice (List FetchLoop.Dequeued) Empty Job) :=
  steps 0 13 [] ++ steps 1 9 [FetchLoop.sampleDequeued 1 "t"]

/-- `Shutdown` is called and waits; then the worker, the fetch loop and the other loops
end, and the call returns. -/
def shutDown : List (Choice (List FetchLoop.Dequeued) Empty Job) :=
  atWork ++ .spawn (.shutdown 0) :: steps 7 2 [] ++ steps 6 7 [] ++ steps 1 1 [] ++ steps 2 2 [] ++
    steps 3 2 [] ++ steps 4 2 [] ++ steps 5 2 [] ++ steps 8 2 [] ++ steps 7 1 []

/-- The task that was claimed had its worker when the call returned. -/
theorem worker_finished_first :
    ∃ d, (machine oneQueue).Reachable (boot oneQueue 1 fun _ => 1) d ∧
      d.world.base.claimed = [FetchLoop.sampleDequeued 1 "t"] ∧
      d.world.base.started = d.world.base.claimed ∧ d.world.wg = 0 ∧ d.world.base.sem = 0 := by
  obtain ⟨d, hr, hd⟩ := (player_sound oneQueue "").exists_config shutDown
    ⟨⟨0, rfl⟩, trivial⟩ (boot oneQueue 1 fun _ => 1)
    (fun d => decide (d.world.result 0 = some true ∧ d.world.early 0 = false ∧
      d.world.base.claimed = [FetchLoop.sampleDequeued 1 "t"] ∧ d.world.requeued = []))
    (by decide +kernel)
  obtain ⟨hresult, hafter, hclaimed, hrequeued⟩ := of_decide_eq_true hd
  obtain ⟨-, hwg, hsem, hperm⟩ := shutdown_complete hr hresult hafter
  rw [hrequeued, List.append_nil, hclaimed] at hperm
  exact ⟨d, hr, hclaimed, (List.perm_singleton.mp hperm.symm).trans hclaimed.symm, hwg, hsem⟩

/-- A worker that is about to return its slot. -/
def returnsSlot : Option (Option (Thread Unit)) → Bool
  | some (some (.call (.fetch .release) _)) => true
  | _ => false

theorem exists_of_returnsSlot {p : Option (Option (Thread Unit))} (h : returnsSlot p = true) :
    ∃ k, p = some (some (.call (.fetch .release) k)) := by
  unfold returnsSlot at h
  split at h
  · exact ⟨_, rfl⟩
  · cases h

/-- The slot of the worker is there to be returned. -/
theorem slot_there_to_return :
    ∃ d, (machine oneQueue).Reachable (boot oneQueue 1 fun _ => 1) d ∧
      returnsSlot d.procs[6]? = true ∧ 0 < d.world.base.sem := by
  obtain ⟨d, hr, hd⟩ := (player_sound oneQueue "").exists_config (atWork ++ steps 6 5 []) trivial
    (boot oneQueue 1 fun _ => 1) (fun d => returnsSlot d.procs[6]?) (by decide +kernel)
  obtain ⟨k, hp⟩ := exists_of_returnsSlot hd
  exact ⟨d, hr, hd, (counters_not_overdrawn hr hp).2 k rfl⟩

end ChronosGo.Lifecycle
