import ChronosGo.LeaderTenure

/-! # A leader that renews in time

A scheduler renews its term at half of its length, at the latest after twenty seconds
(`renewEvery`).  If elections are executed that often, with some slack, the leader never
changes: its term is running whenever another scheduler asks.
-/
namespace ChronosGo.Leadership
open Interleaving Lease
open Slot (ttlMillis)

variable {s : Scheduler} {ss : List Scheduler} {turns : Scheduler → Nat}
  {a b : Trace Instr Instr.Reply Job World}

/-- When the last election of the record took place. -/
def lastElection : List Deed → Option Int
  | [] => none
  | .election t _ _ _ :: _ => some t
  | _ :: l => lastElection l

/-- Time passes no further than `slack` beyond the scheduler's next renewal. -/
def KeepsUp (s : Scheduler) (slack : Int) (w : World) (t : Int) : Prop :=
  ∀ t₀, lastElection (w.fields s.id).log = some t₀ → t ≤ t₀ + s.renewEvery + slack

/-- Renewals come before the end of the term. -/
theorem renewEvery_lt (s : Scheduler) (hs : 0 < s.leaderTTL) :
    s.renewEvery < ttlMillis s.leaderTTL := by
  have hhalf : s.renewEvery ≤ s.leaderTTL / 2 := by
    unfold Scheduler.renewEvery
    rw [Int.tdiv_eq_ediv_of_nonneg (by omega)]
    omega
  unfold ttlMillis
  rw [Int.tdiv_eq_ediv_of_nonneg (by omega)]
  omega

/-- Once it has won an election, and until it resigns, the scheduler's term runs from its
last election on. -/
def Holds (s : Scheduler) (l : List Deed) (now : Int) : Prop :=
  (∃ t ttl answered, Deed.election t ttl true answered ∈ l) → Deed.resignation ∉ l →
    ∃ t₀, lastElection l = some t₀ ∧ term l = some (t₀ + ttlMillis s.leaderTTL) ∧
      now < t₀ + ttlMillis s.leaderTTL

section Holds
variable {w w' : World}

theorem holds_nil {now : Int} : Holds s [] now := by
  rintro ⟨t, ttl, answered, hwon⟩
  exact absurd hwon List.not_mem_nil

theorem Holds.cons {l : List Deed} {now : Int} (h : Holds s l now) {d : Deed}
    (hd : d.isElection = false) : Holds s (d :: l) now := by
  rintro ⟨t, ttl, answered, hwon⟩ hresign
  have hwon' : Deed.election t ttl true answered ∈ l := by
    rcases List.mem_cons.mp hwon with rfl | hwon
    · cases hd
    · exact hwon
  have hold := h ⟨t, ttl, answered, hwon'⟩ fun hr => hresign (List.mem_cons_of_mem d hr)
  cases d with
  | election => cases hd
  | resignation => exact absurd List.mem_cons_self hresign
  | started | cancellation | pass | stopped => exact hold

/-- A deed of any scheduler that is not an election. -/
theorem holds_modify (h : Holds s (w.fields s.id).log w.now) {id : String} {f : Fields → Fields}
    {d : Deed} (hd : d.isElection = false) (hf : ∀ x, (f x).log = d :: x.log) :
    Holds s ((w.modify id f).fields s.id).log w.now := by
  by_cases hid : s.id = id
  · subst hid
    rw [fields_modify_self, hf]
    exact h.cons hd
  · rw [fields_modify_of_ne hid]
    exact h

/-- An election of any scheduler: the leader's own renews its term. -/
theorem holds_elect (h : Holds s (w.fields s.id).log w.now)
    (hagree : Agrees w.leader w.terms w.now) {id : String} {ttl : Int}
    (hid : id = s.id → ttl = s.leaderTTL) (answered : Bool) :
    Holds s ((w.elect id ttl answered).fields s.id).log w.now := by
  by_cases heq : id = s.id
  · have httl := hid heq
    subst heq httl
    rw [World.elect, fields_modify_self]
    intro hwon hresign
    have hresign' : Deed.resignation ∉ (w.fields s.id).log := fun hr =>
      hresign (List.mem_cons_of_mem _ hr)
    have hgrant : (acquire w.leader s.id w.now (ttlMillis s.leaderTTL)).1 = true := by
      by_contra hlost
      -- an earlier election was won, so that the term is running
      obtain ⟨t, ttl, a, hwon⟩ := hwon
      have hwon' : Deed.election t ttl true a ∈ (w.fields s.id).log := by
        rcases List.mem_cons.mp hwon with hnew | hwon
        · obtain ⟨-, -, hwin, -⟩ := Deed.election.inj hnew
          exact absurd hwin.symm hlost
        · exact hwon
      obtain ⟨t₀, -, hterm, hnow⟩ := h ⟨t, ttl, a, hwon'⟩ hresign'
      exact hlost ((hagree.acquire_iff _).mpr fun j hj => hagree.exclusive hj ⟨_, hterm, hnow⟩)
    have hpos := ttlMillis_pos s.leaderTTL
    refine ⟨w.now, rfl, ?_, by omega⟩
    change term (.election w.now s.leaderTTL _ answered :: _) = _
    rw [hgrant]
    rfl
  · rw [World.elect, fields_modify_of_ne (Ne.symm heq)]
    exact h

theorem holds_cancelRun (h : Holds s (w.fields s.id).log w.now) (id : String) :
    Holds s ((w.cancelRun id).fields s.id).log w.now := by
  unfold World.cancelRun
  exact holds_modify h (d := .cancellation) rfl fun _ => rfl

theorem holds_exec {c : Instr} {r : c.Reply} (h : Holds s (w.fields s.id).log w.now)
    (hagree : Agrees w.leader w.terms w.now)
    (hc : ∀ id ttl, c = .acquireOrRenew id ttl → id = s.id → ttl = s.leaderTTL)
    (he : w.Exec c r w') : Holds s (w'.fields s.id).log w'.now := by
  -- stores that leave the record alone
  have hstore : ∀ {id : String} {f : Fields → Fields}, (∀ x, (f x).log = x.log) →
      Holds s ((w.modify id f).fields s.id).log w.now := by
    intro id f hf
    by_cases hid : s.id = id
    · subst hid
      rw [fields_modify_self, hf]
      exact h
    · rw [fields_modify_of_ne hid]
      exact h
  cases c with
  | start id =>
    subst he
    exact holds_modify h (d := .started) rfl fun _ => rfl
  | pass id c =>
    subst he
    exact holds_modify h (d := .pass) rfl fun _ => rfl
  | storeLeader id | wgDone id =>
    subst he
    exact hstore fun _ => rfl
  | swapLeader id =>
    obtain ⟨-, rfl⟩ := he
    exact hstore fun _ => rfl
  | acquireOrRenew id ttl =>
    rcases he with ⟨-, rfl⟩ | ⟨-, rfl | rfl⟩
    · exact holds_elect h hagree (hc id ttl rfl) true
    · exact holds_elect h hagree (hc id ttl rfl) false
    · exact h
  | cancel id =>
    subst he
    split
    · exact holds_cancelRun h id
    · exact h
  | resign id =>
    rcases he with rfl | ⟨-, rfl⟩
    · exact holds_modify (w := { w with leader := release w.leader id w.now })
        (f := fun f => f.record .resignation) h (d := .resignation) rfl fun _ => rfl
    · exact h
  | wait id =>
    rcases he with ⟨-, -, rfl⟩ | ⟨-, rfl⟩
    · exact holds_modify h (d := .stopped) rfl fun _ => rfl
    · exact h
  | select id | ctxErr id | loadLeader id =>
    obtain ⟨-, rfl⟩ := he
    exact h
  | publish id | registry c =>
    subst he
    exact h

end Holds

/-- Only the scheduler itself asks in its name. -/
theorem eq_of_mem_jobs (hss : (ss.map Scheduler.id).Nodup) {s' : Scheduler} {n : Nat}
    (hs : s ∈ ss) (hmem : Job.run s' n ∈ jobs ss turns) (hid : s'.id = s.id) : s' = s := by
  rcases List.mem_append.mp hmem with hmem | hmem
  · obtain ⟨s'', hs'', heq⟩ := List.mem_map.mp hmem
    cases heq
    exact List.inj_on_of_nodup_map hss hs'' hs hid
  · obtain ⟨s'', -, heq⟩ := List.mem_map.mp hmem
    cases heq

/-- What is kept about a scheduler that renews in time. -/
structure Led (ss : List Scheduler) (turns : Scheduler → Nat) (s : Scheduler)
    (t : Trace Instr Instr.Reply Job World) : Prop where
  inv : Inv (jobs ss turns) t
  agrees : Agrees t.world.leader t.world.terms t.world.now
  holds : Holds s (t.world.fields s.id).log t.world.now

theorem agrees_act {timely : World → Int → Prop}
    (h : Agrees a.world.leader a.world.terms a.world.now)
    (hab : (machine timely).Act protocol a b) :
    Agrees b.world.leader b.world.terms b.world.now := by
  cases hab with
  | call _ _ he => exact agrees_exec h he
  | fork => exact h
  | spawn => exact h
  | env he =>
    rcases he with ⟨t, ht, -, rfl⟩ | ⟨id, rfl⟩
    · exact h.later ht
    · rw [World.cancelRun, terms_modify_of_eq rfl]
      exact h

section Led
variable {slack : Int}

theorem led_act (hss : (ss.map Scheduler.id).Nodup) (hs : s ∈ ss)
    (hslack : s.renewEvery + slack < ttlMillis s.leaderTTL) (h : Led ss turns s a)
    (hab : (machine (KeepsUp s slack)).Act protocol a b) : Led ss turns s b := by
  have hjs := distinct_jobs hss turns
  refine ⟨inv_act hjs h.inv hab, agrees_act h.agrees hab, ?_⟩
  cases hab with
  | @call w w' ps i p c r hp hc he =>
    refine holds_exec h.holds h.agrees (fun id ttl heq hid => ?_) he
    subst heq
    obtain ⟨job, hist⟩ := p
    have hmem : job ∈ jobs ss turns := by
      rw [← h.inv.jobs]
      exact List.mem_map_of_mem (f := Proc.job) (List.mem_of_getElem? hp)
    rcases hjs.kind job hmem with ⟨s', n, rfl⟩ | ⟨s', rfl⟩
    · cases hc
      rw [eq_of_mem_jobs hss hs hmem hid]
    · cases hc
  | fork | spawn => exact h.holds
  | env he =>
    rcases he with ⟨t, -, hkeeps, rfl⟩ | ⟨id, rfl⟩
    · intro hwon hresign
      obtain ⟨t₀, hlast, hterm, -⟩ := h.holds hwon hresign
      have hle := hkeeps t₀ hlast
      exact ⟨t₀, hlast, hterm, by change t < _; omega⟩
    · exact holds_cancelRun h.holds id

/-- **A leader that renews in time stays the leader.**  If no more time passes between
two executed elections of a scheduler than its renewal interval and some slack, short of
its term, then from the first election it wins until it resigns the key names it at all
times, and every other scheduler is refused. -/
theorem timely_leader_stays (hss : (ss.map Scheduler.id).Nodup)
    {d : Config Instr Instr.Reply Job World} (hs : s ∈ ss)
    (hslack : s.renewEvery + slack < ttlMillis s.leaderTTL)
    (hr : (machine (KeepsUp s slack)).Reachable (boot (KeepsUp s slack) ss turns) d)
    (hwon : ∃ t ttl answered, Deed.election t ttl true answered ∈ (d.world.fields s.id).log)
    (hstay : Deed.resignation ∉ (d.world.fields s.id).log) :
    holder d.world.leader d.world.now = some s.id ∧
      ∀ id ttl won w', id ≠ s.id → d.world.Exec (.acquireOrRenew id ttl) (some won) w' →
        won = false := by
  obtain ⟨ps, hled, -⟩ := Discipline.invariant (machine_obeys (KeepsUp s slack))
    (I := Led ss turns s) ⟨inv_init _, agrees_none 0, holds_nil⟩
    (fun _ _ => led_act hss hs hslack) hr
  obtain ⟨t₀, -, hterm, hnow⟩ := hled.holds hwon hstay
  have hagree := hled.agrees
  have hrunning : d.world.terms.Running d.world.now s.id := ⟨_, hterm, hnow⟩
  refine ⟨hagree.holder_iff.mpr hrunning, fun id ttl won w' hne he => ?_⟩
  rcases he with ⟨hwon, -⟩ | ⟨hwon, -⟩
  · cases hwon
    by_contra hgrant
    exact hne (((hagree.acquire_iff _).mp (by simpa using hgrant)) s.id hrunning).symm
  · cases hwon

end Led

/-- `KeepsUp`, computed. -/
def keepsUp (s : Scheduler) (slack : Int) (w : World) (t : Int) : Bool :=
  (lastElection (w.fields s.id).log).all fun t₀ => decide (t ≤ t₀ + s.renewEvery + slack)

theorem keepsUp_sound {slack : Int} {w : World} {t : Int} (h : keepsUp s slack w t = true) :
    KeepsUp s slack w t := by
  intro t₀ ht₀
  rw [keepsUp, ht₀] at h
  exact of_decide_eq_true h

/-- The first scheduler renews once; at the end of its first term the second one starts. -/
def renewedTerm : List (Choice Wake Int Job) :=
  sampleStart 0 ++ [.env (5 * second / 2), .step 0 .renew, .step 0 .tick, .step 0 .tick,
    .step 0 .tick, .env (5 * second)] ++ sampleStart 1

/-- With renewals on schedule the first scheduler leads beyond its first term. -/
theorem renewed_leader_stays :
    ∃ d, (machine (KeepsUp (sampleScheduler "a") 0)).Reachable
        (boot (KeepsUp (sampleScheduler "a") 0) [sampleScheduler "a", sampleScheduler "b"]
          fun _ => 1) d ∧
      d.world.now = 5 * second ∧
      (d.world.fields "b").log = [.election (5 * second) (5 * second) false true, .started] ∧
      holder d.world.leader d.world.now = some "a" := by
  obtain ⟨d, hr, hd⟩ := (player_sound (keepsUp (sampleScheduler "a") 0)
    (KeepsUp (sampleScheduler "a") 0) fun _ _ => keepsUp_sound).exists_reachable renewedTerm trivial
    (boot (KeepsUp (sampleScheduler "a") 0) [sampleScheduler "a", sampleScheduler "b"] fun _ => 1)
    (fun w => decide (w.now = 5 * second ∧
      (w.fields "b").log = [.election (5 * second) (5 * second) false true, .started] ∧
      (w.fields "a").log = [.election (5 * second / 2) (5 * second) true true,
        .election 0 (5 * second) true true, .started])) (by decide +kernel)
  obtain ⟨hnow, hb, ha⟩ := of_decide_eq_true hd
  have hslack :
      (sampleScheduler "a").renewEvery + 0 < ttlMillis (sampleScheduler "a").leaderTTL := by
    rw [Int.add_zero]
    exact renewEvery_lt _ (by decide)
  have hwon : ∃ t ttl answered, Deed.election t ttl true answered ∈
      (d.world.fields (sampleScheduler "a").id).log :=
    ⟨5 * second / 2, 5 * second, true,
      by rw [show (sampleScheduler "a").id = "a" from rfl, ha]; simp⟩
  have hstay : Deed.resignation ∉ (d.world.fields (sampleScheduler "a").id).log := by
    rw [show (sampleScheduler "a").id = "a" from rfl, ha]
    decide
  exact ⟨d, hr, hnow, hb,
    (timely_leader_stays (by decide) List.mem_cons_self hslack hr hwon hstay).1⟩

end ChronosGo.Leadership
