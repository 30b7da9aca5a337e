import ChronosGo.QueueSetup
import ChronosGo.ViewTriples

/-! # The index of queues

`Inspector.Queues` reports the queues of the index.  A function that makes a task available
registers its queue first, unless its process remembers to have done so; the other
functions rely on a task that was there before.  So in every interleaving a name that some
process remembers is in the index (`Listed.known`), and a queue that is not has nothing in
it (`queues_indexed`).
-/
namespace ChronosGo.Setup
open Interleaving

variable {q : String} {op : Op} {s : Slot} {j : Job} {p : Proc Instr Instr.Reply Job}

abbrev History : Type := List (Event Instr Instr.Reply Job)

/-- The process has seen that the queue is in the index. -/
def Announced (h : History) (q : String) : Prop :=
  (∃ rdb, Event.call (.load rdb q) true ∈ h) ∨ Event.call (.sAdd q) true ∈ h

/-- What a process has seen before it makes a task available, and before it remembers. -/
def Prepared (h : History) : Instr → Prop
  | .store (.redis op) => ∀ q, indexed op = some q → Announced h q
  | .remember _ q => Announced h q
  | .store .now | .store (.retryDelay ..) | .store .ctxDone | .store (.handle _) | .load ..
  | .sAdd _ | .giveUp _ | .ensureGroup _ => True

/-! ## The routines register first -/

variable {h : History}

section Programs
variable {rdb : Nat}

abbrev Prepares {α : Type} (p : Thread α) (h : History) : Prop :=
  p.Follows Prepared (fun _ _ => True) (fun _ _ => True) h

theorem Announced.snoc (ha : Announced h q) (e : Event Instr Instr.Reply Job) :
    Announced (h ++ [e]) q :=
  ha.imp (fun ⟨rdb, he⟩ => ⟨rdb, List.mem_append_left _ he⟩) (List.mem_append_left _)

theorem prepares_registerQueue (q : String) : (registerQueue rdb q).Follows Prepared
    (fun _ _ => True) (fun h' ok => ok = true → Announced h' q) h := by
  refine ⟨trivial, fun known => ?_⟩
  cases known with
  | true => exact fun _ => Or.inl ⟨rdb, List.mem_append_right _ List.mem_cons_self⟩
  | false =>
    refine ⟨trivial, fun ok => ?_⟩
    cases ok with
    | false => exact fun hok => nomatch hok
    | true =>
      have hadded : Announced (h ++ [.call (.load rdb q) false] ++ [.call (.sAdd q) true]) q :=
        Or.inr (List.mem_append_right _ List.mem_cons_self)
      exact ⟨hadded, fun _ _ => hadded.snoc _⟩

theorem prepares_finish {ok : Bool} (hq : indexed op = some q) (hok : ok = true → Announced h q) :
    Prepares (finish ok op) h := by
  cases ok with
  | false => exact ⟨trivial, fun _ => trivial⟩
  | true =>
    refine ⟨fun q' hq' => ?_, fun _ => trivial⟩
    obtain rfl := Option.some.inj (hq.symm.trans hq')
    exact hok rfl

theorem prepares_send (op : Op) : Prepares (send rdb op) h := by
  unfold send
  split
  · rename_i q hq
    exact (prepares_registerQueue q).bind fun h' ok hok => prepares_finish hq hok
  · rename_i hq
    refine ⟨fun q' hq' => ?_, fun _ => trivial⟩
    cases hq.symm.trans hq'

/-- What was registered ahead of the clock is still in the history at the request. -/
theorem prepares_run {α : Type} (p : Routine α) {early : Option (String × Bool)}
    (hearly : ∀ q, early = some (q, true) → Announced h q) : Prepares (run rdb early p) h := by
  induction p generalizing early h with
  | pure a => trivial
  | fork j p ih => exact ⟨trivial, ih fun q hq => nomatch hq⟩
  | call c k ih =>
    have hnext : ∀ (h' : History) r, Prepares (run rdb none (k r)) h' :=
      fun h' r => ih r fun q hq => nomatch hq
    cases c with
    | now =>
      unfold run
      split
      · rename_i q _
        refine (prepares_registerQueue q).bind fun h' ok hok => ⟨trivial, fun now => ih now ?_⟩
        rintro _ ⟨⟩
        exact (hok rfl).snoc _
      · exact ⟨trivial, fun r => hnext _ r⟩
    | redis op =>
      unfold run
      split
      · rename_i q ok
        split
        · rename_i hq
          refine (prepares_finish hq fun hok => hearly q ?_).bind fun h' r _ => hnext h' r
          rw [hok]
        · exact (prepares_send op).bind fun h' r _ => hnext h' r
      · exact (prepares_send op).bind fun h' r _ => hnext h' r
    | retryDelay | ctxDone | handle => exact ⟨trivial, fun r => hnext _ r⟩

theorem prepares_code (j : Job) : Prepares j.code h := by
  cases j with
  | routine rdb j => exact prepares_run j.start fun q hq => nomatch hq
  | start queues =>
    induction queues generalizing h with
    | nil => trivial
    | cons q qs ih =>
      refine ⟨trivial, fun ok => ?_⟩
      cases ok with
      | true => exact ih
      | false => trivial

end Programs

/-- The routines keep to their protocol, and register before they make a task available. -/
def conduct : Discipline Instr Instr.Reply Job where
  call := fun j h c => (erasure.lift protocol).call j h c ∧ Prepared h c
  fork := (erasure.lift protocol).fork
  done := (erasure.lift protocol).done

theorem obeys_conduct (g : Regime) (k : Keys) : (machine g k).Obeys conduct := by
  intro j
  have hbase : j.code.Follows ((erasure.lift protocol).call j) ((erasure.lift protocol).fork j)
      (fun h _ => (erasure.lift protocol).done j h) [] :=
    (refines_code j).follows (h := []) (obeys_protocol g k (erasure.job j))
  exact (hbase.and (prepares_code j)).weaken (fun _ _ hc => hc) (fun _ _ hf => hf.1)
    fun _ _ hd => hd.1

/-! ## Empty queues -/

/-- There is nothing in the queue. -/
structure Unused (s : Slot) : Prop where
  entries : s.stream.entries = []
  pel : s.stream.pel = []
  zset : ∀ z x, x ∉ s.zset z

theorem unused_empty : Unused Slot.empty := ⟨rfl, rfl, fun _ _ => List.not_mem_nil⟩

theorem Unused.queueStats (h : Unused s) : s.queueStats = ⟨0, 0, 0, 0, 0, 0⟩ := by
  have hz : ∀ z, (s.zset z).zcard = 0 := by
    intro z
    rw [← Redis.ZSet.length_members, List.length_eq_zero_iff, List.eq_nil_iff_forall_not_mem]
    exact h.zset z
  simp only [Slot.queueStats, hz, Redis.Stream.xlen, h.entries, h.pel]
  rfl

/-- The requests that put a task elsewhere, for an entry that was delivered. -/
def forEntry : Op → Bool
  | .requeue .. | .moveToZSet .. => true
  | _ => false

theorem unused_read (h : Unused s) (consumer : String) (count : Nat) (now : Int) :
    Unused { s with stream := s.stream.xreadgroup consumer count now } := by
  refine ⟨h.entries, ?_, h.zset⟩
  change s.stream.pel ++ (s.stream.nextEntries count).map _ = []
  rw [h.pel, Redis.Stream.nextEntries, Redis.Stream.undelivered, h.entries]
  simp

theorem unused_claim (h : Unused s) (consumer : String) (minIdle : Int) (count : Nat) (now : Int) :
    Unused { s with stream := s.stream.xautoclaim consumer minIdle count now } := by
  refine ⟨h.entries, ?_, h.zset⟩
  change (s.stream.sweep consumer minIdle count now).1 = []
  rw [Redis.Stream.sweep, h.pel]
  unfold Redis.Stream.claimScan
  split <;> simp_all

theorem unused_ack (h : Unused s) (sids : List Nat) : Unused (s.ack sids) := by
  refine ⟨?_, ?_, h.zset⟩
  · change s.stream.entries.filter _ = []
    rw [h.entries]
    rfl
  · change s.stream.pel.filter _ = []
    rw [h.pel]
    rfl

theorem unused_zremAll (h : Unused s) (id : String) : Unused (s.zremAll id) :=
  ⟨h.entries, h.pel, fun z x hx => h.zset z x ((Slot.mem_zset_zremAll ..).mp hx).1⟩

/-- Nothing is put in an empty queue, unless it was registered or was not empty. -/
theorem unused_move {k : Keys} {t : Slot} (hm : Move k op s t) (hi : indexed op = none)
    (he : forEntry op = false) (h : Unused s) : Unused t := by
  cases hm with
  | quiet h' =>
    refine ⟨?_, ?_, ?_⟩
    · rw [h'.stream]
      exact h.entries
    · rw [h'.stream]
      exact h.pel
    · rw [h'.zset]
      exact h.zset
  | enqueue _ ho | schedule _ _ ho | create _ _ ho => cases ho <;> cases hi
  | read => exact unused_read h _ _ _
  | claim => exact unused_claim h _ _ _ _
  | requeue | move => cases he
  | ack => exact unused_ack h _
  | ackDelete _ _ sid => exact ⟨(unused_ack h [sid]).entries, (unused_ack h [sid]).pel, h.zset⟩
  | mark => exact ⟨h.entries, h.pel, h.zset⟩
  | forward _ _ _ _ _ _ hz => exact absurd hz (h.zset _ _)
  | trim _ _ _ _ _ _ _ hz => exact absurd hz (h.zset _ _)
  | run _ _ _ hz =>
    obtain ⟨z, hz⟩ := hz
    exact absurd hz (h.zset z _)
  | forget => exact unused_zremAll h _
  | delete _ _ id => exact ⟨h.entries, h.pel, (unused_zremAll h id).zset⟩

/-! ## What the processes know -/

/-- A worker's queue is in the index. -/
def JobListed (w : World) : Job → Prop
  | .routine _ (.work q _ _) => q ∈ w.index
  | _ => True

/-- So is a queue that was found in it, or from which an entry was delivered. -/
def EventListed (w : World) : Event Instr Instr.Reply Job → Prop
  | .call (.load _ q) known => known = true → q ∈ w.index
  | .call (.sAdd q) ok => ok = true → q ∈ w.index
  | .call (.store (.redis (.xReadGroup q _ _))) (some entries) => entries ≠ [] → q ∈ w.index
  | .call (.store (.redis (.xAutoClaim q _ _ _))) (some entries) => entries ≠ [] → q ∈ w.index
  | _ => True

section Facts
variable {w w' : World}

theorem JobListed.mono (hle : w.index ⊆ w'.index) (hj : JobListed w j) : JobListed w' j := by
  unfold JobListed at *
  split
  · exact hle hj
  · trivial

theorem EventListed.mono (hle : w.index ⊆ w'.index) {e : Event Instr Instr.Reply Job}
    (he : EventListed w e) : EventListed w' e := by
  unfold EventListed at *
  split
  · exact fun hk => hle (he hk)
  · exact fun hk => hle (he hk)
  · exact fun hk => hle (he hk)
  · exact fun hk => hle (he hk)
  · trivial

theorem Announced.listed (ha : Announced h q) (hh : ∀ e ∈ h, EventListed w e) : q ∈ w.index := by
  obtain ⟨rdb, he⟩ | he := ha
  · exact hh _ he rfl
  · exact hh _ he rfl

/-- An answer that the routine got is one of Redis. -/
theorem did_store {r : op.Reply} (hd : Did (erasure.hist h) op r) :
    Event.call (.store (.redis op)) (some r) ∈ h := by
  obtain ⟨e, he, hsee⟩ := List.mem_filterMap.mp hd
  cases e with
  | fork => cases hsee
  | call c r' =>
    obtain ⟨x, hx, heq⟩ := Option.map_eq_some_iff.mp hsee
    cases c with
    | store c =>
      obtain rfl := Option.some.inj hx
      cases heq
      exact he
    | giveUp op =>
      obtain rfl := Option.some.inj hx
      cases heq
    | load | sAdd | remember | ensureGroup => cases hx

/-- A queue from which a process has an entry is in the index. -/
theorem given_listed {sid : Nat} {id : String} (hj : JobListed w p.job)
    (hh : ∀ e ∈ p.hist, EventListed w e) (hg : Given (erasure.proc p) q sid id) : q ∈ w.index := by
  obtain ⟨job, hist⟩ := p
  cases job with
  | start => exact hg.elim
  | routine rdb j =>
    cases j with
    | work q' sid' msg =>
      obtain ⟨rfl, -⟩ := hg
      exact hj
    | fetch | recover =>
      obtain ⟨rfl, entries, hd, hm⟩ := hg
      exact hh _ (did_store hd) (List.ne_nil_of_mem hm)
    | send | sendAll | deleteTask => exact hg.elim

end Facts

/-! ## The index is complete -/

/-- The index has every queue that is remembered or has something in it. -/
structure Listed (t : Trace Instr Instr.Reply Job World) : Prop where
  sane : Sane (erasure.trace World.base t)
  awaiting : Awaiting t.world
  known : ∀ rdb q, q ∈ t.world.known rdb → q ∈ t.world.index
  unused : ∀ q, q ∉ t.world.index → Unused (t.world.base.slot q)
  knows : t.Knows JobListed EventListed

section Kept
variable {g : Regime} {k : Keys} {i : Nat} {w w' : World} {c : Instr} {r : c.Reply}
  {t t' : Trace Instr Instr.Reply Job World}

theorem index_ensureGroup (w : World) (q : String) : (w.ensureGroup q).index = w.index := by
  unfold World.ensureGroup
  split
  · rfl
  · rfl

theorem known_ensureGroup (w : World) (q : String) : (w.ensureGroup q).known = w.known := by
  unfold World.ensureGroup
  split
  · rfl
  · rfl

/-- What an instruction can do. -/
theorem exec_cases (he : Exec g k i w c r w') :
    w' = w ∨
    (∃ c₀ b, c = .store c₀ ∧ w' = { w with base := b } ∧
      (b.slot = w.base.slot ∨ ∃ op, c₀ = .redis op ∧ b = w.base.perform k i op)) ∨
    (∃ q, c = .sAdd q ∧ w' = { w with index := insert q w.index }) ∨
    (∃ rdb q, c = .remember rdb q ∧
      w' = { w with known := Function.update w.known rdb (insert q (w.known rdb)) }) ∨
    ∃ q, c = .ensureGroup q ∧ w' = w.ensureGroup q := by
  cases c with
  | store c =>
    have hstore : ∀ {b : ChronosGo.World}, g.exec k i c w.base r b →
        b.slot = w.base.slot ∨ ∃ op, c = .redis op ∧ b = w.base.perform k i op := by
      intro b hb
      rcases Regime.exec_cases hb with rfl | ⟨_, _, -, -, rfl⟩ | ⟨op, rfl, -, rfl⟩
      · exact Or.inl rfl
      · exact Or.inl rfl
      · exact Or.inr ⟨op, rfl, rfl⟩
    cases c with
    | redis op =>
      simp only [Exec, ExecStore] at he
      split at he
      · exact Or.inl he.2
      · obtain ⟨b, hb, hw⟩ := he
        exact Or.inr (Or.inl ⟨_, b, rfl, hw, hstore hb⟩)
    | now | retryDelay | ctxDone | handle =>
      obtain ⟨b, hb, hw⟩ := he
      exact Or.inr (Or.inl ⟨_, b, rfl, hw, hstore hb⟩)
  | load => exact Or.inl he.2
  | sAdd q =>
    obtain ⟨hw, -⟩ | ⟨-, -, hw⟩ := he
    · exact Or.inr (Or.inr (Or.inl ⟨q, rfl, hw⟩))
    · exact Or.inl hw
  | giveUp => exact Or.inl he
  | remember rdb q => exact Or.inr (Or.inr (Or.inr (Or.inl ⟨rdb, q, rfl, he⟩)))
  | ensureGroup q =>
    obtain ⟨hw, -⟩ | ⟨-, -, hw⟩ := he
    · exact Or.inr (Or.inr (Or.inr (Or.inr ⟨q, rfl, hw⟩)))
    · exact Or.inl hw

theorem index_mono (he : Exec g k i w c r w') : w.index ⊆ w'.index := by
  rcases exec_cases he with rfl | ⟨_, b, -, rfl, -⟩ | ⟨q, -, rfl⟩ | ⟨_, _, -, rfl⟩ | ⟨q, -, rfl⟩
  · exact subset_rfl
  · exact subset_rfl
  · exact Finset.subset_insert q w.index
  · exact subset_rfl
  · rw [index_ensureGroup]

/-- What an instruction can do to the keys of the queues. -/
theorem slot_cases (hw : Awaiting w) (he : Exec g k i w c r w') :
    w'.base.slot = w.base.slot ∨
      ∃ op, c = .store (.redis op) ∧ w'.base = w.base.perform k i op := by
  rcases exec_cases he with rfl | ⟨_, b, rfl, rfl, hb⟩ | ⟨_, _, -, rfl⟩ | ⟨_, _, -, rfl⟩ |
    ⟨q, -, rfl⟩
  · exact Or.inl rfl
  · obtain hslot | ⟨op, rfl, hb⟩ := hb
    · exact Or.inl hslot
    · exact Or.inr ⟨op, rfl, hb⟩
  · exact Or.inl rfl
  · exact Or.inl rfl
  · rw [base_ensureGroup hw]
    exact Or.inl rfl

theorem known_cases (he : Exec g k i w c r w') : w'.known = w.known ∨
    ∃ rdb q, c = .remember rdb q ∧
      w'.known = Function.update w.known rdb (insert q (w.known rdb)) := by
  rcases exec_cases he with rfl | ⟨_, b, -, rfl, -⟩ | ⟨_, _, -, rfl⟩ | ⟨rdb, q, hc, rfl⟩ |
    ⟨q, -, rfl⟩
  · exact Or.inl rfl
  · exact Or.inl rfl
  · exact Or.inl rfl
  · exact Or.inr ⟨rdb, q, hc, rfl⟩
  · exact Or.inl (known_ensureGroup w q)

/-- An answer to a request is the one of the store. -/
theorem answered {reply : op.Reply} (he : Exec g k i w (.store (.redis op)) (some reply) w') :
    reply = w.base.reply k op := by
  simp only [Exec, ExecStore] at he
  split at he
  · cases he.1
  · obtain ⟨b, he, -⟩ := he
    exact (Regime.exec_answered he).2.2

theorem request_of_call (hc : conduct.call j h (.store (.redis op))) :
    (erasure.job j).Request (erasure.hist h) op :=
  hc.1 none ⟨.redis op, none⟩ rfl

namespace Listed

theorem justified (hl : Listed t) (hp : p ∈ t.procs)
    (hc : conduct.call p.job p.hist (.store (.redis op))) : op.Justified (erasure.proc p) :=
  hl.sane.request (List.mem_map_of_mem hp) (request_of_call hc)

/-- A request that may put something in its queue comes from a process that knows the
queue to be in the index. -/
theorem request_listed (hl : Listed t) (hp : p ∈ t.procs)
    (hc : conduct.call p.job p.hist (.store (.redis op)))
    (hop : indexed op ≠ none ∨ forEntry op = true) : op.queue ∈ t.world.index := by
  obtain ⟨hj, hh⟩ := hl.knows p hp
  have hjust := hl.justified hp hc
  rcases hop with hop | hop
  · obtain ⟨q, hq⟩ := Option.ne_none_iff_exists'.mp hop
    have hlisted := (hc.2 q hq).listed hh
    cases op with
    | groupComplete q' report =>
      obtain rfl := Option.some.inj hq
      rwa [show report.callback.queue = q' from hjust] at hlisted
    | enqueue | schedule | enqueueUnique | scheduleUnique | enqueuePeriodic | chainEnqueue
    | chainSchedule =>
      obtain rfl := Option.some.inj hq
      exact hlisted
    | _ => cases hq
  · cases op with
    | requeue => exact given_listed hj hh hjust
    | moveToZSet => exact given_listed hj hh hjust.1
    | _ => cases hop

theorem unused_call (hl : Listed t) (hp : p ∈ t.procs) (hc : conduct.call p.job p.hist c)
    (he : Exec g k i t.world c r w') (hq : q ∉ w'.index) : Unused (w'.base.slot q) := by
  have hbefore := hl.unused q fun hmem => hq (index_mono he hmem)
  rcases slot_cases hl.awaiting he with hslot | ⟨op, rfl, hbase⟩
  · rw [hslot]
    exact hbefore
  · rw [hbase]
    by_cases hqueue : q = op.queue
    · subst hqueue
      rw [World.slot_perform_self]
      have hop : ¬ (indexed op ≠ none ∨ forEntry op = true) :=
        fun hop => hq (index_mono he (hl.request_listed hp hc hop))
      rw [not_or, not_not, Bool.not_eq_true] at hop
      exact run_invariant (fun _ _ hm => unused_move hm hop.1 hop.2) _ hbefore
    · rw [World.slot_perform_ne hqueue]
      exact hbefore

theorem known_call (hl : Listed t) (hp : p ∈ t.procs) (hc : conduct.call p.job p.hist c)
    (he : Exec g k i t.world c r w') {rdb : Nat} (hq : q ∈ w'.known rdb) : q ∈ w'.index := by
  have hmono := index_mono he
  rcases known_cases he with hsame | ⟨rdb', q', rfl, hknown⟩
  · rw [hsame] at hq
    exact hmono (hl.known rdb q hq)
  · rw [hknown] at hq
    by_cases hrdb : rdb = rdb'
    · subst hrdb
      rw [Function.update_self] at hq
      rcases Finset.mem_insert.mp hq with rfl | hq
      · exact hmono (hc.2.listed (hl.knows p hp).2)
      · exact hmono (hl.known rdb q hq)
    · rw [Function.update_of_ne hrdb] at hq
      exact hmono (hl.known rdb q hq)

/-- An answer that says a queue is in the index is right. -/
theorem event_call (hl : Listed t) (he : Exec g k i t.world c r w') :
    EventListed w' (.call c r) := by
  have hmono := index_mono he
  have hempty : ∀ q, q ∉ w'.index → (t.world.base.slot q).stream.entries = [] :=
    fun q hq => (hl.unused q fun hmem => hq (hmono hmem)).entries
  unfold EventListed
  split
  all_goals first | trivial | (rename_i heq; cases heq)
  · -- the process remembers the queue
    obtain ⟨hr, rfl⟩ := he
    exact fun hk => hl.known _ _ (of_decide_eq_true (hr.symm.trans hk))
  · -- the queue was added
    obtain ⟨rfl, -⟩ | ⟨-, hno, -⟩ := he
    · exact fun _ => Finset.mem_insert_self _ _
    · exact fun hk => absurd (hno.symm.trans hk) Bool.false_ne_true
  · rename_i q consumer count entries
    refine fun hne => by_contra fun hq => hne ?_
    rw [answered he]
    change List.take count (List.filter _ (t.world.base.slot q).stream.entries) = []
    rw [hempty q hq]
    simp
  · rename_i q consumer minIdle count entries
    refine fun hne => by_contra fun hq => hne ?_
    rw [answered he]
    change List.filter _ (t.world.base.slot q).stream.entries = []
    rw [hempty q hq]
    rfl

/-- A worker is started for an entry. -/
theorem job_fork (hl : Listed t) (hp : p ∈ t.procs) (hf : conduct.fork p.job p.hist j) :
    JobListed t.world j := by
  obtain ⟨hj, hh⟩ := hl.knows p hp
  have hmem : erasure.proc p ∈ (erasure.trace World.base t).procs := List.mem_map_of_mem hp
  cases j with
  | start => trivial
  | routine rdb j =>
    cases j with
    | work q sid msg =>
      obtain ⟨job, hist⟩ := p
      cases job with
      | start => exact hf.elim
      | routine rdb' j' =>
        cases j' with
        | fetch q' consumer count keep =>
          cases hf with
          | work hload =>
            obtain ⟨id, hfetched, hd⟩ := hload
            obtain ⟨-, rfl⟩ := hl.sane.loaded hmem hd
            have hgiven : Given (erasure.proc ⟨.routine rdb' (.fetch _ consumer count keep), hist⟩)
                _ sid id := ⟨rfl, hfetched⟩
            exact given_listed hj hh hgiven
        | _ => exact hf.elim
    | _ => trivial

end Listed

theorem listed_act (hg : ∀ j, g.spawn j → j.External) (hf : g.faults) (hs : g.spawn (.sendAll []))
    (hl : Listed t) (ha : (machine g k).Act conduct t t') : Listed t' := by
  have hbase : (machine g k).Act (erasure.lift protocol) t t' :=
    ha.weaken (fun _ _ _ hc => hc.1) fun _ _ _ hf => hf
  have hsane : Sane (erasure.trace World.base t') := by
    rcases (simulates hf hs).act hl.awaiting hbase with heq | hact
    · rw [heq]
      exact hl.sane
    · exact sane_act hg hl.sane hact
  have hmono : t.world.index ⊆ t'.world.index := by
    cases ha with
    | call _ _ he => exact index_mono he
    | @fork _ _ _ _ j => cases j <;> exact subset_rfl
    | spawn => exact subset_rfl
    | env he =>
      obtain ⟨_, -, -, rfl⟩ := he
      exact subset_rfl
  have hknows : t'.Knows JobListed EventListed := by
    refine hl.knows.act ha (fun _ => JobListed.mono hmono) (fun _ => EventListed.mono hmono)
      (fun _ _ _ _ _ _ he => hl.event_call he) (fun _ p j hp hf => ⟨trivial, ?_⟩) fun j hj => ?_
    · exact (hl.job_fork (List.mem_of_getElem? hp) hf).mono hmono
    · cases j with
      | start => trivial
      | routine rdb j =>
        have hexternal := hg j (hj rdb j rfl)
        cases j with
        | work => exact hexternal.elim
        | _ => trivial
  cases ha with
  | call hp hc he =>
    have hmem := List.mem_of_getElem? hp
    exact ⟨hsane, awaiting_exec hl.awaiting he, fun _ _ => hl.known_call hmem hc he,
      fun _ => hl.unused_call hmem hc he, hknows⟩
  | @fork w ps i p j hp hf' =>
    refine ⟨hsane, (simulates (k := k) hf hs).give_kept i ps.length j w hl.awaiting, ?_, ?_, hknows⟩
    · cases j <;> exact hl.known
    · intro q hq
      cases j with
      | start => exact hl.unused q hq
      | routine rdb j =>
        change Unused ((w.base.give i ps.length j).slot q)
        rw [World.slot_give]
        exact hl.unused q hq
  | spawn => exact ⟨hsane, hl.awaiting, hl.known, hl.unused, hknows⟩
  | env he =>
    have hawaiting := (simulates (k := k) hf hs).env_kept _ _ hl.awaiting he
    obtain ⟨now, -, -, rfl⟩ := he
    refine ⟨hsane, hawaiting, hl.known, fun q hq => ?_, hknows⟩
    exact ⟨(hl.unused q hq).entries, (hl.unused q hq).pel, (hl.unused q hq).zset⟩

end Kept

/-- **The index is complete.**  In every interleaving of clients, servers and inspectors,
with commands that fail before or after their effect and processes that stop anywhere, a
queue that is not in the index has nothing in it: the inspector, which goes by the index,
leaves out no task.  And a name that a process remembers, and so does not register
again, is in the index. -/
theorem queues_indexed {g : Regime} {k : Keys} (hg : ∀ j, g.spawn j → j.External) (hf : g.faults)
    (hs : g.spawn (.sendAll [])) {d : Config Instr Instr.Reply Job World}
    (hr : (machine g k).Reachable (boot g k) d) :
    (∀ q, q ∉ d.world.index → (d.world.base.slot q).queueStats = ⟨0, 0, 0, 0, 0, 0⟩) ∧
      ∀ rdb q, q ∈ d.world.known rdb → q ∈ d.world.index := by
  have hinit : Listed ⟨{}, []⟩ :=
    { sane := Sane.init
      awaiting := fun _ _ => ⟨rfl, rfl⟩
      known := fun _ _ hq => absurd hq (Finset.notMem_empty _)
      unused := fun _ _ => unused_empty
      knows := fun _ hp => absurd hp List.not_mem_nil }
  obtain ⟨ps, hl, -⟩ := Discipline.invariant (obeys_conduct g k) hinit
    (fun _ _ hl ha => listed_act hg hf hs hl ha) hr
  exact ⟨fun q hq => (hl.unused q hq).queueStats, hl.known⟩

/-- Two tasks are at work in `"q"`, which is in the index. -/
theorem late_queue_indexed :
    ∃ d, (machine anyRun sampleKeys).Reachable (boot anyRun sampleKeys) d ∧
      (d.world.base.slot "q").queueStats.active = 2 ∧ "q" ∈ d.world.index ∧
      (∀ q, q ∉ d.world.index → (d.world.base.slot q).queueStats = ⟨0, 0, 0, 0, 0, 0⟩) ∧
      ∀ rdb q, q ∈ d.world.known rdb → q ∈ d.world.index := by
  obtain ⟨d, hr, hactive, hindex⟩ := lateGroup_reached
  exact ⟨d, hr, hactive, hindex, queues_indexed (fun _ hj => hj) trivial anyRun_idle hr⟩

end ChronosGo.Setup
