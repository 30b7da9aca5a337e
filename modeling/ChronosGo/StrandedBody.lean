import ChronosGo.Replay
import ChronosGo.StoreRuns

/-! # No body is stranded

A task hash with a body is of use only while something refers to it: an entry of
the stream that a worker or the recoverer will still see, or one of the four
sorted sets.  References are dropped by acknowledgements, which name an entry and
not a task, and some acknowledgements come late: a worker whose entry was
reclaimed, a fetch round that found a body missing which has been stored again
since.

The invariant sets the *orphaned* entries apart, those some process has found
without a body and may drop at any time: a stored body has a reference that is
not an orphaned entry (`Anchored`).  An entry becomes orphaned only when its task
has no body, so no anchor is lost then; and whoever stores a body adds a reference
of its own.
-/
namespace ChronosGo
open Interleaving Redis

variable {s : Slot} {op : Op} {k : Keys} {sid : Nat} {id q : String} {j : Job} {h : Hist}
  {g : Regime} {t : Chronicle}

/-- Every stored body has a reference outside the entries `orphans`. -/
def Slot.Anchored (s : Slot) (orphans : Set Nat) : Prop :=
  ∀ x m, s.body x = some m →
    s.InZSet x ∨ ∃ sid, (sid, x) ∈ s.stream.entries ∧ sid ∉ orphans

/-- What an acknowledgement relies on: the entry, if it exists, is the task's own,
or is orphaned. -/
def Slot.AckSafe (s : Slot) (orphans : Set Nat) : Op → Prop
  | .ackOrphans _ sids => ∀ sid ∈ sids, sid ∈ orphans
  | .requeue _ sid id | .ackDelete _ sid id => s.EntryIs sid id
  | .moveToZSet _ sid msg _ _ => s.EntryIs sid msg.id
  | _ => True

theorem Slot.AckSafe.grows {t : Slot} {orphans : Set Nat} (h : s.AckSafe orphans op)
    (hg : s.stream.Grows t.stream) : t.AckSafe orphans op := by
  cases op with
  | requeue | ackDelete | moveToZSet => exact Slot.EntryIs.grows h hg
  | _ => exact h

/-- Where the references of a body can go in one move: the task has lost its body,
or was given a new reference, or its references are among the old ones. -/
inductive Slot.Keeps (s t : Slot) (orphans : Set Nat) (x : String) : Prop where
  | gone (h : t.body x = none)
  | fresh (h : (t.stream.lastId, x) ∈ t.stream.entries) (hl : s.stream.lastId < t.stream.lastId)
  | member (h : t.InZSet x)
  | old (hb : t.body x = s.body x) (hz : s.InZSet x → t.InZSet x)
      (he : ∀ sid, (sid, x) ∈ s.stream.entries → sid ∉ orphans → (sid, x) ∈ t.stream.entries)

namespace Slot
variable {t : Slot} {orphans : Set Nat} {x : String}

theorem body_of_not_present (h : (s.task x).present = false) : s.body x = none := by
  unfold TaskHash.present at h
  rw [Bool.or_eq_false_iff, Option.isSome_eq_false_iff, Option.isNone_iff_eq_none] at h
  exact h.1

/-- An appended entry is a fresh reference. -/
theorem keeps_append (s : Slot) (orphans : Set Nat) {t : Slot}
    (ht : t.stream = s.stream.xadd x) : s.Keeps t orphans x := by
  refine .fresh ?_ ?_
  · rw [ht]
    simp
  · rw [ht]
    exact Nat.lt_succ_self _

/-- Acknowledging the entry of one task leaves the others' entries. -/
theorem EntryIs.other {n : Nat} (h : s.EntryIs sid id) (hx : x ≠ id)
    (he : (n, x) ∈ s.stream.entries) : (n, x) ∈ (s.ack [sid]).stream.entries := by
  refine (Stream.mem_entries_xdel _).mpr ⟨he, fun hn => hx ?_⟩
  obtain rfl : n = sid := List.mem_singleton.mp hn
  exact h.2 x he

theorem keeps_move (ha : s.AckSafe orphans op) (hm : Move k op s t) (x : String) :
    s.Keeps t orphans x := by
  cases hm with
  | quiet h =>
    refine .old (h.body x) ?_ ?_
    · rintro ⟨z, hz⟩
      exact ⟨z, by rwa [h.zset]⟩
    · intro sid he _
      rwa [h.stream]
  | @enqueue _ msg _ ho =>
    by_cases hx : x = msg.id
    · subst hx
      exact keeps_append s orphans rfl
    · refine .old (by simp [hx]) ?_ ?_
      · rintro ⟨z, hz⟩
        exact ⟨z, by simp [hx, hz]⟩
      · exact fun sid he _ => List.mem_append_left _ he
  | @schedule _ msg _ at' ho =>
    by_cases hx : x = msg.id
    · exact .member ⟨.scheduled, by simp [hx]⟩
    · refine .old (by simp [hx]) ?_ fun _ he _ => he
      rintro ⟨z, hz⟩
      exact ⟨z, by simp [hx, hz]⟩
  | @create _ msg _ score ho h =>
    by_cases hx : x = msg.id
    · subst hx
      cases score with
      | none => exact keeps_append s orphans rfl
      | some score => exact .member ⟨.scheduled, by simp [placeCallback]⟩
    · refine .old (by simp [hx]) ?_ ?_
      · rintro ⟨z, hz⟩
        refine ⟨z, ?_⟩
        cases score <;> simp [placeCallback, hz]
      · intro sid he _
        cases score with
        | none => exact List.mem_append_left _ he
        | some score => exact he
  | read | claim => exact .old rfl id fun _ he _ => he
  | ack _ q sids =>
    refine .old rfl id fun sid he hs => ?_
    exact (Stream.mem_entries_xdel _).mpr ⟨he, fun hn => hs (ha sid hn)⟩
  | mark _ q id => exact .old (by simp) (fun h => h) fun _ he _ => he
  | requeue _ q sid id =>
    by_cases hp : (s.task id).present
    · have ht : s.requeue sid id = ((s.ack [sid]).setState id .pending).append id := if_pos hp
      rw [ht]
      by_cases hx : x = id
      · subst hx
        refine .fresh ?_ (Nat.lt_succ_self _)
        simp
      · refine .old (by simp) (fun h => h) fun n he _ => ?_
        exact List.mem_append_left _ (EntryIs.other ha hx he)
    · have ht : s.requeue sid id = s.ack [sid] := if_neg hp
      rw [ht]
      by_cases hx : x = id
      · subst hx
        exact .gone (body_of_not_present (Bool.eq_false_iff.mpr hp))
      · exact .old rfl (fun h => h) fun n he _ => EntryIs.other ha hx he
  | ackDelete _ q sid id =>
    by_cases hx : x = id
    · exact .gone (by simp [hx])
    · exact .old (by simp [hx]) (fun h => h) fun n he _ => EntryIs.other ha hx he
  | move _ q sid msg z score =>
    by_cases hx : x = msg.id
    · exact .member ⟨z, by simp [hx]⟩
    · refine .old (by simp [hx]) ?_ fun n he _ => EntryIs.other ha hx he
      rintro ⟨z', hz⟩
      exact ⟨z', by simp [hz]⟩
  | forward _ q z now max id =>
    by_cases hx : x = id
    · subst hx
      exact keeps_append s orphans rfl
    · refine .old (by simp) ?_ fun _ he _ => List.mem_append_left _ he
      rintro ⟨z', hz⟩
      exact ⟨z', by simp [hz, hx]⟩
  | trim _ q z cutoff maxSize batch id =>
    by_cases hx : x = id
    · exact .gone (by simp [hx])
    · refine .old (by simp [hx]) ?_ fun _ he _ => he
      rintro ⟨z', hz⟩
      exact ⟨z', by simp [hz, hx]⟩
  | run _ q id =>
    by_cases hx : x = id
    · subst hx
      exact keeps_append s orphans rfl
    · refine .old (by simp) ?_ fun _ he _ => List.mem_append_left _ he
      rintro ⟨z', hz⟩
      exact ⟨z', by simp [hz, hx]⟩
  | forget _ q id h hp =>
    by_cases hx : x = id
    · subst hx
      exact .gone (body_of_not_present hp)
    · refine .old (by simp) ?_ fun _ he _ => he
      rintro ⟨z', hz⟩
      exact ⟨z', by simp [hz, hx]⟩
  | delete _ q id =>
    by_cases hx : x = id
    · exact .gone (by simp [hx])
    · refine .old (by simp [hx]) ?_ fun _ he _ => he
      rintro ⟨z', hz⟩
      exact ⟨z', by simp [deleteTask, hz, hx]⟩

/-- One move keeps every body anchored. -/
theorem anchored_move (ha : s.AckSafe orphans op) (hle : ∀ sid ∈ orphans, sid ≤ s.stream.lastId)
    (hm : Move k op s t) (h : s.Anchored orphans) : t.Anchored orphans := by
  intro x m hb
  cases keeps_move ha hm x with
  | gone hg =>
    rw [hg] at hb
    cases hb
  | fresh hf hl => exact Or.inr ⟨_, hf, fun ho => absurd (hle _ ho) (Nat.not_le_of_lt hl)⟩
  | member hz => exact Or.inl hz
  | old hs hz he =>
    rw [hs] at hb
    rcases h x m hb with hx | ⟨sid, hx, ho⟩
    · exact Or.inl (hz hx)
    · exact Or.inr ⟨sid, he sid hx ho, ho⟩

theorem anchored_run (now : Int) (ha : s.AckSafe orphans op)
    (hle : ∀ sid ∈ orphans, sid ≤ s.stream.lastId) (h : s.Anchored orphans) :
    (op.run k now s).1.Anchored orphans := by
  have hstep : ∀ s t, Move k op s t → (s.AckSafe orphans op ∧
      (∀ sid ∈ orphans, sid ≤ s.stream.lastId) ∧ s.Anchored orphans) → t.AckSafe orphans op ∧
      (∀ sid ∈ orphans, sid ≤ t.stream.lastId) ∧ t.Anchored orphans :=
    fun s t hm ⟨hsafe, hsle, hs⟩ => ⟨hsafe.grows (grows_move hm),
      fun sid ho => Nat.le_trans (hsle sid ho) (grows_move hm).lastId_le,
      anchored_move hsafe hsle hm hs⟩
  exact (run_invariant hstep now ⟨ha, hle, h⟩).2.2

end Slot

/-! ## Orphaned entries -/

/-- The entries of a queue that some process has found without a body. -/
def orphans (t : Chronicle) (q : String) : Set Nat :=
  { sid | ∃ p ∈ t.procs, Orphaned p q sid }

/-- A process is given entries by its first command only. -/
theorem given_call {c : Cmd} {r : c.Reply} (hc : protocol.call j h c)
    (hg : Given ⟨j, h ++ [.call c r]⟩ q sid id) :
    Given ⟨j, h⟩ q sid id ∨
      h = [] ∧ ∀ q' id', c ≠ Cmd.redis (.getTask q' id') := by
  cases j with
  | work => exact Or.inl hg
  | fetch q' consumer count keep =>
    obtain ⟨rfl, entries, hd, hm⟩ := hg
    rcases List.mem_append.mp hd with hd | hd
    · exact Or.inl ⟨rfl, entries, hd, hm⟩
    · cases List.mem_singleton.mp hd
      cases hc with
      | read hh => exact Or.inr ⟨hh, fun _ _ h => nomatch h⟩
  | recover q' consumer minIdle max =>
    obtain ⟨rfl, entries, hd, hm⟩ := hg
    rcases List.mem_append.mp hd with hd | hd
    · exact Or.inl ⟨rfl, entries, hd, hm⟩
    · cases List.mem_singleton.mp hd
      cases hc with
      | claim hh => exact Or.inr ⟨hh, fun _ _ h => nomatch h⟩
  | _ => exact Or.inl hg

theorem orphaned_call {c : Cmd} {r : c.Reply} (hc : protocol.call j h c)
    (ho : Orphaned ⟨j, h ++ [.call c r]⟩ q sid) :
    Orphaned ⟨j, h⟩ q sid ∨ ∃ id, Given ⟨j, h⟩ q sid id ∧
      (Event.call c r : Event Cmd Cmd.Reply Job) =
        .call (Cmd.redis (.getTask q id)) (some none) := by
  obtain ⟨id, hg, hd⟩ := ho
  rcases given_call hc hg with hg | ⟨rfl, hne⟩
  · rcases List.mem_append.mp hd with hd | hd
    · exact Or.inl ⟨id, hg, hd⟩
    · exact Or.inr ⟨id, hg, (List.mem_singleton.mp hd).symm⟩
  · cases List.mem_singleton.mp hd
    exact absurd rfl (hne q id)

theorem did_fork {r : op.Reply} (hd : Did (h ++ [.fork j]) op r) :
    Did h op r := by
  rcases List.mem_append.mp hd with hd | hd
  · exact hd
  · cases List.mem_singleton.mp hd

theorem given_fork {j' : Job} (hg : Given ⟨j, h ++ [.fork j']⟩ q sid id) :
    Given ⟨j, h⟩ q sid id := by
  cases j with
  | fetch | recover =>
    obtain ⟨rfl, entries, he, hm⟩ := hg
    exact ⟨rfl, entries, did_fork he, hm⟩
  | _ => exact hg

theorem orphaned_fork {j' : Job} (ho : Orphaned ⟨j, h ++ [.fork j']⟩ q sid) :
    Orphaned ⟨j, h⟩ q sid := by
  obtain ⟨id, hg, hd⟩ := ho
  exact ⟨id, given_fork hg, did_fork hd⟩

/-- A process that has just been started has found nothing. -/
theorem not_orphaned_nil : ¬ Orphaned ⟨j, []⟩ q sid :=
  fun ⟨_, _, hd⟩ => absurd hd List.not_mem_nil

/-- **An entry becomes orphaned only when its task has no body.** -/
theorem orphans_act {s : Chronicle} (hs : Sane s)
    (ha : (g.machine k).Act protocol s t) (ho : sid ∈ orphans t q) :
    sid ∈ orphans s q ∨
      ∃ id, (t.world.slot q).EntryIs sid id ∧ (t.world.slot q).body id = none := by
  have hgrow := streamsGrow_act ha
  obtain ⟨p', hp', ho⟩ := ho
  cases ha with
  | @call w w' ps i p c r hp hc he =>
    rcases List.mem_or_eq_of_mem_set hp' with hp' | rfl
    · exact Or.inl ⟨p', hp', ho⟩
    · have hmem := List.mem_of_getElem? hp
      rcases orphaned_call hc ho with ho | ⟨id, hg, hev⟩
      · exact Or.inl ⟨p, hmem, ho⟩
      · cases hev
        obtain ⟨-, rfl, hr⟩ := Regime.exec_answered he
        refine Or.inr ⟨id, (hs.given hmem hg).grows (hgrow q), ?_⟩
        change ((w.perform k i (.getTask q id)).slot (Op.getTask q id).queue).body id = none
        rw [World.slot_perform_self]
        exact hr.symm
  | @fork w ps i p j hp hf =>
    rcases List.mem_append.mp hp' with hp' | hp'
    · rcases List.mem_or_eq_of_mem_set hp' with hp' | rfl
      · exact Or.inl ⟨p', hp', ho⟩
      · exact Or.inl ⟨p, List.mem_of_getElem? hp, orphaned_fork ho⟩
    · rw [List.mem_singleton.mp hp'] at ho
      exact absurd ho not_orphaned_nil
  | spawn =>
    rcases List.mem_append.mp hp' with hp' | hp'
    · exact Or.inl ⟨p', hp', ho⟩
    · rw [List.mem_singleton.mp hp'] at ho
      exact absurd ho not_orphaned_nil
  | env => exact Or.inl ⟨p', hp', ho⟩

/-! ## Runs -/

theorem ackSafe_of_justified (hs : Sane t) {p : Party} (hp : p ∈ t.procs)
    (hj : op.Justified p) :
    (t.world.slot op.queue).AckSafe (orphans t op.queue) op := by
  cases op with
  | ackOrphans => exact fun sid hm => ⟨p, hp, hj sid hm⟩
  | requeue | ackDelete => exact hs.given hp hj
  | moveToZSet => exact hs.given hp hj.1
  | _ => trivial

theorem orphans_le (hs : Sane t) (q : String) :
    ∀ sid ∈ orphans t q, sid ≤ (t.world.slot q).stream.lastId := by
  rintro sid ⟨p, hp, id, hg, -⟩
  exact (hs.given hp hg).1

/-- A step keeps every body anchored outside the entries that were orphaned before
it. -/
theorem anchored_act {s : Chronicle} (hs : Sane s)
    (h : ∀ q, (s.world.slot q).Anchored (orphans s q)) (ha : (g.machine k).Act protocol s t)
    (q : String) : (t.world.slot q).Anchored (orphans s q) := by
  refine slots_act (I := fun q u => u.Anchored (orphans s q)) ha h ?_ (fun q _ _ => h q) q
  intro i p op hp hr _
  have hmem := List.mem_of_getElem? hp
  exact Slot.anchored_run s.world.now (ackSafe_of_justified hs hmem (hs.request hmem hr))
    (orphans_le hs _) (h _)

/-- The invariant of every run: a sane store whose bodies are anchored. -/
structure Unstranded (t : Chronicle) : Prop extends Sane t where
  anchored : ∀ q, (t.world.slot q).Anchored (orphans t q)

theorem unstranded_act (hg : ∀ j, g.spawn j → j.External) {s : Chronicle}
    (hs : Unstranded s) (ha : (g.machine k).Act protocol s t) : Unstranded t := by
  refine ⟨sane_act hg hs.toSane ha, fun q x m hb => ?_⟩
  rcases anchored_act hs.toSane hs.anchored ha q x m hb with hz | ⟨sid, he, ho⟩
  · exact Or.inl hz
  · refine Or.inr ⟨sid, he, fun ho' => ?_⟩
    rcases orphans_act hs.toSane ha ho' with ho' | ⟨id, hid, hnone⟩
    · exact ho ho'
    · -- the entry is the anchor of a stored body, and its task has none
      rw [hid.2 x he, hnone] at hb
      cases hb

theorem unstranded_init : Unstranded ⟨World.init, []⟩ :=
  ⟨Sane.init, fun _ _ _ h => nomatch h⟩

/-- Everything may happen: any traffic, any number of workers and recoverers,
failing requests, crashes, expiry. -/
def anyRun : Regime where
  spawn := Job.External
  allow := fun _ _ _ => True
  handler := fun _ _ _ => True
  tick := fun _ _ => True
  faults := True
  crash := True

/-- The task is referred to by a stream entry that is undelivered or pending, or
by one of the four sorted sets. -/
def Slot.Referenced (s : Slot) (x : String) : Prop :=
  (∃ e ∈ s.stream.entries, e.2 = x ∧
    (e ∈ s.stream.undelivered ∨ e.1 ∈ s.stream.pel.map PelEntry.id)) ∨
  x ∈ s.zset .scheduled ∨ x ∈ s.zset .retry ∨ x ∈ s.zset .archived ∨ x ∈ s.zset .completed

theorem Slot.Anchored.referenced {orphans : Set Nat} (h : s.Anchored orphans)
    (hb : s.stream.Balanced) {x : String} {m : TaskMessage} (hx : s.body x = some m) :
    s.Referenced x := by
  rcases h x m hx with ⟨z, hz⟩ | ⟨sid, he, -⟩
  · refine Or.inr ?_
    cases z <;> simp [hz]
  · refine Or.inl ⟨(sid, x), he, rfl, ?_⟩
    rcases Nat.lt_or_ge s.stream.lastDelivered sid with hlt | hle
    · exact Or.inl (s.stream.mem_undelivered.mpr ⟨he, hlt⟩)
    · obtain ⟨p, hp, hid⟩ := hb.pending _ he hle
      exact Or.inr (List.mem_map.mpr ⟨p, hp, hid⟩)

/-- **No body is stranded.**  In every state of every run, a stored body is
referred to by a stream entry that will still be seen, or by a sorted set. -/
theorem stored_body_referenced (k : Keys) {c : Deployment}
    (hr : (anyRun.machine k).Reaches World.init [] c)
    {q x : String} {m : TaskMessage} (hb : (c.world.slot q).body x = some m) :
    (c.world.slot q).Referenced x := by
  obtain ⟨hs, hinv, -⟩ := Discipline.invariant (obeys_protocol anyRun k) unstranded_init
    (fun _ _ h ha => unstranded_act (fun _ h => h) h ha) hr
  exact (hinv.anchored q).referenced (hinv.wellKept q).balanced hb

theorem anyRun_lets : anyRun.Lets fun _ _ _ => true :=
  ⟨fun _ _ _ _ => trivial, fun _ _ _ => trivial⟩

/-- A task that was enqueued and delivered to a fetch round is referred to. -/
theorem delivered_body_referenced : ∃ c : Deployment,
    (anyRun.machine sampleKeys).Reaches World.init [] c ∧
      ((c.world.slot "q").body "x").isSome ∧ (c.world.slot "q").Referenced "x" := by
  obtain ⟨c, hr, hb⟩ := (player_sound (k := sampleKeys) anyRun_lets).exists_reaches
    [.spawn (.send (.enqueue (sampleTask "x"))), Choice.go 0,
      .spawn (.fetch "q" "c" 1 0), Choice.go 1, Choice.go 1]
    (And.intro (Traffic.enqueue _) (And.intro trivial trivial))
    World.init [] (fun w => ((w.slot "q").body "x").isSome) rfl
  obtain ⟨m, hm⟩ := Option.isSome_iff_exists.mp hb
  exact ⟨c, hr, hb, stored_body_referenced sampleKeys hr hm⟩

end ChronosGo
