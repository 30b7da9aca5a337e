import ChronosGo.Replay
import ChronosGo.StoreRuns
import ChronosGo.Trimming

/-! # Every task that waits to be processed has its body

An enqueue has succeeded when the task's body is stored and the task waits: in the
stream, undelivered, or in the retry or scheduled set.  If the body disappears
while the task still waits, the entry is dropped as an orphan and the task is
never run.

Bodies are stored by task and acknowledgements name an entry, so the store alone
does not prevent this: `Done` deletes the body of a task that was enqueued again
under the same identifier while the first delivery was still being processed
(`enqueued_task_lost`).  What has to be avoided is stated on the store as a
request finds it (`Slot.Careful`), and it is all that has to be avoided
(`waiting_task_stored`).
-/
namespace ChronosGo
open Interleaving Redis

/-- The task has an entry that has not been delivered. -/
def Slot.Undelivered (s : Slot) (x : String) : Prop := ∃ e ∈ s.stream.undelivered, e.2 = x

/-- The task waits to be processed. -/
def Slot.Waiting (s : Slot) (x : String) : Prop :=
  s.Undelivered x ∨ x ∈ s.zset .retry ∨ x ∈ s.zset .scheduled

/-- Every task that waits has its body. -/
def Slot.AllStored (s : Slot) : Prop := ∀ x, s.Waiting x → (s.body x).isSome

/-- The request neither deletes the body of a task that waits nor makes a task
wait whose hash has lost its body. -/
def Slot.Careful (s : Slot) : Op → Prop
  | .ackDelete _ _ id => ¬ s.Waiting id
  | .trim _ z cutoff maxSize batch =>
    ∀ id ∈ (s.zset z).zrange (s.removals z cutoff maxSize batch), ¬ s.Waiting id
  | .requeue _ _ id => (s.task id).present → (s.body id).isSome
  | .runTask _ id => s.InZSet id → (s.task id).present → (s.body id).isSome
  | .deleteTask .. => False
  | _ => True

/-- The requests that delete a body, or make a task wait that is already there. -/
def Op.Delicate : Op → Prop
  | .ackDelete .. | .trim .. | .requeue .. | .runTask .. | .deleteTask .. => True
  | _ => False

namespace Slot
variable {k : Keys} {op : Op} {s t : Slot} {x : String} {p : Party}

theorem undelivered_xadd {u : Redis.Stream String String} (hu : t.stream = u.xadd x)
    {y : String} (h : t.Undelivered y) :
    y = x ∨ ∃ e ∈ u.undelivered, e.2 = y := by
  obtain ⟨e, he, rfl⟩ := h
  rw [hu, Stream.mem_undelivered] at he
  rcases List.mem_append.mp he.1 with hm | hm
  · exact Or.inr ⟨e, (Stream.mem_undelivered _).mpr ⟨hm, he.2⟩, rfl⟩
  · rw [List.mem_singleton.mp hm]
    exact Or.inl rfl

theorem undelivered_ack {sids : List Nat} (h : (s.ack sids).Undelivered x) : s.Undelivered x := by
  obtain ⟨e, he, rfl⟩ := h
  obtain ⟨hm, hlt⟩ := (Stream.mem_undelivered _).mp he
  exact ⟨e, (Stream.mem_undelivered _).mpr ⟨((Stream.mem_entries_xdel _).mp hm).1, hlt⟩, rfl⟩

theorem undelivered_read {c : String} {n : Nat} {now : Int}
    (h : ({ s with stream := s.stream.xreadgroup c n now } : Slot).Undelivered x) :
    s.Undelivered x := by
  obtain ⟨e, he, rfl⟩ := h
  obtain ⟨hm, hlt⟩ := (Stream.mem_undelivered _).mp he
  have hle := (s.stream.nextDelivered_bounds n).1
  exact ⟨e, (Stream.mem_undelivered _).mpr ⟨hm, Nat.lt_of_le_of_lt hle hlt⟩, rfl⟩

/-- A move of a request that is not delicate stores the body of each task it makes
wait, and deletes none. -/
theorem allStored_move (hop : ¬ op.Delicate) (hj : op.Justified p) (hm : Move k op s t)
    (h : s.AllStored) : t.AllStored := by
  cases hm with
  | quiet ha =>
    intro x hx
    rw [ha.body]
    refine h x ?_
    unfold Waiting Undelivered at hx ⊢
    rwa [← ha.stream, ← ha.zset]
  | @enqueue _ msg _ ho =>
    intro x hx
    by_cases hid : x = msg.id
    · simp [hid]
    · rw [body_enqueue, if_neg hid]
      refine h x ?_
      rcases hx with hx | hx | hx
      · exact Or.inl ((undelivered_xadd rfl hx).resolve_left hid)
      · exact Or.inr (Or.inl ((mem_zset_enqueue ..).mp hx).1)
      · exact Or.inr (Or.inr ((mem_zset_enqueue ..).mp hx).1)
  | @schedule _ msg _ at' ho =>
    intro x hx
    by_cases hid : x = msg.id
    · simp [hid]
    · rw [body_schedule, if_neg hid]
      refine h x ?_
      rcases hx with hx | hx | hx
      · exact Or.inl hx
      · exact Or.inr (Or.inl (by simpa [hid] using hx))
      · exact Or.inr (Or.inr (by simpa [hid] using hx))
  | @create _ msg _ score ho hp =>
    intro x hx
    by_cases hid : x = msg.id
    · simp [hid]
    · rw [body_placeCallback, if_neg hid]
      refine h x ?_
      cases score with
      | none =>
        rcases hx with hx | hx
        · exact Or.inl ((undelivered_xadd rfl hx).resolve_left hid)
        · exact Or.inr hx
      | some score =>
        rcases hx with hx | hx | hx
        · exact Or.inl hx
        · exact Or.inr (Or.inl (by simpa [placeCallback] using hx))
        · exact Or.inr (Or.inr (by simpa [placeCallback, hid] using hx))
  | read =>
    rintro x (hx | hx)
    · exact h x (Or.inl (undelivered_read hx))
    · exact h x (Or.inr hx)
  | claim => exact fun x hx => h x hx
  | ack =>
    rintro x (hx | hx)
    · exact h x (Or.inl (undelivered_ack hx))
    · exact h x (Or.inr hx)
  | mark _ q id =>
    intro x hx
    rw [body_setState]
    exact h x hx
  | move _ q sid msg z score =>
    intro x hx
    by_cases hid : x = msg.id
    · simp [hid]
    · rw [body_moveToZSet, if_neg hid]
      refine h x ?_
      rcases hx with hx | hx | hx
      · exact Or.inl (undelivered_ack hx)
      · exact Or.inr (Or.inl (by simpa [hid] using hx))
      · exact Or.inr (Or.inr (by simpa [hid] using hx))
  | forward _ q z now max id hz =>
    intro x hx
    rw [body_forwardOne]
    -- the task forwarded was waiting in the retry or scheduled set
    have hid : s.Waiting id := by
      rcases hj with rfl | rfl
      · exact Or.inr (Or.inl hz)
      · exact Or.inr (Or.inr hz)
    rcases hx with hx | hx | hx
    · rcases undelivered_xadd rfl hx with rfl | hx
      · exact h x hid
      · exact h x (Or.inl hx)
    · exact h x (Or.inr (Or.inl ((mem_zset_forwardOne ..).mp hx).1))
    · exact h x (Or.inr (Or.inr ((mem_zset_forwardOne ..).mp hx).1))
  | requeue | ackDelete | trim | run | forget | delete => exact absurd trivial hop

/-- The same tasks wait after a trim of the archived or the completed ones. -/
theorem waiting_trim {z : ZKey} (hz : z = .archived ∨ z = .completed) (cutoff maxSize : Int)
    (batch : Nat) : (s.trim z cutoff maxSize batch).1.Waiting x ↔ s.Waiting x := by
  have hne : ∀ z', z' = .retry ∨ z' = .scheduled → z' ≠ z := by
    rintro z' (rfl | rfl) <;> rcases hz with rfl | rfl <;> decide
  unfold Waiting Undelivered
  rw [trim_eq, stream_foldl_trimOne, zset_foldl_trimOne, Function.update_of_ne (hne _ (Or.inl rfl)),
    Function.update_of_ne (hne _ (Or.inr rfl))]

/-- A careful request keeps the body of every task that waits. -/
theorem allStored_run (now : Int) (hc : s.Careful op) (hj : op.Justified p) (h : s.AllStored) :
    (op.run k now s).1.AllStored := by
  by_cases hop : op.Delicate
  · cases op with
    | ackDelete q sid id =>
      intro x hx
      have hw : s.Waiting x := hx.imp_left undelivered_ack
      have hid : x ≠ id := by
        rintro rfl
        exact hc hw
      change ((s.ackDelete sid id).body x).isSome
      rw [body_ackDelete, if_neg hid]
      exact h x hw
    | trim q z cutoff maxSize batch =>
      intro x hx
      have hw : s.Waiting x := (waiting_trim hj ..).mp hx
      change ((s.trim z cutoff maxSize batch).1.body x).isSome
      rw [trim_eq, body_foldl_trimOne, if_neg fun hmem => hc x hmem hw]
      exact h x hw
    | requeue q sid id =>
      intro x hx
      change ((s.requeue sid id).body x).isSome
      rw [body_requeue]
      change (s.requeue sid id).Waiting x at hx
      by_cases hp : (s.task id).present
      · rw [show s.requeue sid id = ((s.ack [sid]).setState id .pending).append id from if_pos hp]
          at hx
        rcases hx with hx | hx
        · rcases undelivered_xadd rfl hx with rfl | hx
          · exact hc hp
          · exact h x (Or.inl (undelivered_ack hx))
        · exact h x (Or.inr hx)
      · rw [show s.requeue sid id = s.ack [sid] from if_neg hp] at hx
        exact h x (hx.imp_left undelivered_ack)
    | runTask q id =>
      intro x hx
      change ((s.runTask id).1.body x).isSome
      rw [body_runTask]
      change (s.runTask id).1.Waiting x at hx
      unfold runTask at hx
      split at hx
      · exact h x hx
      · rename_i hz
        dsimp only at hx
        split at hx
        · rename_i hp
          rcases hx with hx | hx
          · rcases undelivered_xadd rfl hx with rfl | hx
            · exact hc (not_not.mp hz) hp
            · exact h x (Or.inl hx)
          · refine h x (Or.inr (hx.imp ?_ ?_))
            all_goals exact fun hz => ((mem_zset_zremAll ..).mp hz).1
        · refine h x (hx.imp_right fun hx => hx.imp ?_ ?_)
          all_goals exact fun hz => ((mem_zset_zremAll ..).mp hz).1
    | deleteTask => exact hc.elim
    | _ => exact hop.elim
  · exact run_invariant (fun _ _ hm hs => allStored_move hop hj hm hs) now h

/-- An entry that has just been appended is undelivered. -/
theorem undelivered_append {u : Redis.Stream String String} (hu : t.stream = u.xadd x) :
    t.Undelivered x := by
  refine ⟨(u.lastId + 1, x), ?_, rfl⟩
  rw [hu, Stream.mem_undelivered]
  exact ⟨List.mem_concat_self, Nat.lt_succ_of_le u.delivered_le⟩

/-- **Nothing less will do.**  A request that is not careful leaves a task waiting
without its body. -/
theorem careless_run (now : Int) (hd : ∀ q id, op ≠ .deleteTask q id)
    (hsid : ∀ sid ∈ op.acks, sid ≤ s.stream.lastDelivered) (hj : op.Justified p)
    (hc : ¬ s.Careful op) : ¬ (op.run k now s).1.AllStored := by
  intro hall
  cases op with
  | ackDelete q sid id =>
    have hw : (s.ackDelete sid id).Waiting id := by
      rcases not_not.mp hc with ⟨e, he, rfl⟩ | hz
      · obtain ⟨hm, hlt⟩ := (Stream.mem_undelivered _).mp he
        have hne : e.1 ∉ [sid] := fun hn => by
          have hle := hsid sid (List.mem_singleton_self _)
          rw [List.mem_singleton.mp hn] at hlt
          omega
        exact Or.inl ⟨e, (Stream.mem_undelivered _).mpr
          ⟨(Stream.mem_entries_xdel _).mpr ⟨hm, hne⟩, hlt⟩, rfl⟩
      · exact Or.inr hz
    have hb : ((s.ackDelete sid id).body id).isSome := hall id hw
    simp at hb
  | trim q z cutoff maxSize batch =>
    obtain ⟨x, hx⟩ := not_forall.mp hc
    obtain ⟨hmem, hw⟩ := Classical.not_imp.mp hx
    have hb : ((s.trim z cutoff maxSize batch).1.body x).isSome :=
      hall x ((waiting_trim hj ..).mpr (not_not.mp hw))
    rw [trim_eq, body_foldl_trimOne, if_pos hmem] at hb
    cases hb
  | requeue q sid id =>
    obtain ⟨hp, hb⟩ := Classical.not_imp.mp hc
    have ht : s.requeue sid id = ((s.ack [sid]).setState id .pending).append id := if_pos hp
    have hb' : ((s.requeue sid id).body id).isSome := by
      exact hall id (Or.inl (undelivered_append (congrArg Slot.stream ht)))
    rw [body_requeue] at hb'
    exact hb hb'
  | runTask q id =>
    obtain ⟨hz, hrest⟩ := Classical.not_imp.mp hc
    obtain ⟨hp, hb⟩ := Classical.not_imp.mp hrest
    have ht : (s.runTask id).1 = ((s.zremAll id).append id).setState id .pending := by
      simp only [runTask, hz, not_true, if_false]
      exact congrArg Prod.fst (if_pos hp)
    have hb' : ((s.runTask id).1.body id).isSome := by
      exact hall id (Or.inl (undelivered_append (congrArg Slot.stream ht)))
    rw [body_runTask] at hb'
    exact hb hb'
  | deleteTask q id => exact hd q id rfl
  | _ => exact hc trivial

end Slot

/-! ## Runs -/

/-- Every kind of enqueue, workers, recoverer, forwarders, janitor and `RunTask`,
with failing requests, crashes and late workers; no `DeleteTask`. -/
def undeleted : Regime where
  spawn := Job.External
  allow := fun _ op _ => ∀ q id, op ≠ .deleteTask q id
  handler := fun _ _ _ => True
  tick := fun _ _ => True
  faults := True
  crash := True

/-- The same, with careful requests only. -/
def careful : Regime :=
  { undeleted with allow := fun _ op w => (w.slot op.queue).Careful op }

theorem allStored_act {k : Keys} {s t : Chronicle} (hs : Sane s)
    (h : ∀ q, (s.world.slot q).AllStored) (ha : (careful.machine k).Act protocol s t) :
    ∀ q, (t.world.slot q).AllStored :=
  slots_act (I := fun _ u => u.AllStored) ha h
    (fun _ _ _ hp hr hok =>
      Slot.allStored_run s.world.now hok (hs.request (List.mem_of_getElem? hp) hr) (h _))
    (fun q _ _ => h q)

theorem allStored_empty : Slot.empty.AllStored := by
  rintro x (⟨e, he, -⟩ | hx | hx)
  · exact absurd he List.not_mem_nil
  all_goals exact absurd hx ZSet.not_mem_empty

/-- **At least once.**  As long as every request is careful, every task that waits
has its body, in every state of every run. -/
theorem waiting_task_stored (k : Keys) {c : Deployment}
    (hr : (careful.machine k).Reaches World.init [] c)
    {q x : String} (hx : (c.world.slot q).Waiting x) : ((c.world.slot q).body x).isSome := by
  obtain ⟨hs, ⟨-, hinv⟩, -⟩ := Discipline.invariant (obeys_protocol careful k)
    (I := fun t => Sane t ∧ ∀ q, (t.world.slot q).AllStored) ⟨Sane.init, fun _ => allStored_empty⟩
    (fun _ _ h ha => ⟨sane_act (fun _ h => h) h.1 ha, allStored_act h.1 h.2 ha⟩) hr
  exact hinv q x hx

instance (s : Slot) (x : String) : Decidable (s.Undelivered x) :=
  inferInstanceAs (Decidable (∃ e ∈ s.stream.undelivered, e.2 = x))

instance (s : Slot) (x : String) : Decidable (s.Waiting x) :=
  inferInstanceAs (Decidable (_ ∨ _))

/-- A task waits, and has its body, while its first delivery is processed. -/
theorem delivered_task_stored : ∃ c : Deployment,
    (careful.machine sampleKeys).Reaches World.init [] c ∧
      (c.world.slot "q").Waiting "x" ∧ ((c.world.slot "q").body "x").isSome := by
  have hlets : careful.Lets fun _ op _ => match op with
      | .enqueue _ | .xReadGroup .. | .getTask .. | .markActive .. => true
      | _ => false := by
    refine ⟨fun i op w h => ?_, fun _ _ _ => trivial⟩
    cases op <;> trivial
  obtain ⟨c, hr, hw⟩ := (player_sound (k := sampleKeys) hlets).exists_reaches
    [.spawn (.send (.enqueue (sampleTask "x"))), Choice.go 0,
      .spawn (.fetch "q" "c" 1 0), Choice.go 1, Choice.go 1, Choice.go 1,
      .spawn (.send (.enqueue (sampleTask "x"))), Choice.go 2]
    (And.intro (Traffic.enqueue _) (And.intro trivial (And.intro (Traffic.enqueue _) trivial)))
    World.init []
    (fun w => decide ((w.slot "q").Waiting "x")) (by decide +kernel)
  exact ⟨c, hr, of_decide_eq_true hw, waiting_task_stored sampleKeys hr (of_decide_eq_true hw)⟩

/-- A task is enqueued, delivered, and enqueued again under its identifier.  When
the first delivery succeeds, `Done` deletes the body that the second enqueue
stored, and the second entry waits for an orphan. -/
theorem enqueued_task_lost : ∃ c : Deployment,
    (undeleted.machine sampleKeys).Reaches World.init [] c ∧
      (c.world.slot "q").Undelivered "x" ∧ (c.world.slot "q").body "x" = none := by
  have hlets : undeleted.Lets fun _ op _ => match op with
      | .enqueue _ | .xReadGroup .. | .getTask .. | .markActive .. | .ackDelete .. => true
      | _ => false := by
    refine ⟨fun i op w h q id => ?_, fun _ _ _ => trivial⟩
    rintro rfl
    cases h
  obtain ⟨c, hr, hw⟩ := (player_sound (k := sampleKeys) hlets).exists_reaches
    [.spawn (.send (.enqueue (sampleTask "x"))), Choice.go 0,
      .spawn (.fetch "q" "c" 1 0), Choice.go 1, Choice.go 1, Choice.go 1,
      Choice.go 1, .spawn (.send (.enqueue (sampleTask "x"))), Choice.go 3,
      Choice.go 2, Choice.go 2]
    (And.intro (Traffic.enqueue _) (And.intro trivial (And.intro (Traffic.enqueue _) trivial)))
    World.init []
    (fun w => decide ((w.slot "q").Undelivered "x" ∧ (w.slot "q").body "x" = none))
    (by decide +kernel)
  exact ⟨c, hr, of_decide_eq_true hw⟩

end ChronosGo
