import ChronosGo.Exclusive

/-! # Unique tasks exclude each other

A unique task takes its lock when it is enqueued and gives it back in a request of
its own, after the one that moved it to a terminal state.  While it is in the
pipeline, whatever happens to it, it is the owner of its lock: this is the
invariant, and it makes every further enqueue of the same content a duplicate.

Two processes that finish the same task would release a lock twice, and the second
time it might be the lock of another task.  So the proof follows the releases that
are still to come (`Pending`): until then the lock is the task's own, the task is
out of the pipeline, and no other process is about to release it.

An operator can put a terminal task back without a lock: `RunTask` does, and then
the same content can be enqueued again (`rerun_breaks_exclusion`).
-/
namespace ChronosGo
open Interleaving Redis

variable {k : Keys} {op : Op} {x key q : String} {pr p : Party} {sid i : Nat}
  {m msg : TaskMessage} {s t : Chronicle} {j : Job} {c : Cmd} {r : c.Reply}

/-- What nobody changes in a message: the content and the lock. -/
def TaskMessage.ident (m : TaskMessage) : String × Bytes × String × String :=
  (m.kind, m.payload, m.queue, m.uniqueKey)

/-- The places of a task that is still to be processed. -/
def Place.Live : Place → Prop
  | entry _ => True
  | set z => z = .retry ∨ z = .scheduled

/-- The requests that touch locks. -/
def Op.Locks : Op → Prop
  | .enqueueUnique .. | .scheduleUnique .. | .releaseUnique .. => True
  | _ => False

namespace Slot

/-- The task is scheduled, pending, active or waiting for a retry. -/
def InPipeline (s : Slot) (x : String) : Prop := ∃ p : Place, p.Live ∧ s.At x p

/-- The task is in the pipeline and carries this lock key. -/
def Holder (s : Slot) (x key : String) : Prop :=
  key ≠ "" ∧ s.InPipeline x ∧ ∃ m, s.body x = some m ∧ m.uniqueKey = key

/-- The task that holds a lock. -/
def lockOwner (s : Slot) (key : String) : Option String := (s.unique key).map Lock.owner

/-- What a request relies on to leave the locks alone: it stores a lock key only
where there was one, or takes the lock itself, and puts no unique task back into
the pipeline. -/
def Honest (s : Slot) : Op → Prop
  | .enqueue msg | .schedule msg _ | .enqueuePeriodic msg _ _ => msg.uniqueKey = ""
  | .chainEnqueue msg | .chainSchedule msg _ => msg.uniqueKey = ""
  | .groupComplete _ r => r.callback.uniqueKey = ""
  | .moveToZSet _ _ msg _ _ => ∃ m, s.body msg.id = some m ∧ m.ident = msg.ident
  | .runTask _ id => ∀ m, s.body id = some m → m.uniqueKey ≠ "" →
      id ∉ s.zset .archived ∧ id ∉ s.zset .completed
  | _ => True

/-- The request takes the lock `key` for the task. -/
inductive Acquires (k : Keys) (x key : String) : Op → Prop where
  | enqueue {msg : TaskMessage} {ttl : Int} (hx : x = msg.id)
      (hk : key = (withUniqueKey k msg).uniqueKey) : Acquires k x key (.enqueueUnique msg ttl)
  | schedule {msg : TaskMessage} {at' ttl : Int} (hx : x = msg.id)
      (hk : key = (withUniqueKey k msg).uniqueKey) : Acquires k x key (.scheduleUnique msg at' ttl)

variable {s t : Slot}

theorem Same.holder (h : s.Same x t) (ht : t.Holder x key) : s.Holder x key := by
  obtain ⟨hk, ⟨p, hl, hp⟩, m, hm, hkey⟩ := ht
  refine ⟨hk, ⟨p, hl, (h.at_iff p).mp hp⟩, m, ?_, hkey⟩
  unfold Slot.body at hm ⊢
  rwa [← h.task]

theorem Honest.agree (h : s.Honest op) (ha : s.Agree t) : t.Honest op := by
  cases op with
  | moveToZSet =>
    obtain ⟨m, hm, hid⟩ := h
    exact ⟨m, (ha.body _).trans hm, hid⟩
  | runTask q id =>
    intro m hm hk
    rw [ha.zset]
    exact h m ((ha.body id).symm.trans hm) hk
  | _ => exact h

/-- A task whose body stays and that was in the pipeline held its lock before. -/
theorem holder_of_body {p : Place} (hb : t.body x = s.body x) (hp : s.At x p) (hl : p.Live)
    (ht : t.Holder x key) : s.Holder x key := by
  obtain ⟨hk, -, m, hm, hkey⟩ := ht
  exact ⟨hk, ⟨p, hl, hp⟩, m, hb ▸ hm, hkey⟩

theorem not_holder_of_body (hb : t.body x = none) : ¬ t.Holder x key := by
  rintro ⟨-, -, m, hm, -⟩
  rw [hb] at hm
  cases hm

/-- No move but the enqueue of a unique task brings a lock key into the pipeline. -/
theorem holder_move (hj : op.Justified pr) (hr : s.Ready op) (hh : s.Honest op)
    (hm : Move k op s t) (ht : t.Holder x key) :
    s.Holder x key ∨ Acquires k x key op := by
  -- the body that is stored carries no lock
  have hnone : ∀ m : TaskMessage, t.body x = some m → m.uniqueKey = "" → False := by
    rintro m hb hm
    obtain ⟨hk, -, m', hm', hkey⟩ := ht
    rw [hb] at hm'
    cases hm'
    exact hk (hkey.symm.trans hm)
  cases hm with
  | quiet ha => exact Or.inl (ha.same.holder ht)
  | @enqueue _ msg _ ho =>
    by_cases hx : x = msg.id
    · subst hx
      cases ho with
      | plain | periodic => exact (hnone _ ((body_enqueue ..).trans (if_pos rfl)) hh).elim
      | unique msg ttl =>
        obtain ⟨-, -, m, hm, hkey⟩ := ht
        rw [body_enqueue, if_pos rfl] at hm
        cases hm
        exact Or.inr (.enqueue rfl hkey.symm)
    · exact Or.inl ((only_enqueue s msg x hx).holder ht)
  | @schedule _ msg _ at' ho =>
    by_cases hx : x = msg.id
    · subst hx
      cases ho with
      | plain => exact (hnone _ ((body_schedule ..).trans (if_pos rfl)) hh).elim
      | unique msg at'' ttl =>
        obtain ⟨-, -, m, hm, hkey⟩ := ht
        rw [body_schedule, if_pos rfl] at hm
        cases hm
        exact Or.inr (.schedule rfl hkey.symm)
    · exact Or.inl ((only_schedule s msg at' x hx).holder ht)
  | @create _ msg _ score ho hp =>
    by_cases hx : x = msg.id
    · subst hx
      have hmsg : msg.uniqueKey = "" := by
        cases ho <;> exact hh
      exact (hnone _ ((body_placeCallback ..).trans (if_pos rfl)) hmsg).elim
    · exact Or.inl ((only_placeCallback s msg score x hx).holder ht)
  | read | claim =>
    refine Or.inl (Same.holder (s := s) ⟨rfl, fun p => ?_⟩ ht)
    cases p <;> rfl
  | ack _ q sids =>
    obtain ⟨hk, ⟨p, hl, hp⟩, hm⟩ := ht
    exact Or.inl ⟨hk, ⟨p, hl, ((at_ack ..).mp hp).1⟩, hm⟩
  | mark _ q id =>
    obtain ⟨hk, ⟨p, hl, hp⟩, m, hm, hkey⟩ := ht
    exact Or.inl ⟨hk, ⟨p, hl, (at_setState ..).mp hp⟩, m, by simpa using hm, hkey⟩
  | requeue _ q sid id =>
    by_cases hx : x = id
    · subst hx
      exact Or.inl (holder_of_body (p := .entry sid) (by simp) hr trivial ht)
    · exact Or.inl ((only_requeue hr x hx).holder ht)
  | ackDelete _ q sid id =>
    by_cases hx : x = id
    · exact absurd ht (not_holder_of_body (by simp [hx]))
    · exact Or.inl ((only_ackDelete hr x hx).holder ht)
  | move _ q sid msg z score =>
    by_cases hx : x = msg.id
    · subst hx
      obtain ⟨m, hm, hid⟩ := hh
      obtain ⟨hk, -, m', hm', hkey⟩ := ht
      rw [body_moveToZSet, if_pos rfl] at hm'
      cases hm'
      refine Or.inl ⟨hk, ⟨.entry sid, trivial, hr⟩, m, hm, ?_⟩
      exact (congrArg (fun i => i.2.2.2) hid).trans hkey
    · exact Or.inl ((only_moveToZSet hr x hx).holder ht)
  | forward _ q z now max id hz =>
    by_cases hx : x = id
    · subst hx
      exact Or.inl (holder_of_body (p := .set z) (by simp) hz hj ht)
    · exact Or.inl ((only_forwardOne s z id x hx).holder ht)
  | trim _ q z cutoff maxSize batch id =>
    by_cases hx : x = id
    · exact absurd ht (not_holder_of_body (by simp [hx]))
    · exact Or.inl ((only_trimOne s z id x hx).holder ht)
  | run _ q id hz =>
    by_cases hx : x = id
    · subst hx
      obtain ⟨z, hz⟩ := hz
      have hbody : (((s.zremAll x).append x).setState x .pending).body x = s.body x := by simp
      refine Or.inl (holder_of_body (p := .set z) hbody hz ?_ ht)
      obtain ⟨hk, -, m, hm, hkey⟩ := ht
      have hterm := hh m (hbody ▸ hm) (hkey ▸ hk)
      cases z with
      | scheduled => exact Or.inr rfl
      | retry => exact Or.inl rfl
      | archived => exact absurd hz hterm.1
      | completed => exact absurd hz hterm.2
    · exact Or.inl ((only_run s id x hx).holder ht)
  | forget _ q id _ hp =>
    obtain ⟨hk, ⟨p, hl, hp⟩, hm⟩ := ht
    exact Or.inl ⟨hk, ⟨p, hl, ((at_zremAll ..).mp hp).1⟩, hm⟩
  | delete _ q id =>
    by_cases hx : x = id
    · exact absurd ht (not_holder_of_body (by simp [hx]))
    · exact Or.inl ((only_deleteTask s id x hx).holder ht)

theorem holder_run (now : Int) (hj : op.Justified pr) (hr : s.Ready op) (hh : s.Honest op)
    (ht : (op.run k now s).1.Holder x key) :
    s.Holder x key ∨ Acquires k x key op := by
  by_cases hop : op.Batch
  · -- forwarding and trimming take no lock, one task after the other
    have hall : ∀ u : Slot, u.Ready op ∧ u.Honest op := by
      intro u
      cases op with
      | forward | trim => exact ⟨trivial, trivial⟩
      | _ => exact hop.elim
    have hstep : ∀ u t : Slot, Move k op u t →
        (u.Holder x key → s.Holder x key ∨ Acquires k x key op) →
        t.Holder x key → s.Holder x key ∨ Acquires k x key op := by
      intro u t hm hback ht
      exact (holder_move hj (hall u).1 (hall u).2 hm ht).elim hback Or.inr
    exact run_invariant hstep now Or.inl ht
  · obtain ⟨s₁, ha, he | hm⟩ := run_once k now s hop
    · rw [he] at ht
      exact Or.inl (ha.same.holder ht)
    · rcases holder_move hj (hr.agree ha) (hh.agree ha) hm ht with ht | ht
      · exact Or.inl (ha.same.holder ht)
      · exact Or.inr ht

/-! ## Locks -/

theorem unique_foldl {f : Slot → String → Slot} (hf : ∀ u id, (f u id).unique = u.unique)
    (ids : List String) : (ids.foldl f s).unique = s.unique := by
  induction ids generalizing s with
  | nil => rfl
  | cons a ids ih => rw [List.foldl_cons, ih, hf]

/-- Locks are taken by unique enqueues and given back by releases, and touched by
nothing else. -/
theorem unique_run (now : Int) (hop : ¬ op.Locks) : (op.run k now s).1.unique = s.unique := by
  cases op with
  | enqueueUnique | scheduleUnique | releaseUnique => exact absurd trivial hop
  | enqueuePeriodic | chainEnqueue | chainSchedule =>
    simp only [Op.run, Slot.enqueuePeriodic, Slot.chainEnqueue, Slot.chainSchedule]
    split <;> rfl
  | createGroupIfAbsent =>
    simp only [Op.run, Slot.createGroupIfAbsent]
    split
    · rfl
    · split <;> rfl
  | groupComplete q r =>
    simp only [Op.run, Slot.groupComplete]
    split
    · rfl
    · split
      · rfl
      · split
        · rfl
        · cases r.score <;> rfl
  | requeue =>
    simp only [Op.run, Slot.requeue]
    split <;> rfl
  | forward q z => exact unique_foldl (f := forwardOne z) (fun _ _ => rfl) _
  | trim q z =>
    exact (unique_foldl (f := trimOne z) (fun _ _ => rfl) _).trans
      (unique_foldl (f := trimOne z) (fun _ _ => rfl) _)
  | runTask =>
    simp only [Op.run, Slot.runTask]
    split
    · rfl
    · split <;> rfl
  | _ => rfl

/-- A lock stays with its owner until it is released for it. -/
theorem lockOwner_run (now : Int) (hl : s.lockOwner key = some x)
    (hr : ∀ q, op ≠ .releaseUnique q key x) : (op.run k now s).1.lockOwner key = some x := by
  have hsome : ∀ {key'}, ¬ (s.unique key').isSome → key ≠ key' := by
    rintro _ hn rfl
    unfold lockOwner at hl
    rw [Option.not_isSome_iff_eq_none.mp hn] at hl
    cases hl
  cases op with
  | enqueueUnique msg ttl =>
    simp only [Op.run, Slot.enqueueUnique]
    split
    · exact hl
    · rename_i hn
      change ((Function.update s.unique _ _) key).map Lock.owner = some x
      rw [Function.update_of_ne (hsome hn)]
      exact hl
  | scheduleUnique msg at' ttl =>
    simp only [Op.run, Slot.scheduleUnique]
    split
    · exact hl
    · rename_i hn
      change ((Function.update s.unique _ _) key).map Lock.owner = some x
      rw [Function.update_of_ne (hsome hn)]
      exact hl
  | releaseUnique q key' id =>
    simp only [Op.run, Slot.releaseUnique]
    split
    · rename_i hown
      have hne : key ≠ key' := by
        rintro rfl
        unfold lockOwner at hl
        rw [hl] at hown
        cases hown
        exact hr q rfl
      change ((Function.update s.unique _ _) key).map Lock.owner = some x
      rw [Function.update_of_ne hne]
      exact hl
    · exact hl
  | _ =>
    unfold lockOwner
    rw [unique_run now id]
    exact hl

/-- A lock that a request has brought into the pipeline was free, and is taken. -/
theorem acquired_run (now : Int) (ha : Acquires k x key op)
    (ht : (op.run k now s).1.Holder x key) :
    s.Holder x key ∨ s.lockOwner key = none ∧ (op.run k now s).1.lockOwner key = some x := by
  cases ha with
  | @enqueue msg ttl hx hk =>
    subst hx hk
    simp only [Op.run, Slot.enqueueUnique] at ht ⊢
    split at ht
    · exact Or.inl ht
    · rename_i hn
      refine Or.inr ⟨?_, ?_⟩
      · unfold lockOwner
        rw [Option.not_isSome_iff_eq_none.mp hn]
        rfl
      · rw [if_neg hn]
        change ((Function.update s.unique _ _) _).map Lock.owner = some _
        rw [Function.update_self]
        rfl
  | @schedule msg at' ttl hx hk =>
    subst hx hk
    simp only [Op.run, Slot.scheduleUnique] at ht ⊢
    split at ht
    · exact Or.inl ht
    · rename_i hn
      refine Or.inr ⟨?_, ?_⟩
      · unfold lockOwner
        rw [Option.not_isSome_iff_eq_none.mp hn]
        rfl
      · rw [if_neg hn]
        change ((Function.update s.unique _ _) _).map Lock.owner = some _
        rw [Function.update_self]
        rfl

/-! ## Copies -/

/-- The body of a task stays as it is while its entry stays. -/
theorem body_stays_move (hr : s.Ready op) (h : ∀ x, s.Located x) (hm : Move k op s t)
    (hs : (sid, x) ∈ s.stream.entries) (ht : (sid, x) ∈ t.stream.entries) :
    t.body x = s.body x := by
  have hsit : s.Sits x (.entry sid) := (h x).sits hs
  -- the task is stored, so it is not enqueued or created now
  have hnew : ∀ {id}, s.body id = none → x ≠ id := by
    rintro _ hn rfl
    have hb := hsit.body
    rw [hn] at hb
    cases hb
  -- its entry stays, so it is not acknowledged now
  have hack : ∀ {id n}, (n, id) ∈ s.stream.entries → (sid, x) ∈ (s.ack [n]).stream.entries →
      x ≠ id := by
    rintro _ n hn ha rfl
    obtain rfl := Place.entry.inj ((hsit.at_iff (.entry n)).mp hn)
    exact ((Stream.mem_entries_xdel _).mp ha).2 (List.mem_singleton_self _)
  -- it is in the stream, so it is in no sorted set
  have hset : ∀ {id z}, id ∈ s.zset z → x ≠ id := by
    rintro _ z hz rfl
    cases (hsit.at_iff (.set z)).mp hz
  cases hm with
  | quiet ha => exact ha.body x
  | @enqueue _ msg _ ho => rw [body_enqueue, if_neg (hnew (hr.enqueues ho))]
  | @schedule _ msg _ at' ho => rw [body_schedule, if_neg (hnew (hr.schedules ho))]
  | create _ _ _ hp => rw [body_placeCallback, if_neg (hnew (body_of_not_present hp))]
  | ackDelete => rw [body_ackDelete, if_neg (hack hr ht)]
  | move => rw [body_moveToZSet, if_neg (hack hr ht)]
  | trim _ _ _ _ _ _ _ hz => rw [body_trimOne, if_neg (hset hz)]
  | delete =>
    obtain ⟨z, hz⟩ := hr
    rw [body_deleteTask, if_neg (hset hz)]
  | read | claim | ack | forget => rfl
  | mark | requeue | forward | run => simp

theorem body_stays_run (now : Int) (hr : s.Ready op) (h : ∀ x, s.Located x)
    (hs : (sid, x) ∈ s.stream.entries) (ht : (sid, x) ∈ (op.run k now s).1.stream.entries) :
    (op.run k now s).1.body x = s.body x := by
  by_cases hop : op.Batch
  · have hall : (∀ u : Slot, u.Ready op) ∧ op.acks = [] := by
      cases op with
      | forward | trim => exact ⟨fun _ => trivial, rfl⟩
      | _ => exact hop.elim
    have hstep : ∀ u t : Slot, Move k op u t →
        ((∀ x, u.Located x) ∧ (sid, x) ∈ u.stream.entries ∧ u.body x = s.body x) →
        (∀ x, t.Located x) ∧ (sid, x) ∈ t.stream.entries ∧ t.body x = s.body x := by
      rintro u t hm ⟨hu, he, hb⟩
      have he' : (sid, x) ∈ t.stream.entries :=
        entries_move hm (hall.2 ▸ List.not_mem_nil) he
      exact ⟨located_move (hall.1 u) hm hu, he', (body_stays_move (hall.1 u) hu hm he he').trans hb⟩
    exact (run_invariant hstep now ⟨h, hs, rfl⟩).2.2
  · obtain ⟨s₁, ha, he | hm⟩ := run_once k now s hop
    · rw [he]
      exact ha.body x
    · rw [← ha.body]
      exact body_stays_move (hr.agree ha) (fun x => ha.same.located (h x)) hm (ha.stream ▸ hs) ht

end Slot

/-- The process has a copy of the task of an entry it was given. -/
def Copy (p : Party) (q : String) (sid : Nat) (m : TaskMessage) : Prop :=
  match p.job with
  | .work q' sid' msg => q' = q ∧ sid' = sid ∧ msg = m
  | .fetch .. | .recover .. => Given p q sid m.id ∧ Did p.hist (.getTask q m.id) (some m)
  | _ => False

theorem Copy.given (h : Copy p q sid m) : Given p q sid m.id := by
  obtain ⟨job, hist⟩ := p
  cases job with
  | work =>
    obtain ⟨rfl, rfl, rfl⟩ := h
    exact ⟨rfl, rfl, rfl⟩
  | fetch | recover => exact h.1
  | _ => exact h.elim

/-- Copies are up to date in what nobody changes, as long as the entry is there. -/
def Faithful (t : Chronicle) : Prop :=
  ∀ p ∈ t.procs, ∀ q sid m, Copy p q sid m → (sid, m.id) ∈ (t.world.slot q).stream.entries →
    ∃ m', (t.world.slot q).body m.id = some m' ∧ m'.ident = m.ident

section Faithful
variable {g : Regime}

theorem Tidy.stays_act (hg : ∀ i op w, g.allow i op w → w.Orderly i op) (h : Tidy s)
    (ha : (g.machine k).Act protocol s t) (q : String) :
    ∀ sid x, (sid, x) ∈ (s.world.slot q).stream.entries →
      (sid, x) ∈ (t.world.slot q).stream.entries →
      (t.world.slot q).body x = (s.world.slot q).body x := by
  refine slots_act (I := fun q u => ∀ sid x, (sid, x) ∈ (s.world.slot q).stream.entries →
    (sid, x) ∈ u.stream.entries → u.body x = (s.world.slot q).body x) ha ?_ ?_ ?_ q
  · exact fun _ _ _ _ _ => rfl
  · intro i p op hp hr hok sid x hs ht
    have hmem := List.mem_of_getElem? hp
    exact Slot.body_stays_run s.world.now (h.ready hmem (h.request hmem hr) (hg i op _ hok))
      (h.located _) hs ht
  · exact fun _ _ _ _ _ _ _ => rfl

/-- A copy that was faithful stays so. -/
theorem faithful_old (hg : ∀ i op w, g.allow i op w → w.Orderly i op) (h : Tidy s)
    (hf : Faithful s) (ha : (g.machine k).Act protocol s t) :
    ∀ p ∈ s.procs, ∀ q sid m, Copy p q sid m → (sid, m.id) ∈ (t.world.slot q).stream.entries →
      ∃ m', (t.world.slot q).body m.id = some m' ∧ m'.ident = m.ident := by
  intro p hp q sid m hc he
  have hs : (sid, m.id) ∈ (s.world.slot q).stream.entries := by
    rcases (streamsGrow_act ha q).mem_or_newer _ he with hs | hs
    · exact hs
    · exact absurd (h.given hp hc.given).1 (Nat.not_le_of_lt hs)
  obtain ⟨m', hm', hid⟩ := hf p hp q sid m hc hs
  exact ⟨m', (h.stays_act hg ha q sid m.id hs he).trans hm', hid⟩

theorem copy_call {hist : Hist} (hc : protocol.call j hist c)
    (hcopy : Copy ⟨j, hist ++ [.call c r]⟩ q sid m) :
    Copy ⟨j, hist⟩ q sid m ∨
      (Event.call c r : Event Cmd Cmd.Reply Job) =
        .call (Cmd.redis (.getTask q m.id)) (some (some m)) := by
  have hread : ∀ j, protocol.call j hist c → Given ⟨j, hist ++ [.call c r]⟩ q sid m.id →
      Did (hist ++ [.call c r]) (.getTask q m.id) (some m) →
      (Given ⟨j, hist⟩ q sid m.id ∧ Did hist (.getTask q m.id) (some m)) ∨
        (Event.call c r : Event Cmd Cmd.Reply Job) =
          .call (Cmd.redis (.getTask q m.id)) (some (some m)) := by
    intro j hc hgiven hdid
    rcases List.mem_append.mp hdid with hd | hd
    · rcases given_call hc hgiven with hgiven | ⟨rfl, -⟩
      · exact Or.inl ⟨hgiven, hd⟩
      · exact absurd hd List.not_mem_nil
    · exact Or.inr (List.mem_singleton.mp hd).symm
  cases j with
  | work => exact Or.inl hcopy
  | fetch | recover => exact hread _ hc hcopy.1 hcopy.2
  | _ => exact hcopy.elim

theorem copy_fork {j' : Job} {hist : Hist} (hcopy : Copy ⟨j, hist ++ [.fork j']⟩ q sid m) :
    Copy ⟨j, hist⟩ q sid m := by
  cases j with
  | fetch | recover => exact ⟨given_fork hcopy.1, did_fork hcopy.2⟩
  | _ => exact hcopy

/-- A process that was started from outside has no copy. -/
theorem Job.External.not_copy (hj : j.External) : ¬ Copy ⟨j, []⟩ q sid m := by
  intro hc
  cases j with
  | work => exact hj
  | fetch | recover => exact absurd hc.2 List.not_mem_nil
  | _ => exact hc

theorem faithful_act (hs : ∀ j, g.spawn j → j.External)
    (hg : ∀ i op w, g.allow i op w → w.Orderly i op) (h : Tidy s) (hf : Faithful s)
    (ha : (g.machine k).Act protocol s t) : Faithful t := by
  have hold := faithful_old hg h hf ha
  intro p' hp' q sid m hcopy he
  cases ha with
  | @call w w' ps i p c r hp hc hex =>
    rcases List.mem_or_eq_of_mem_set hp' with hp' | rfl
    · exact hold p' hp' q sid m hcopy he
    · rcases copy_call hc hcopy with hcopy | hev
      · exact hold p (List.mem_of_getElem? hp) q sid m hcopy he
      · -- the copy was read just now
        cases hev
        obtain ⟨-, rfl, hr⟩ := Regime.exec_answered hex
        refine ⟨m, ?_, rfl⟩
        change ((w.perform k i (.getTask q m.id)).slot (Op.getTask q m.id).queue).body m.id = _
        rw [World.slot_perform_self]
        exact hr.symm
  | @fork w ps i p j hp hfork =>
    have hmem := List.mem_of_getElem? hp
    rcases List.mem_append.mp hp' with hp' | hp'
    · rcases List.mem_or_eq_of_mem_set hp' with hp' | rfl
      · exact hold p' hp' q sid m hcopy he
      · exact hold p hmem q sid m (copy_fork hcopy) he
    · -- the worker's copy is the one its fetch round has read
      rw [List.mem_singleton.mp hp'] at hcopy
      obtain ⟨job, hist⟩ := p
      cases job with
      | fetch qf consumer count keep =>
        cases hfork with
        | @work sid' m' hl hm hu =>
          obtain ⟨id, hfe, hd⟩ := hl
          obtain ⟨rfl, rfl⟩ := h.loaded hmem hd
          obtain ⟨rfl, rfl, rfl⟩ := hcopy
          obtain ⟨m₀, hm₀, hid⟩ := hold _ hmem m'.queue sid' m' ⟨⟨rfl, hfe⟩, hd⟩ he
          exact ⟨m₀, hm₀, hid⟩
      | _ => exact hfork.elim
  | spawn hj =>
    rcases List.mem_append.mp hp' with hp' | hp'
    · exact hold p' hp' q sid m hcopy he
    · rw [List.mem_singleton.mp hp'] at hcopy
      exact absurd hcopy (hs _ hj).not_copy
  | env => exact hold p' hp' q sid m hcopy he

end Faithful

/-! ## Releases to come -/

/-- The request moves the task of an entry to a terminal state. -/
def Op.Ends (q : String) (sid : Nat) (x : String) : Op → Prop
  | .ackDelete q' sid' id => q' = q ∧ sid' = sid ∧ id = x
  | .moveToZSet q' sid' msg z _ => q' = q ∧ sid' = sid ∧ msg.id = x ∧ z ≠ .retry
  | _ => False

/-- The process has just moved the task to a terminal state, and will now release
its lock. -/
def Pending (p : Party) (q key x : String) : Prop :=
  key ≠ "" ∧ ∃ sid m op r, Last p.hist op r ∧ op.Ends q sid x ∧ Copy p q sid m ∧ m.id = x ∧
    m.uniqueKey = key

theorem last_snoc {h : Hist} {e : Event Cmd Cmd.Reply Job} {r : op.Reply}
    (hl : Last (h ++ [e]) op r) : e = .call (Cmd.redis op) (some r) := by
  obtain ⟨h', he⟩ := hl
  exact (List.append_inj' he rfl).2 |> List.singleton_inj.mp

theorem not_pending_nil : ¬ Pending ⟨j, []⟩ q key x := by
  rintro ⟨-, sid, m, op, r, hl, -⟩
  exact absurd hl.did List.not_mem_nil

theorem not_pending_fork {j' : Job} {h : Hist} :
    ¬ Pending ⟨j, h ++ [.fork j']⟩ q key x := by
  rintro ⟨-, sid, m, op, r, hl, -⟩
  cases last_snoc hl

/-- A process that has just been started has nothing to release. -/
theorem pending_snoc {ps : List Party} {jb : Job} {j : Nat}
    (hj : (ps ++ [⟨jb, []⟩])[j]? = some p) (hp : Pending p q key x) : ps[j]? = some p := by
  rcases Nat.lt_or_ge j ps.length with hlt | hge
  · rwa [List.getElem?_append_left hlt] at hj
  · rw [List.getElem?_append_right hge] at hj
    obtain rfl := List.mem_singleton.mp (List.mem_of_getElem? hj)
    exact absurd hp not_pending_nil

/-- The client requests of a run without lock keys of their own; no `DeleteTask`. -/
def Op.Keyless : Op → Prop
  | .enqueue msg | .schedule msg _ | .enqueuePeriodic msg _ _ => msg.uniqueKey = ""
  | .chainEnqueue msg | .chainSchedule msg _ => msg.uniqueKey = ""
  | _ => True

def Job.Keyless : Job → Prop
  | .send op => op.Keyless
  | .sendAll ops => ∀ op ∈ ops, op.Keyless
  | .deleteTask .. => False
  | _ => True

@[simp] theorem ident_withResult (m : TaskMessage) (r : Option Bytes) :
    (withResult m r).ident = m.ident := by
  cases r <;> rfl

/-- What a process stores when it acknowledges an entry is its copy, with the
fields it has to update. -/
theorem Sane.copied (h : Sane t) (hp : p ∈ t.procs) {z : ZKey} {score : Int}
    (hr : p.job.Request p.hist (.moveToZSet q sid msg z score)) :
    ∃ m, Copy p q sid m ∧ msg.id = m.id ∧ msg.ident = m.ident := by
  obtain ⟨job, hist⟩ := p
  cases job with
  | send | sendAll => cases h.traffic hp trivial hr
  | deleteTask | fetch => cases hr
  | work q' sid' m =>
    cases hr with
    | link _ _ _ ho | member _ _ _ _ _ ho | drain _ _ ho | report _ _ _ ho => cases ho
    | @retain r => exact ⟨m, ⟨rfl, rfl, rfl⟩, by simp, (ident_withResult m r :)⟩
    | archive | retry => exact ⟨m, ⟨rfl, rfl, rfl⟩, rfl, rfl⟩
  | recover =>
    cases hr with
    | archive hc | retry hc =>
      obtain ⟨id, hcl, hd⟩ := hc
      obtain ⟨rfl, -⟩ := h.loaded hp hd
      exact ⟨_, ⟨⟨rfl, hcl⟩, hd⟩, rfl, rfl⟩

/-- A lock is released by a process that has just finished the task. -/
theorem Sane.releases (h : Sane t) (hp : p ∈ t.procs) (hk : p.job.Keyless)
    (hr : p.job.Request p.hist (.releaseUnique q key x)) : Pending p q key x := by
  obtain ⟨job, hist⟩ := p
  have hj := (h.knows _ hp).1
  cases job with
  | send | sendAll => cases h.traffic hp trivial hr
  | deleteTask => exact hk.elim
  | fetch => cases hr
  | work q' sid m =>
    cases hr with
    | link _ _ _ ho | member _ _ _ _ _ ho | drain _ _ ho | report _ _ _ ho => cases ho
    | @release op r hl hack ht hne =>
      have hq : m.queue = q' := hj.2
      refine ⟨hne, sid, m, op, r, hl, ?_, ⟨hq.symm, rfl, rfl⟩, rfl, rfl⟩
      rcases ht with rfl | ⟨msg, z, score, rfl, hid, -, hz⟩
      · exact ⟨hq.symm, rfl, rfl⟩
      · exact ⟨hq.symm, rfl, hid, hz⟩
  | recover q' consumer minIdle max =>
    cases hr with
    | @release sid m score hc hl hne =>
      obtain ⟨id, hcl, hd⟩ := hc
      obtain ⟨rfl, rfl⟩ := h.loaded hp hd
      exact ⟨hne, sid, m, .moveToZSet m.queue sid m .archived score, (), hl,
        ⟨rfl, rfl, rfl, by decide⟩, ⟨⟨rfl, hcl⟩, hd⟩, rfl, rfl⟩

theorem LinkOp.keyless {delay : Int} (h : LinkOp msg delay op) (hm : msg.uniqueKey = "")
    (s : Slot) : s.Honest op := by
  cases h <;> exact hm

theorem ReportOp.keyless {member : TaskMessage} (h : ReportOp member op) (s : Slot) :
    s.Honest op := by
  cases h <;> rfl

/-- Successors and callbacks carry no lock, and clients do not make up keys. -/
theorem Sane.honest (hp : p ∈ t.procs) (h : Sane t) (hk : p.job.Keyless)
    (hr : p.job.Request p.hist op) (s : Slot)
    (hmove : ∀ q sid msg z score, op = .moveToZSet q sid msg z score → s.Honest op)
    (hrun : ∀ q id, op = .runTask q id → s.Honest op) : s.Honest op := by
  obtain ⟨job, hist⟩ := p
  have hj := (h.knows _ hp).1
  have hsend : Traffic op → op.Keyless → s.Honest op := by
    intro ht hkey
    cases ht with
    | runTask q id => exact hrun q id rfl
    | enqueue | schedule | enqueuePeriodic | chainEnqueue | chainSchedule => exact hkey
    | _ => trivial
  cases job with
  | send op =>
    obtain rfl := List.mem_singleton.mp (List.mem_of_getElem? hr.next)
    exact hsend hj hk
  | sendAll ops =>
    have hmem := List.mem_of_getElem? hr.next
    exact hsend (hj _ hmem) (hk _ hmem)
  | deleteTask => exact hk.elim
  | fetch => cases hr <;> trivial
  | work q sid m =>
    cases hr with
    | link _ _ _ ho | member _ _ _ _ _ ho => exact ho.keyless rfl s
    | drain _ _ ho | report _ _ _ ho => exact ho.keyless s
    | retain | archive | retry => exact hmove _ _ _ _ _ rfl
    | _ => trivial
  | recover =>
    cases hr with
    | archive | retry => exact hmove _ _ _ _ _ rfl
    | _ => trivial

/-! ## Runs -/

/-- `RunTask` is not used on a unique task in a terminal state. -/
def World.NoRerun (w : World) : Op → Prop
  | .runTask q id => ∀ m, (w.slot q).body id = some m → m.uniqueKey ≠ "" →
      id ∉ (w.slot q).zset .archived ∧ id ∉ (w.slot q).zset .completed
  | _ => True

/-- Enqueues with and without lock, workers, recoverer, forwarders, janitor and
`RunTask`; entries are acted on by their owners, and no lock expires. -/
def lockRuns : Regime where
  spawn := fun j => j.External ∧ j.Keyless
  allow := fun i op w => w.Owns i op
  handler := fun _ _ _ => True
  tick := fun w t => ∀ q key l, (w.slot q).unique key = some l → t < l.expireAt
  faults := True
  crash := True

/-- The same, with identifiers that are not in use and no terminal unique task run
again. -/
def lockSafe : Regime :=
  { lockRuns with allow := fun i op w => w.Orderly i op ∧ w.NoRerun op }

theorem lockSafe_external (h : lockSafe.spawn j) : j.External := h.1

theorem lockSafe_orderly (i : Nat) (op : Op) (w : World) (h : lockSafe.allow i op w) :
    w.Orderly i op := h.1

/-- The invariant of the locks. -/
structure Locked (k : Keys) (t : Chronicle) : Prop extends Tidy t where
  keyless : ∀ p ∈ t.procs, p.job.Keyless
  faithful : Faithful t
  /-- A lock key is made from the content of its task. -/
  genuine : ∀ q x m, (t.world.slot q).body x = some m →
    m.uniqueKey = "" ∨ m.uniqueKey = (Slot.withUniqueKey k m).uniqueKey
  /-- A task in the pipeline owns its lock. -/
  held : ∀ q x key, (t.world.slot q).Holder x key → (t.world.slot q).lockOwner key = some x
  /-- Until a lock is released it is the task's, which is out of the pipeline, and
  nobody else will release it. -/
  pending : ∀ (i : Nat) p q key x, t.procs[i]? = some p → Pending p q key x →
    (t.world.slot q).lockOwner key = some x ∧ ¬ (t.world.slot q).Holder x key ∧
      ∀ (j : Nat) p', t.procs[j]? = some p' → Pending p' q key x → j = i

namespace Locked

theorem honest (h : Locked k s) (hp : p ∈ s.procs) (hr : p.job.Request p.hist op)
    (hok : lockSafe.allow i op s.world) :
    (s.world.slot op.queue).Honest op := by
  refine Sane.honest hp h.toSane (h.keyless p hp) hr _ ?_ ?_
  · rintro q sid msg z score rfl
    obtain ⟨m, hcopy, hid, hident⟩ := h.copied hp hr
    have hentry : (sid, msg.id) ∈ (s.world.slot q).stream.entries :=
      h.ready hp (h.request hp hr) hok.1
    rw [hid] at hentry
    obtain ⟨m', hm', hi⟩ := h.faithful p hp q sid m hcopy hentry
    exact ⟨m', hid ▸ hm', hi.trans hident.symm⟩
  · rintro q id rfl
    exact hok.2

/-- What a request can do to holders: none is added that does not take its lock. -/
theorem holder_perform (h : Locked k s) (hp : p ∈ s.procs) (hr : p.job.Request p.hist op)
    (hok : lockSafe.allow i op s.world) (ht : (s.world.slotAfter k op).Holder x key) :
    (s.world.slot op.queue).Holder x key ∨
      (s.world.slot op.queue).lockOwner key = none ∧
        (s.world.slotAfter k op).lockOwner key = some x := by
  have hj := h.request hp hr
  rcases Slot.holder_run s.world.now hj (h.ready hp hj hok.1) (h.honest hp hr hok) ht with hx | ha
  · exact Or.inl hx
  · exact Slot.acquired_run s.world.now ha ht

/-- Expiry leaves holders and, as no lock runs out, locks alone. -/
theorem lockOwner_purge {w : World} {now : Int} (ht : lockSafe.tick w now) (q key : String) :
    ((w.slot q).purge now).lockOwner key = (w.slot q).lockOwner key := by
  unfold Slot.lockOwner
  change Option.map _ (((w.slot q).unique key).filter _) = _
  cases hl : (w.slot q).unique key with
  | none => rfl
  | some l => rw [Option.filter_some_pos (by simpa using ht q key l hl)]

theorem held_act (h : Locked k s) (ha : (lockSafe.machine k).Act protocol s t) :
    ∀ q x key, (t.world.slot q).Holder x key → (t.world.slot q).lockOwner key = some x := by
  refine slots_act (I := fun _ u => ∀ x key, u.Holder x key → u.lockOwner key = some x) ha h.held
    ?_ ?_
  · intro i p op hp hr hok x key ht
    have hmem := List.mem_of_getElem? hp
    rcases h.holder_perform hmem hr hok ht with hx | ⟨-, hnew⟩
    · refine Slot.lockOwner_run s.world.now (h.held _ _ _ hx) ?_
      -- a lock about to be released belongs to a task that is out of the pipeline
      rintro q rfl
      exact (h.pending i p q key x hp (h.releases hmem (h.keyless p hmem) hr)).2.1 hx
    · exact hnew
  · intro q now ht x key hx
    rw [lockOwner_purge ht]
    exact h.held q x key (Slot.Same.holder (Slot.Agree.same ⟨rfl, rfl, rfl⟩) hx)

theorem genuine_act (h : Locked k s) (ha : (lockSafe.machine k).Act protocol s t) :
    ∀ q x m, (t.world.slot q).body x = some m →
      m.uniqueKey = "" ∨ m.uniqueKey = (Slot.withUniqueKey k m).uniqueKey := by
  refine slots_act (I := fun _ u => ∀ x m, u.body x = some m →
    m.uniqueKey = "" ∨ m.uniqueKey = (Slot.withUniqueKey k m).uniqueKey) ha h.genuine ?_
    (fun q _ _ => h.genuine q)
  intro i p op hp hr hok x m hm
  have hh := h.honest (List.mem_of_getElem? hp) hr hok
  rcases body_run hm with hm | ⟨msg, st, hst, rfl, rfl⟩
  · exact h.genuine _ _ _ hm
  · cases hst with
    | enqueue ho =>
      cases ho with
      | plain => exact Or.inl hh
      | unique => exact Or.inr rfl
      | periodic => exact Or.inl hh
    | schedule ho =>
      cases ho with
      | plain => exact Or.inl hh
      | unique => exact Or.inr rfl
    | create ho => cases ho <;> exact Or.inl hh
    | move ho =>
      subst ho
      obtain ⟨m, hm, hid⟩ := hh
      have hg := h.genuine _ _ _ hm
      simp only [TaskMessage.ident, Prod.mk.injEq] at hid
      obtain ⟨hkind, hpay, hqueue, hkey⟩ := hid
      simpa only [Slot.withUniqueKey, ← hkind, ← hpay, ← hqueue, ← hkey] using hg

/-- The task that a process finishes held its lock, and no longer does. -/
theorem ends (h : Locked k s) (hp : p ∈ s.procs) (hr : p.job.Request p.hist op)
    (hok : lockSafe.allow i op s.world) (he : op.Ends q sid m.id) (hcopy : Copy p q sid m)
    (hk : m.uniqueKey ≠ "") :
    op.queue = q ∧ (s.world.slot q).Holder m.id m.uniqueKey ∧
      ¬ (s.world.slotAfter k op).Holder m.id m.uniqueKey := by
  have hj := h.request hp hr
  have hready := h.ready hp hj hok.1
  -- the entry is there, so the copy's lock key is the stored one
  have hheld : (sid, m.id) ∈ (s.world.slot q).stream.entries →
      (s.world.slot q).Holder m.id m.uniqueKey := by
    intro hentry
    obtain ⟨m', hm', hid⟩ := h.faithful p hp q sid m hcopy hentry
    exact ⟨hk, ⟨.entry sid, trivial, hentry⟩, m', hm', congrArg (fun i => i.2.2.2) hid⟩
  cases op with
  | ackDelete q' sid' id =>
    obtain ⟨rfl, rfl, rfl⟩ := he
    exact ⟨rfl, hheld hready, Slot.not_holder_of_body ((Slot.body_ackDelete ..).trans (if_pos rfl))⟩
  | moveToZSet q' sid' msg z score =>
    obtain ⟨rfl, rfl, hid, hz⟩ := he
    refine ⟨rfl, hheld (hid ▸ hready), ?_⟩
    rintro ⟨-, ⟨pl, hlive, hat⟩, -⟩
    -- after the request the task sits in its terminal set and nowhere else
    have hloc := Slot.located_run (k := k) s.world.now hready (h.located _) msg.id
    have hset : ((s.world.slot q').moveToZSet sid' msg z score).At msg.id (.set z) := by
      simp [Slot.At]
    have hsit := Slot.Located.sits hloc hset
    rw [← hid] at hat
    obtain rfl := (hsit.at_iff pl).mp hat
    rcases hlive with rfl | rfl
    · exact hz rfl
    · exact hj.2.2 rfl
  | _ => exact he.elim

theorem keyless_act (h : Locked k s) (ha : (lockSafe.machine k).Act protocol s t) :
    ∀ p ∈ t.procs, p.job.Keyless := by
  have hk : s.Knows (fun _ j => j.Keyless) (fun _ _ => True) :=
    fun p hp => ⟨h.keyless p hp, fun _ _ => trivial⟩
  refine fun p hp => (hk.act ha (fun _ h => h) (fun _ h => h) (fun _ _ _ _ _ _ _ => trivial) ?_
    (fun _ hj => hj.2) p hp).1
  intro i p j hp hf
  refine ⟨trivial, ?_⟩
  obtain ⟨job, hist⟩ := p
  cases job with
  | fetch =>
    cases hf
    trivial
  | _ => exact hf.elim

theorem pending_old (h : Locked k s) {w' : World} (hp : s.procs[i]? = some p)
    (hc : protocol.call p.job p.hist c) (he : lockSafe.exec k i c s.world r w') {j : Nat}
    {p' : Party} (hji : j ≠ i) (hj : s.procs[j]? = some p')
    (hpend : Pending p' q key x) :
    (w'.slot q).lockOwner key = some x ∧ ¬ (w'.slot q).Holder x key := by
  obtain ⟨hlock, hout, huniq⟩ := h.pending j p' q key x hj hpend
  have hmem := List.mem_of_getElem? hp
  rcases Regime.exec_cases he with rfl | ⟨_, _, _, _, rfl⟩ | ⟨op, rfl, hok, rfl⟩
  · exact ⟨hlock, hout⟩
  · exact ⟨hlock, hout⟩
  · by_cases hq : q = op.queue
    · subst hq
      rw [World.slot_perform_self]
      constructor
      · refine Slot.lockOwner_run s.world.now hlock ?_
        rintro q rfl
        exact hji (huniq i p hp (h.releases hmem (h.keyless p hmem) hc)).symm
      · intro ht
        rcases h.holder_perform hmem hc hok ht with hx | ⟨hnone, -⟩
        · exact hout hx
        · rw [hlock] at hnone
          cases hnone
    · rw [World.slot_perform_ne hq]
      exact ⟨hlock, hout⟩

theorem pending_new (h : Locked k s) {w' : World} (hp : s.procs[i]? = some p)
    (hc : protocol.call p.job p.hist c) (he : lockSafe.exec k i c s.world r w')
    (hpend : Pending ⟨p.job, p.hist ++ [.call c r]⟩ q key x) :
    (w'.slot q).lockOwner key = some x ∧ ¬ (w'.slot q).Holder x key ∧
      (s.world.slot q).Holder x key := by
  obtain ⟨hk, sid, m, op, r', hl, hends, hcopy, rfl, rfl⟩ := hpend
  cases last_snoc hl
  have hmem := List.mem_of_getElem? hp
  obtain ⟨hok, rfl, -⟩ := Regime.exec_answered he
  have hcopy : Copy p q sid m := by
    rcases copy_call hc hcopy with hcopy | hev
    · exact hcopy
    · cases hev
      exact hends.elim
  obtain ⟨rfl, hbefore, hafter⟩ := h.ends hmem hc hok hends hcopy hk
  rw [World.slot_perform_self]
  refine ⟨Slot.lockOwner_run s.world.now (h.held _ _ _ hbefore) ?_, hafter, hbefore⟩
  rintro q rfl
  exact hends.elim

theorem pending_act (h : Locked k s) (ha : (lockSafe.machine k).Act protocol s t) :
    ∀ (i : Nat) p q key x, t.procs[i]? = some p → Pending p q key x →
      (t.world.slot q).lockOwner key = some x ∧ ¬ (t.world.slot q).Holder x key ∧
        ∀ (j : Nat) p', t.procs[j]? = some p' → Pending p' q key x → j = i := by
  cases ha with
  | @call w w' ps i p c r hp hc he =>
    have hlt : i < ps.length := (List.getElem?_eq_some_iff.mp hp).1
    intro j p' q key x hj hpend
    by_cases hji : j = i
    · subst hji
      obtain rfl : ⟨p.job, p.hist ++ [.call c r]⟩ = p' := by
        simpa [List.getElem?_set_self hlt] using hj
      obtain ⟨hlock, hout, hin⟩ := h.pending_new hp hc he hpend
      refine ⟨hlock, hout, fun j₂ p₂ hj₂ hpend₂ => by_contra fun hne => ?_⟩
      rw [List.getElem?_set_ne (Ne.symm hne)] at hj₂
      exact (h.pending j₂ p₂ q key x hj₂ hpend₂).2.1 hin
    · rw [List.getElem?_set_ne (Ne.symm hji)] at hj
      obtain ⟨hlock, hout⟩ := h.pending_old hp hc he hji hj hpend
      refine ⟨hlock, hout, fun j₂ p₂ hj₂ hpend₂ => ?_⟩
      by_cases hj₂i : j₂ = i
      · subst hj₂i
        obtain rfl : ⟨p.job, p.hist ++ [.call c r]⟩ = p₂ := by
          simpa [List.getElem?_set_self hlt] using hj₂
        exact absurd (h.pending_new hp hc he hpend₂).2.2 (h.pending j p' q key x hj hpend).2.1
      · rw [List.getElem?_set_ne (Ne.symm hj₂i)] at hj₂
        exact (h.pending j p' q key x hj hpend).2.2 j₂ p₂ hj₂ hpend₂
  | @fork w ps i p jb hp hf =>
    have hold : ∀ {j : Nat} {p' q key x},
        (ps.set i ⟨p.job, p.hist ++ [.fork jb]⟩ ++ [⟨jb, []⟩])[j]? = some p' →
          Pending p' q key x → ps[j]? = some p' := by
      intro j p' q key x hj hpend
      have hj := pending_snoc hj hpend
      by_cases hji : i = j
      · subst hji
        rw [List.getElem?_set_self (List.getElem?_eq_some_iff.mp hp).1] at hj
        cases hj
        exact absurd hpend not_pending_fork
      · rwa [List.getElem?_set_ne hji] at hj
    intro j p' q key x hj hpend
    change ((w.give i ps.length jb).slot q).lockOwner key = some x ∧
      ¬ ((w.give i ps.length jb).slot q).Holder x key ∧ _
    rw [World.slot_give]
    obtain ⟨hlock, hout, huniq⟩ := h.pending j p' q key x (hold hj hpend) hpend
    exact ⟨hlock, hout, fun j₂ p₂ hj₂ hpend₂ => huniq j₂ p₂ (hold hj₂ hpend₂) hpend₂⟩
  | spawn =>
    intro j p' q key x hj hpend
    obtain ⟨hlock, hout, huniq⟩ := h.pending j p' q key x (pending_snoc hj hpend) hpend
    exact ⟨hlock, hout, fun j₂ p₂ hj₂ hpend₂ => huniq j₂ p₂ (pending_snoc hj₂ hpend₂) hpend₂⟩
  | env he =>
    obtain ⟨now, -, ht, rfl⟩ := he
    intro j p' q key x hj hpend
    obtain ⟨hlock, hout, huniq⟩ := h.pending j p' q key x hj hpend
    refine ⟨(lockOwner_purge ht q key).trans hlock, fun hx => hout ?_, huniq⟩
    exact Slot.Same.holder (Slot.Agree.same ⟨rfl, rfl, rfl⟩) hx

/-- **Every step keeps the locks with the tasks that are in the pipeline.** -/
theorem act (h : Locked k s) (ha : (lockSafe.machine k).Act protocol s t) : Locked k t where
  toTidy := h.toTidy.act (fun _ => lockSafe_external) lockSafe_orderly ha
  keyless := h.keyless_act ha
  faithful := faithful_act (fun _ => lockSafe_external) lockSafe_orderly h.toTidy h.faithful ha
  genuine := h.genuine_act ha
  held := h.held_act ha
  pending := h.pending_act ha

theorem init (k : Keys) : Locked k ⟨World.init, []⟩ where
  toTidy := Tidy.init
  keyless := fun _ hp => absurd hp List.not_mem_nil
  faithful := fun _ hp => absurd hp List.not_mem_nil
  genuine := fun _ _ _ hm => nomatch hm
  held := fun _ _ _ ⟨_, _, _, hm, _⟩ => nomatch hm
  pending := fun _ _ _ _ _ hp => nomatch hp

end Locked

/-- **Unique-lock exclusion.**  In every state of every run in which identifiers
are not reused while in use and no terminal unique task is run again, at most one
task of a queue with a given lock key is in the pipeline, and while one is, an
enqueue of the same kind, payload and queue is rejected as a duplicate and changes
nothing. -/
theorem unique_tasks_excluded (k : Keys) {c : Deployment}
    (hr : (lockSafe.machine k).Reaches World.init [] c)
    {q x key : String} (hx : (c.world.slot q).Holder x key) :
    (∀ y, (c.world.slot q).Holder y key → y = x) ∧
      ∀ m msg : TaskMessage, (c.world.slot q).body x = some m → msg.kind = m.kind →
        msg.payload = m.payload → msg.queue = m.queue → ∀ ttl now processAt : Int,
          (c.world.slot q).enqueueUnique k msg ttl now = (c.world.slot q, false) ∧
          (c.world.slot q).scheduleUnique k msg processAt ttl now = (c.world.slot q, false) := by
  obtain ⟨hs, hinv, -⟩ := Discipline.invariant (obeys_protocol lockSafe k) (Locked.init k)
    (fun _ _ h ha => h.act ha) hr
  have hlock := hinv.held q x key hx
  refine ⟨fun y hy => ?_, fun m msg hm hkind hpay hqueue ttl now processAt => ?_⟩
  · exact Option.some.inj ((hinv.held q y key hy).symm.trans hlock)
  · -- the lock of the content is the lock the task holds
    obtain ⟨hne, -, m', hm', hkey⟩ := hx
    obtain rfl : m' = m := Option.some.inj (hm'.symm.trans hm)
    have hgen : (Slot.withUniqueKey k msg).uniqueKey = key := by
      rcases hinv.genuine q x m' hm with hg | hg
      · exact absurd (hkey.symm.trans hg) hne
      · rw [← hkey, hg]
        simp only [Slot.withUniqueKey, hkind, hpay, hqueue]
    have htaken : ((c.world.slot q).unique (Slot.withUniqueKey k msg).uniqueKey).isSome := by
      rw [hgen]
      unfold Slot.lockOwner at hlock
      obtain ⟨l, hl, -⟩ := Option.map_eq_some_iff.mp hlock
      rw [hl]
      rfl
    exact ⟨if_pos htaken, if_pos htaken⟩

instance (s : Slot) (x : String) : Decidable (s.InPipeline x) :=
  decidable_of_iff ((∃ e ∈ s.stream.entries, e.2 = x) ∨ x ∈ s.zset .retry ∨
    x ∈ s.zset .scheduled) <| by
    constructor
    · rintro (⟨e, he, rfl⟩ | h | h)
      · exact ⟨.entry e.1, trivial, he⟩
      · exact ⟨.set .retry, Or.inl rfl, h⟩
      · exact ⟨.set .scheduled, Or.inr rfl, h⟩
    · rintro ⟨sid | z, hl, h⟩
      · exact Or.inl ⟨(sid, x), h, rfl⟩
      · rcases hl with rfl | rfl
        · exact Or.inr (Or.inl h)
        · exact Or.inr (Or.inr h)

instance (s : Slot) (x key : String) : Decidable (s.Holder x key) :=
  decidable_of_iff (key ≠ "" ∧ s.InPipeline x ∧
    (s.body x).map TaskMessage.uniqueKey = some key) <| by
    unfold Slot.Holder
    rw [Option.map_eq_some_iff]

/-- The lock key of the sample tasks. -/
def sampleKey : String := (Slot.withUniqueKey sampleKeys (sampleTask "x")).uniqueKey

/-- A unique task that is being processed excludes its duplicates. -/
theorem processed_task_excludes : ∃ c : Deployment,
    (lockSafe.machine sampleKeys).Reaches World.init [] c ∧
      (c.world.slot "q").Holder "x" sampleKey ∧
      ∀ y, (c.world.slot "q").Holder y sampleKey → y = "x" := by
  have hlets : lockSafe.Lets fun i op w => decide (w.Orderly i op) &&
      match op with
      | .runTask .. => false
      | _ => true := by
    refine ⟨fun i op w h => ?_, fun _ _ _ => trivial⟩
    obtain ⟨ho, hn⟩ := Bool.and_eq_true_iff.mp h
    refine ⟨of_decide_eq_true ho, ?_⟩
    cases op with
    | runTask => cases hn
    | _ => trivial
  obtain ⟨c, hr, hw⟩ := (player_sound (k := sampleKeys) hlets).exists_reaches
    [.spawn (.send (.enqueueUnique (sampleTask "x") 60)), Choice.go 0,
      .spawn (.fetch "q" "c" 1 0), Choice.go 1, Choice.go 1, Choice.go 1,
      Choice.go 1]
    (And.intro ⟨Traffic.enqueueUnique _ _, trivial⟩ (And.intro ⟨trivial, trivial⟩ trivial))
    World.init []
    (fun w => decide ((w.slot "q").Holder "x" sampleKey)) (by decide +kernel)
  have hx := of_decide_eq_true hw
  exact ⟨c, hr, hx, (unique_tasks_excluded sampleKeys hr hx).1⟩

/-- A unique task fails for good and is archived; its lock is released.  An
operator runs it again, and then the same content is enqueued under another
identifier: both are in the pipeline. -/
theorem rerun_breaks_exclusion : ∃ c : Deployment,
    (lockRuns.machine sampleKeys).Reaches World.init [] c ∧
      (c.world.slot "q").Holder "x" sampleKey ∧ (c.world.slot "q").Holder "y" sampleKey := by
  have hlets : lockRuns.Lets fun i op w => decide (w.Owns i op) :=
    ⟨fun i op w h => (of_decide_eq_true h : w.Owns i op), fun _ _ _ => trivial⟩
  obtain ⟨c, hr, hw⟩ := (player_sound (k := sampleKeys) hlets).exists_reaches
    [.spawn (.send (.enqueueUnique (sampleTask "x") 60)), Choice.go 0,
      .spawn (.fetch "q" "c" 1 0), Choice.go 1, Choice.go 1, Choice.go 1,
      Choice.go 1, .step 2 (.fail "bad" true), Choice.go 2, Choice.go 2,
      Choice.go 2, .spawn (.send (.runTask "q" "x")), Choice.go 3,
      .spawn (.send (.enqueueUnique (sampleTask "y") 60)), Choice.go 4]
    (And.intro ⟨Traffic.enqueueUnique _ _, trivial⟩ (And.intro ⟨trivial, trivial⟩
      (And.intro ⟨Traffic.runTask _ _, trivial⟩
        (And.intro ⟨Traffic.enqueueUnique _ _, trivial⟩ trivial))))
    World.init []
    (fun w => decide ((w.slot "q").Holder "x" sampleKey ∧ (w.slot "q").Holder "y" sampleKey))
    (by decide +kernel)
  exact ⟨c, hr, of_decide_eq_true hw⟩

end ChronosGo
