import ChronosGo.Passage
import ChronosGo.Replay

/-! # Due times

Tasks that are to run later wait in a sorted set, with a score that the forwarder
compares with the clock.  There are five ways into these sets, and they do not agree on
the score: `Schedule` and `ScheduleUnique` keep the nanoseconds of the due time, the
others round it down to whole seconds.

A pass of the forwarder takes a task from its set if and only if its score is reached
(`forwards_iff`), so a task that was placed is early for some pass if and only if the
score is below its due time (`on_time_iff`).
-/
namespace ChronosGo
open Redis Slot

/-! ## Into the sets -/

/-- The ways into the sorted sets of tasks that wait for their time. -/
inductive Placement where
  | schedule (msg : TaskMessage) (processAt : Int)
  | scheduleUnique (msg : TaskMessage) (processAt ttl : Int)
  /-- `EnqueueChainLink` of a delayed link. -/
  | chainLink (msg : TaskMessage) (delay : Int) (hd : 0 < delay)
  /-- `CompleteGroupMember`, of a member whose group has a delayed callback. -/
  | callback (member : TaskMessage) (link : ChainLink) (hd : 0 < link.delay)
  | retry (sid : Nat) (msg : TaskMessage) (retryAt : Int)

namespace Placement

/-- The task that is placed. -/
def id : Placement → String
  | schedule msg _ | scheduleUnique msg _ _ | chainLink msg _ _ | retry _ msg _ => msg.id
  | callback member _ _ => callbackID member.groupID

/-- The set it is placed in. -/
def set : Placement → ZKey
  | retry .. => .retry
  | _ => .scheduled

/-- The time at which the task is to run, if it is placed at `t₀`. -/
def due (t₀ : Int) : Placement → Int
  | schedule _ processAt | scheduleUnique _ processAt _ => processAt
  | chainLink _ delay _ => t₀ + delay
  | callback _ link _ => t₀ + link.delay * second
  | retry _ _ retryAt => retryAt

/-- The score it is given. -/
def score (t₀ : Int) : Placement → Int
  | schedule _ processAt | scheduleUnique _ processAt _ => processAt
  | chainLink _ delay _ => unix (t₀ + delay) * second
  | callback _ link _ => unix (t₀ + delayDuration link.delay) * second
  | retry _ _ retryAt => unix retryAt * second

/-- The keys after the request, and whether it has placed the task. -/
def place (k : Keys) (t₀ : Int) (s : Slot) (p : Placement) : Slot × Bool :=
  match p with
  | schedule msg _ => (s.schedule msg (p.score t₀), true)
  | scheduleUnique msg _ ttl => s.scheduleUnique k msg (p.score t₀) ttl t₀
  | chainLink msg _ _ => s.chainSchedule msg (p.score t₀)
  | callback member link _ => s.groupComplete (memberReport member link (some (p.score t₀))) t₀
  | retry sid msg _ => (s.moveToZSet sid msg .retry (p.score t₀), true)

/-- Whether the due time survives the rounding: it is exact for `Schedule` and
`ScheduleUnique`; else it has to be a whole second, or past for a retry; and the delay of a
callback, in nanoseconds, has to fit an `int64`. -/
def Exact (t₀ : Int) : Placement → Prop
  | schedule .. | scheduleUnique .. => True
  | chainLink _ delay _ => second ∣ t₀ + delay
  | callback _ link _ => link.delay * second < 2 ^ 63 ∧ second ∣ t₀
  | retry _ _ retryAt => retryAt ≤ t₀ ∨ second ∣ retryAt

variable {k : Keys} {t₀ : Int} {s : Slot} {p : Placement}

/-- A task that was placed has its score. -/
theorem zscore_place (h : (p.place k t₀ s).2 = true) :
    ((p.place k t₀ s).1.zset p.set).zscore p.id = some (p.score t₀) := by
  have hschedule : ∀ (s : Slot) (msg : TaskMessage) (score : Int),
      ((s.schedule msg score).zset .scheduled).zscore msg.id = some score := by
    intro s msg score
    simp [Slot.schedule, clearStale, Slot.zrem, Slot.zadd]
  have hplace : ∀ (s : Slot) (cb : TaskMessage) (score : Int) (id : String), cb.id = id →
      ((s.placeCallback cb (some score)).zset .scheduled).zscore id = some score := by
    rintro s cb score _ rfl
    simp [Slot.placeCallback, Slot.zadd]
  cases p with
  | schedule msg processAt => exact hschedule s msg processAt
  | scheduleUnique msg processAt ttl =>
    simp only [place, Slot.scheduleUnique] at h ⊢
    split at h
    · cases h
    · rename_i hfree
      rw [if_neg hfree]
      exact hschedule _ (withUniqueKey k msg) processAt
  | chainLink msg delay hd =>
    simp only [place, Slot.chainSchedule] at h ⊢
    split at h
    · cases h
    · rename_i hnew
      rw [if_neg hnew]
      simp [Slot.zadd, set, id]
  | callback member link hd =>
    rcases Slot.groupComplete_cases s (memberReport member link
      (some ((callback member link hd).score t₀))) t₀ with ⟨-, hf⟩ | ⟨-, -, heq⟩
    · cases hf.symm.trans h
    · change ((s.groupComplete (memberReport member link
        (some ((callback member link hd).score t₀))) t₀).1.zset .scheduled).zscore _ = _
      rw [heq]
      exact hplace _ _ _ _ (withResults_id _ _ _)
  | retry sid msg retryAt => simp [place, Slot.moveToZSet, Slot.zadd, set, id]

end Placement

/-! ## Out of the sets -/

/-- What a pass of the forwarder at `now` compares the scores with: `ForwardRetry` has whole
seconds, `ForwardScheduled` the exact time. -/
def ZKey.cutoff (z : ZKey) (now : Int) : Int :=
  match z with
  | .retry => unix now * second
  | _ => now

/-- A pass with this cutoff takes the task from its set into the stream. -/
def Slot.Forwards (u : Slot) (z : ZKey) (cutoff : Int) (max : Nat) (id : String) : Prop :=
  id ∈ u.zset z ∧ id ∉ (u.forward z cutoff max).1.zset z

instance (u : Slot) (z : ZKey) (cutoff : Int) (max : Nat) (id : String) :
    Decidable (u.Forwards z cutoff max id) :=
  inferInstanceAs (Decidable (_ ∧ _))

theorem Slot.forwards_iff {u : Slot} {z : ZKey} {cutoff : Int} {max : Nat} {id : String} :
    u.Forwards z cutoff max id ↔ id ∈ (u.zset z).zrangebyscore cutoff max := by
  have hfold : ∀ (ids : List String) (u : Slot),
      id ∈ (ids.foldl (forwardOne z) u).zset z ↔ id ∈ u.zset z ∧ id ∉ ids := by
    intro ids
    induction ids with
    | nil => simp
    | cons a ids ih =>
      intro u
      rw [List.foldl_cons, ih, mem_zset_forwardOne, List.mem_cons]
      tauto
  unfold Forwards forward
  rw [hfold]
  constructor
  · rintro ⟨hmem, hnot⟩
    by_contra hno
    exact hnot ⟨hmem, hno⟩
  · intro h
    exact ⟨ZSet.mem_of_mem_zrangebyscore h, fun hn => hn.2 h⟩

namespace Placement
variable {k : Keys} {t₀ : Int} {s : Slot} {p : Placement}

/-- A score is reached by the cutoff when it is reached by the clock. -/
theorem score_le_cutoff (p : Placement) (t₀ now : Int) :
    p.score t₀ ≤ p.set.cutoff now ↔ p.score t₀ ≤ now := by
  cases p with
  | retry sid msg retryAt =>
    change unix retryAt * second ≤ unix now * second ↔ unix retryAt * second ≤ now
    unfold unix second
    omega
  | _ => exact Iff.rfl

/-- The score and the time of the placement are both below the due time, unless it is
exact. -/
theorem due_le_iff (p : Placement) (t₀ : Int) : p.due t₀ ≤ max t₀ (p.score t₀) ↔ p.Exact t₀ := by
  cases p with
  | schedule | scheduleUnique => simp [due, score, Exact]
  | chainLink msg delay hd =>
    simp only [due, score, Exact]
    unfold unix second
    omega
  | callback member link hd =>
    have hpos : 0 < link.delay * second := Int.mul_pos hd (by decide)
    have hlt : delayDuration link.delay < 2 ^ 63 := wrap64_lt _
    have hfits : link.delay * second < 2 ^ 63 → delayDuration link.delay = link.delay * second :=
      fun h => IsInt64.wrap64_eq ⟨by omega, h⟩
    simp only [due, score, Exact]
    generalize hw : delayDuration link.delay = w at hlt hfits ⊢
    unfold unix second at *
    constructor
    · intro hle
      have hw' : link.delay * 1000000000 < 2 ^ 63 := by omega
      have hw'' := hfits hw'
      omega
    · rintro ⟨hlt', hdvd⟩
      have hw'' := hfits hlt'
      omega
  | retry sid msg retryAt =>
    simp only [due, score, Exact]
    unfold unix second
    omega

/-- **Which tasks run early.**  A task is placed at `t₀`, and keeps the score it was given.
No pass from then on takes it before its due time if and only if the due time is exact. -/
theorem on_time_iff (k : Keys) (t₀ : Int) (s : Slot) (p : Placement)
    (h : (p.place k t₀ s).2 = true) :
    (∀ (u : Slot) (now : Int) (max : Nat), t₀ ≤ now →
      (u.zset p.set).zscore p.id = ((p.place k t₀ s).1.zset p.set).zscore p.id →
      u.Forwards p.set (p.set.cutoff now) max p.id → p.due t₀ ≤ now) ↔ p.Exact t₀ := by
  rw [← due_le_iff]
  constructor
  · intro hall
    refine hall (p.place k t₀ s).1 (max t₀ (p.score t₀)) ((p.place k t₀ s).1.zset p.set).zcard
      (Int.le_max_left _ _) rfl (forwards_iff.mpr ?_)
    refine (ZSet.mem_zrangebyscore (Nat.le_refl _)).mpr ⟨_, zscore_place h, ?_⟩
    exact (score_le_cutoff p t₀ _).mpr (Int.le_max_right _ _)
  · intro hle u now n hnow hscore hforward
    have hreached := ZSet.le_of_mem_zrangebyscore (forwards_iff.mp hforward)
      (hscore.trans (zscore_place h))
    rw [score_le_cutoff] at hreached
    omega

/-- A retry that is due at two seconds is not taken before. -/
theorem retry_on_time :
    ((retry 1 (sampleTask "x") (2 * second)).place sampleKeys 0 Slot.empty).1.Forwards .retry
        (ZKey.cutoff .retry (2 * second)) 10 "x" ∧
      (retry 1 (sampleTask "x") (2 * second)).due 0 ≤ 2 * second := by
  have hforward : ((retry 1 (sampleTask "x") (2 * second)).place sampleKeys 0
      Slot.empty).1.Forwards .retry (ZKey.cutoff .retry (2 * second)) 10 "x" := by decide +kernel
  exact ⟨hforward, (on_time_iff sampleKeys 0 Slot.empty (retry 1 (sampleTask "x") (2 * second))
    rfl).mpr (Or.inr (by decide)) _ _ 10 (by decide) rfl hforward⟩

/-- A link that is delayed by a second. -/
def secondLater : Placement := .chainLink (sampleTask "c:1") second (by decide)

/-- Enqueued half a second after a full second, it is due one and a half seconds after it.
A pass at one second takes it. -/
theorem link_runs_early :
    (secondLater.place sampleKeys 500000000 Slot.empty).2 = true ∧
      (secondLater.place sampleKeys 500000000 Slot.empty).1.Forwards .scheduled
        (ZKey.cutoff .scheduled second) 10 secondLater.id ∧
      second < secondLater.due 500000000 :=
  ⟨rfl, by decide +kernel, by decide⟩

end Placement
end ChronosGo
