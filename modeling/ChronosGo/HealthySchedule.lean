import ChronosGo.Scheduler
import ChronosGo.Solo
import Mathlib.Order.Bounds.Basic

/-! # A schedule that is looked at often enough

While passes follow each other so closely that at most one activation falls between
two of them, nothing is missed: the triggers enqueued are exactly the activations
since the first pass, each once and in order (`healthy_run_fires_each_once`).

Nothing is kept in memory between passes, so it does not matter which instance makes
them.  What is persisted is a last fired time in whole seconds.  The first pass sets
it to its own second, which may lie before the pass; but activations are whole
seconds, so none lies in between.  From then on it is the latest activation that has
elapsed (`Caught`).
-/
namespace ChronosGo

variable {s : CronSchedule} {first a last now ttl : Int} {A : Set Int} {i : Nat}
  {e e' : ScheduleEntry} {fs : List (String × String)} {new : Int → Prop} {w w' : Cluster}
  {I : Cluster → Prop} {es : List ScheduleEntry}

namespace CronSchedule

/-- A set of whole seconds: `Next` is the least one after an instant. -/
structure Instants (s : CronSchedule) (A : Set Int) : Prop where
  whole : ∀ a ∈ A, second ∣ a
  least : ∀ t, IsLeast {a ∈ A | t < a} (s.next t)

/-- The activations of an interval, counted from the second of a first tick. -/
def everyFrom (d first : Int) : Set Int :=
  {a | ∃ k : Nat, a = first / second * second + (k + 1) * d}

/-- `A` are the activations of the schedule, as seen from a first tick: a set of whole
seconds, or an interval of whole seconds. -/
def Activates (s : CronSchedule) (first : Int) (A : Set Int) : Prop :=
  s.Instants A ∨ ∃ d, s.HasInterval d ∧ A = everyFrom d first

theorem Activates.advances (h : s.Activates first A) : s.Advances := by
  rcases h with h | ⟨d, hd, -⟩
  · exact fun t => (h.least t).1.2
  · exact hd.advances

theorem Activates.whole (h : s.Activates first A) (ha : a ∈ A) : second ∣ a := by
  rcases h with h | ⟨d, hd, rfl⟩
  · exact h.whole a ha
  · obtain ⟨k, rfl⟩ := ha
    exact Int.dvd_add (Int.dvd_mul_left _ _) (Int.dvd_mul_of_dvd_right hd.whole)

/-- The second of the first tick, or an activation since. -/
def Reached (first : Int) (A : Set Int) (last : Int) : Prop :=
  last = first / second * second ∨ last ∈ A ∧ first < last

/-- From a time that a run can reach, `Next` is the next activation. -/
theorem Activates.least (h : s.Activates first A) (hl : Reached first A last) :
    IsLeast {a ∈ A | last < a} (s.next last) := by
  rcases h with h | ⟨d, hd, rfl⟩
  · exact h.least last
  · have hpos : 0 < d := Int.lt_of_lt_of_le (by decide) hd.pos
    -- the times reached are the multiples of the interval
    obtain ⟨n, rfl⟩ : ∃ n : Nat, last = first / second * second + n * d := by
      rcases hl with rfl | ⟨⟨k, rfl⟩, -⟩
      · exact ⟨0, by simp⟩
      · exact ⟨k + 1, by simp⟩
    have hwhole : second ∣ first / second * second + n * d :=
      Int.dvd_add (Int.dvd_mul_left _ _) (Int.dvd_mul_of_dvd_right hd.whole)
    have hnext : s.next (first / second * second + n * d) =
        first / second * second + (n + 1) * d := by
      rw [hd.next, Int.ediv_mul_cancel hwhole, Int.add_mul]
      omega
    rw [hnext]
    refine ⟨⟨⟨n, rfl⟩, ?_⟩, ?_⟩
    · rw [Int.add_mul]
      omega
    · rintro a ⟨⟨k, rfl⟩, hlt⟩
      have hnk : (n : Int) < k + 1 := by
        by_contra hge
        have hle := Int.mul_le_mul_of_nonneg_right (Int.not_lt.mp hge) hpos.le
        omega
      have hle : ((n : Int) + 1) * d ≤ (k + 1) * d :=
        Int.mul_le_mul_of_nonneg_right (by omega) hpos.le
      omega

/-- No activation lies between the first tick and the start of its second. -/
theorem Activates.first_lt (h : s.Activates first A) (ha : a ∈ A)
    (hlt : first / second * second < a) : first < a := by
  obtain ⟨k, rfl⟩ := h.whole ha
  have hpos : (0 : Int) < second := by decide
  have hk : first / second < k := by
    rw [Int.mul_comm second k] at hlt
    exact Int.lt_of_mul_lt_mul_right hlt hpos.le
  have hfirst : first < (first / second + 1) * second := Int.lt_ediv_add_one_mul_self first hpos
  have hle : (first / second + 1) * second ≤ k * second :=
    Int.mul_le_mul_of_nonneg_right (by omega) hpos.le
  rw [Int.mul_comm second k]
  omega

theorem Activates.first_lt_next (h : s.Activates first A) (hl : Reached first A last) :
    first < s.next last := by
  obtain ⟨ha, hlt⟩ := (h.least hl).1
  rcases hl with rfl | ⟨-, hl⟩
  · exact h.first_lt ha hlt
  · exact hl.trans hlt

theorem Reached.next (h : s.Activates first A) (hl : Reached first A last) :
    Reached first A (s.next last) := .inr ⟨(h.least hl).1.1, h.first_lt_next hl⟩

/-- At most one activation falls between two ticks. -/
def AtMostOne (A : Set Int) (t t' : Int) : Prop :=
  ∀ a ∈ A, ∀ b ∈ A, t < a → a ≤ t' → t < b → b ≤ t' → a = b

/-- If all activations up to the previous tick have been dealt with, `computeFires`
finds nothing, or the one activation since. -/
theorem Activates.computeFires_eq (h : s.Activates first A) {prev : Int}
    (hl : Reached first A last) (hdone : ∀ a ∈ A, last < a → prev < a)
    (hone : AtMostOne A prev now) (policy : MisfirePolicy) :
    (now < s.next last ∧ computeFires s last now policy = ([], last)) ∨
      (s.next last ≤ now ∧ computeFires s last now policy = ([s.next last], s.next last)) := by
  rcases computeFires_spec h.advances last now policy with hnone | ⟨r, hle, heq⟩
  · exact .inl hnone
  · cases r with
    | zero => exact .inr ⟨hle, by simpa using heq⟩
    | succ r =>
      -- a second activation would have elapsed since the previous tick
      have hsnd : s.next (s.next last) ≤ now :=
        (h.advances.iterate_le last (Nat.le_add_left 2 r)).trans hle
      have hadv := h.advances (s.next last)
      obtain ⟨ha, hla⟩ := (h.least hl).1
      obtain ⟨hb, hlb⟩ := (h.least (hl.next h)).1
      have heq := hone _ ha _ hb (hdone _ ha hla) (hadv.le.trans hsnd)
        (hdone _ hb (hla.trans hlb)) hsnd
      omega

end CronSchedule

namespace Scheduler
open Interleaving CronSchedule

/-! ## What the store shows of an entry -/

/-- The schedule a trigger belongs to: what stands before its last colon. -/
def scheduleOf (triggerID : String) : String :=
  String.ofList ((triggerID.toList.reverse.dropWhile (· ≠ ':')).drop 1).reverse

@[simp] theorem scheduleOf_triggerID (id : String) (t : Int) :
    scheduleOf (triggerID id t) = id := by
  have hdigits : ∀ c ∈ (toString (unix t)).toList.reverse, decide (c ≠ ':') = true := by
    intro c hc
    rw [List.mem_reverse] at hc
    exact decide_eq_true fun heq => colon_not_mem_int _ (heq ▸ hc)
  rw [scheduleOf, toList_triggerID, List.reverse_append, List.reverse_cons, List.append_assoc,
    List.dropWhile_append_of_pos hdigits]
  simp

/-- The triggers of an entry that were enqueued, newest first. -/
def Cluster.fired (w : Cluster) (e : ScheduleEntry) : List (String × String) :=
  w.enqueued.filter fun d => d.1 = e.queue ∧ scheduleOf d.2 = e.id

/-- The last fired time of an entry, its triggers enqueued, and that some triggers have no
deduplication key. -/
structure Cluster.Shows (w : Cluster) (e : ScheduleEntry) (last : Option Int)
    (fired : List (String × String)) (new : Int → Prop) : Prop where
  last : w.lastFired e.id = last
  fired : w.fired e = fired
  new : ∀ a, new a → (w.slot e.queue).dedup (triggerID e.id a) = none

/-- Runs without errors, of passes whose look at the clock gives `now`. -/
def healthy (now : Int) : Regime where
  spawn := fun _ => True
  allow := fun _ c w => c = .now → w.now = now
  faults := False
  lost := False
  crash := False

section Rules
variable {last : Option Int}

theorem exec_healthy {c : Cmd} {r : c.Reply} (h : (healthy now).machine.exec i c w r w') :
    r = (w.perform i c).1 ∧ w' = (w.perform i c).2.see i c r := by
  rcases h with ⟨-, rfl, rfl | ⟨hlost, -⟩⟩ | ⟨hfaults, -, -⟩
  · exact ⟨rfl, rfl⟩
  · exact hlost.elim
  · exact hfaults.elim

theorem stable_shows : (healthy now).machine.Stable fun w => w.Shows e last fs new := by
  rintro w w' h ⟨t, -, rfl⟩
  refine ⟨h.last, h.fired, fun a ha => ?_⟩
  simp [Cluster.tick, Slot.purge, h.new a ha]

/-- A trigger of another schedule adds nothing to the entry's. -/
theorem fired_cons_of_ne {d : List (String × String)} {id q : String} (hid : id ≠ e.id) :
    (((q, triggerID id a) :: d).filter fun d => d.1 = e.queue ∧ scheduleOf d.2 = e.id) =
      d.filter fun d => d.1 = e.queue ∧ scheduleOf d.2 = e.id := by
  simp [hid]

/-- The script enqueues a trigger without a deduplication key. -/
theorem enqueuePeriodic_of_new {s : Slot} {msg : TaskMessage} {tid : String}
    (h : s.dedup tid = none) : (s.enqueuePeriodic msg tid ttl now).2 = true := by
  simp [Slot.enqueuePeriodic, h]

/-- Commands for other entries change nothing. -/
theorem shows_of_justified {j : Job} {h : List (Event Cmd Cmd.Reply Job)} {c : Cmd}
    (hj : ∀ e' ∈ j.entries, e'.id ≠ e.id) (hc : Justified j h c) {r : c.Reply}
    (hw : w.Shows e last fs new) (he : (healthy now).machine.exec i c w r w') :
    w'.Shows e last fs new := by
  obtain ⟨-, rfl⟩ := exec_healthy he
  cases hc with
  | now | getLastFired => exact ⟨hw.last, hw.fired, hw.new⟩
  | baseline he' | advance he' =>
    refine ⟨?_, hw.fired, hw.new⟩
    simpa [Cluster.perform, Cluster.see, (hj _ he').symm] using hw.last
  | @enqueue e' he' last' trigger ttl hl ht =>
    refine ⟨hw.last, ?_, fun a ha => ?_⟩
    · simp only [Cluster.fired, Cluster.perform, Cluster.see]
      split
      · rw [fired_cons_of_ne (hj _ he')]
        exact hw.fired
      · exact hw.fired
    · have hne : triggerID e.id a ≠ triggerID e'.id trigger := fun heq =>
        hj _ he' (triggerID_injective heq).1.symm
      simp only [Cluster.perform, Cluster.see]
      by_cases hq : e.queue = e'.queue
      · have hupd : (e'.message trigger).queue = e.queue := hq.symm
        rw [hupd, Function.update_self, dedup_enqueuePeriodic_of_ne hne]
        exact hw.new a ha
      · rw [Function.update_of_ne (show e.queue ≠ (e'.message trigger).queue from hq)]
        exact hw.new a ha

/-- The pass over another entry changes nothing. -/
theorem solo_fireEntry_other (hid : e'.id ≠ e.id) (ttl : Int) :
    (healthy now).machine.Solo i (fun w => w.Shows e last fs new) (fireEntry ttl now e')
      (fun _ w => w.Shows e last fs new) := by
  have hj : ∀ e₁ ∈ [e'], e₁.id ≠ e.id := fun e₁ h₁ => by rwa [List.mem_singleton.mp h₁]
  have hkeeps := keeps_fireEntry (j := ⟨ttl, [e'], 0⟩) (h := [.call .now now])
    (List.mem_singleton_self e') (rfl : _ = now)
  exact Machine.Solo.follows hkeeps stable_shows fun h c hc w r w' hw he =>
    shows_of_justified hj hc hw he

/-- A pass works with the last fired time that is persisted, or sets it to its own
second. -/
theorem solo_lastFiredOrInit :
    (healthy now).machine.Solo i (fun w => w.Shows e last fs new) (lastFiredOrInit e now)
      (fun l w => l = last.elim now (· * second) ∧
        w.Shows e (some (last.getD (unix now))) fs new) := by
  refine .call (fun r w => r = some (last.map (· * second)) ∧ w.Shows e last fs new)
    stable_shows ?_ fun r => .of_and ?_
  · intro w r w' hw he
    obtain ⟨rfl, rfl⟩ := exec_healthy he
    exact ⟨by simp [Cluster.perform, hw.last], hw.last, hw.fired, hw.new⟩
  · rintro rfl
    cases last with
    | some l => exact .pure stable_shows fun w hw => ⟨rfl, hw⟩
    | none =>
      refine .call (fun _ w => w.Shows e (some (unix now)) fs new) stable_shows ?_ fun _ =>
        .pure stable_shows fun w hw => ⟨rfl, hw⟩
      intro w r w' hw he
      obtain ⟨-, rfl⟩ := exec_healthy he
      exact ⟨by simp [Cluster.perform, Cluster.see], hw.fired, hw.new⟩

/-- A pass that finds nothing due writes nothing but the first last fired time. -/
theorem solo_fireEntry_idle
    (hidle : computeFires e.schedule (last.elim now (· * second)) now e.misfire =
      ([], last.elim now (· * second))) :
    (healthy now).machine.Solo i (fun w => w.Shows e last fs new) (fireEntry ttl now e)
      (fun _ w => w.Shows e (some (last.getD (unix now))) fs new) := by
  refine .bind solo_lastFiredOrInit fun l => .of_and ?_
  rintro rfl
  simp only [hidle, enqueueAll, ne_eq, not_true_eq_false, and_false, if_false]
  exact .pure stable_shows fun w hw => hw

/-- A new trigger is enqueued. -/
theorem Cluster.Shows.enqueue (hw : w.Shows e last fs new) (hnew : new a) :
    let c := Cmd.enqueuePeriodic (e.message a) (triggerID e.id a) ttl
    (w.perform i c).1 = some true ∧
      ((w.perform i c).2.see i c (w.perform i c).1).Shows e last
        ((e.queue, triggerID e.id a) :: fs) (fun b => new b ∧ unix b ≠ unix a) := by
  have hq : (e.message a).queue = e.queue := rfl
  have hok : ((w.slot e.queue).enqueuePeriodic (e.message a) (triggerID e.id a) ttl w.now).2 =
      true := enqueuePeriodic_of_new (hw.new a hnew)
  refine ⟨by simp only [Cluster.perform, hq, hok], hw.last, ?_, fun b hb => ?_⟩
  · simp only [Cluster.fired, Cluster.perform, Cluster.see, hq, hok, if_true]
    rw [List.filter_cons_of_pos (by simp)]
    exact congrArg _ hw.fired
  · have hne : triggerID e.id b ≠ triggerID e.id a := fun heq => hb.2 (triggerID_injective heq).2
    simp only [Cluster.perform, Cluster.see, hq, Function.update_self]
    rw [dedup_enqueuePeriodic_of_ne hne]
    exact hw.new b hb.1

/-- A pass that finds one trigger due enqueues it and persists its time. -/
theorem solo_fireEntry_due {l : Int} (hlt : l * second < a)
    (hdue : computeFires e.schedule (l * second) now e.misfire = ([a], a)) (hnew : new a) :
    (healthy now).machine.Solo i (fun w => w.Shows e (some l) fs new) (fireEntry ttl now e)
      (fun _ w => w.Shows e (some (unix a)) ((e.queue, triggerID e.id a) :: fs)
        (fun b => new b ∧ unix b ≠ unix a)) := by
  refine .bind solo_lastFiredOrInit fun last => .of_and ?_
  rintro rfl
  simp only [Option.elim_some, hdue, enqueueAll]
  refine .call (fun r w => r = some true ∧ w.Shows e (some l) ((e.queue, triggerID e.id a) :: fs)
    (fun b => new b ∧ unix b ≠ unix a)) stable_shows ?_ fun r => .of_and ?_
  · intro w r w' hw he
    obtain ⟨rfl, rfl⟩ := exec_healthy he
    exact hw.enqueue hnew
  · rintro rfl
    have hne : a ≠ l * second := hlt.ne'
    simp only [Prog.pure_eq, ne_eq, hne, not_false_eq_true]
    refine .call (fun _ w => w.Shows e (some (unix a)) ((e.queue, triggerID e.id a) :: fs)
      (fun b => new b ∧ unix b ≠ unix a)) stable_shows ?_ fun _ => .pure stable_shows fun w hw => hw
    intro w r w' hw he
    obtain ⟨-, rfl⟩ := exec_healthy he
    exact ⟨by simp [Cluster.perform, Cluster.see, hdue], hw.fired, hw.new⟩

end Rules

/-! ## Being up to date -/

/-- After a pass at `t` the last fired time is the latest activation that has elapsed, or
the second of the first tick; `as` are the activations since, in order. -/
structure Caught (first : Int) (A : Set Int) (t l : Int) (as : List Int) : Prop where
  reached : Reached first A (l * second)
  le : l * second ≤ t
  done : ∀ a ∈ A, l * second < a → t < a
  sorted : as.Pairwise (· < ·)
  mem : ∀ a, a ∈ as ↔ a ∈ A ∧ first < a ∧ a ≤ t

section Caught
variable {t l : Int} {as : List Int}

theorem caught_first (h : s.Activates first A) : Caught first A first (unix first) [] where
  reached := .inl rfl
  le := Int.ediv_mul_le first (by decide)
  done := fun _ ha hlt => h.first_lt ha hlt
  sorted := .nil
  mem := fun a => by
    constructor
    · intro ha
      cases ha
    · rintro ⟨-, hlt, hle⟩
      omega

/-- Nothing has elapsed since. -/
theorem Caught.idle (hc : Caught first A t l as) (h : s.Activates first A) (ht : t ≤ now)
    (hnext : now < s.next (l * second)) : Caught first A now l as where
  reached := hc.reached
  le := hc.le.trans ht
  done := fun a ha hlt => hnext.trans_le ((h.least hc.reached).2 ⟨ha, hlt⟩)
  sorted := hc.sorted
  mem := fun a => by
    rw [hc.mem]
    refine and_congr_right fun ha => and_congr_right fun _ =>
      ⟨fun hle => hle.trans ht, fun hle => ?_⟩
    by_contra hgt
    have hlt : l * second < a := hc.le.trans_lt (Int.not_le.mp hgt)
    have hleast := (h.least hc.reached).2 ⟨ha, hlt⟩
    omega

/-- One activation has elapsed since. -/
theorem Caught.due (hc : Caught first A t l as) (h : s.Activates first A) (ht : t ≤ now)
    (hone : AtMostOne A t now) (hnext : s.next (l * second) ≤ now) :
    Caught first A now (unix (s.next (l * second))) (as ++ [s.next (l * second)]) := by
  obtain ⟨ha, hlt⟩ := (h.least hc.reached).1
  have hwhole : unix (s.next (l * second)) * second = s.next (l * second) :=
    Int.ediv_mul_cancel (h.whole ha)
  have hta := hc.done _ ha hlt
  refine ⟨by rw [hwhole]; exact hc.reached.next h, by rwa [hwhole], fun b hb hab => ?_, ?_,
    fun b => ?_⟩
  · rw [hwhole] at hab
    by_contra hle
    have heq := hone _ ha b hb hta hnext (hta.trans hab) (Int.not_lt.mp hle)
    omega
  · refine List.pairwise_append.mpr ⟨hc.sorted, List.pairwise_singleton .., fun b hb a' ha' => ?_⟩
    rw [List.mem_singleton.mp ha']
    exact ((hc.mem b).mp hb).2.2.trans_lt hta
  · rw [List.mem_append, List.mem_singleton, hc.mem]
    constructor
    · rintro (⟨hb, hfb, hbt⟩ | rfl)
      · exact ⟨hb, hfb, hbt.trans ht⟩
      · exact ⟨ha, h.first_lt_next hc.reached, hnext⟩
    · rintro ⟨hb, hfb, hbn⟩
      by_cases hbt : b ≤ t
      · exact .inl ⟨hb, hfb, hbt⟩
      · exact .inr (hone b hb _ ha (Int.not_le.mp hbt) hbn hta hnext)

end Caught

/-! ## Passes -/

/-- The entry as a trigger of it is recorded. -/
def ScheduleEntry.trigger (e : ScheduleEntry) (a : Int) : String × String :=
  (e.queue, triggerID e.id a)

section Passes
variable {t : Int}

/-- The store is up to date with the activations of the entry until `t`; `fs` were
enqueued before. -/
def Cluster.UpToDate (e : ScheduleEntry) (A : Set Int) (first : Int)
    (fs : List (String × String)) (t : Int) (w : Cluster) : Prop :=
  ∃ x : Int × List Int, Caught first A t x.1 x.2 ∧
    w.Shows e (some x.1) ((x.2.map e.trigger).reverse ++ fs) (fun a => a ∈ A ∧ t < a)

theorem Cluster.Shows.mono {last : Option Int} {new' : Int → Prop} (h : w.Shows e last fs new)
    (hnew : ∀ a, new' a → new a) : w.Shows e last fs new' :=
  ⟨h.last, h.fired, fun a ha => h.new a (hnew a ha)⟩

theorem stable_upToDate : (healthy now).machine.Stable (Cluster.UpToDate e A first fs t) := by
  rintro w w' ⟨x, hc, hw⟩ he
  exact ⟨x, hc, stable_shows w w' hw he⟩

/-- The first pass over the entry. -/
theorem solo_fireEntry_first (h : e.schedule.Activates first A) (ttl : Int) :
    (healthy first).machine.Solo i (fun w => w.Shows e none fs (fun a => a ∈ A ∧ first < a))
      (fireEntry ttl first e) (fun _ => Cluster.UpToDate e A first fs first) := by
  have hidle : computeFires e.schedule first first e.misfire = ([], first) :=
    if_pos (h.advances first)
  exact (solo_fireEntry_idle hidle).mono fun _ w hw => ⟨(unix first, []), caught_first h, hw⟩

/-- A later pass over the entry. -/
theorem solo_fireEntry_next (h : e.schedule.Activates first A) (ht : t ≤ now)
    (hone : AtMostOne A t now) (ttl : Int) :
    (healthy now).machine.Solo i (Cluster.UpToDate e A first fs t) (fireEntry ttl now e)
      (fun _ => Cluster.UpToDate e A first fs now) := by
  refine .of_exists fun ⟨l, as⟩ => .of_and fun hc => ?_
  rcases h.computeFires_eq hc.reached hc.done hone e.misfire with ⟨hnext, heq⟩ | ⟨hnext, heq⟩
  · refine (solo_fireEntry_idle heq).mono fun _ w hw => ⟨(l, as), hc.idle h ht hnext, ?_⟩
    exact hw.mono fun a ha => ⟨ha.1, ht.trans_lt ha.2⟩
  · obtain ⟨ha, hlt⟩ := (h.least hc.reached).1
    refine (solo_fireEntry_due hlt heq ⟨ha, hc.done _ ha hlt⟩).mono fun _ w hw =>
      ⟨(_, as ++ [_]), hc.due h ht hone hnext, ?_⟩
    rw [List.map_append, List.reverse_append]
    refine hw.mono fun b hb => ⟨⟨hb.1, ht.trans_lt hb.2⟩, fun heq => ?_⟩
    -- distinct activations lie in distinct seconds
    have hab : b = e.schedule.next (l * second) := by
      rw [← Int.ediv_mul_cancel (h.whole hb.1), ← Int.ediv_mul_cancel (h.whole ha)]
      exact congrArg (· * second) heq
    exact absurd hb.2 (Int.not_lt.mpr (hab ▸ hnext))

/-- The pass over all entries: those of other schedules keep what holds before the entry
and what holds after it. -/
theorem solo_fireEntries {K : Cluster → Prop}
    (hI : ∀ e', e'.id ≠ e.id → (healthy now).machine.Solo i I (fireEntry ttl now e') fun _ => I)
    (hK : ∀ e', e'.id ≠ e.id → (healthy now).machine.Solo i K (fireEntry ttl now e') fun _ => K)
    (he : (healthy now).machine.Solo i I (fireEntry ttl now e) fun _ => K)
    (heK : (healthy now).machine.Solo i K (fireEntry ttl now e) fun _ => K)
    (hstable : (healthy now).machine.Stable K) (hes : ∀ e' ∈ es, e'.id = e.id → e' = e) :
    (healthy now).machine.Solo i K (fireEntries ttl now es) (fun _ => K) ∧
      (e ∈ es → (healthy now).machine.Solo i I (fireEntries ttl now es) fun _ => K) := by
  induction es with
  | nil => exact ⟨.pure hstable fun _ hw => hw, fun hmem => nomatch hmem⟩
  | cons e' es ih =>
    obtain ⟨ihK, ihI⟩ := ih fun e₁ h₁ => hes e₁ (List.mem_cons_of_mem _ h₁)
    by_cases hid : e'.id = e.id
    · obtain rfl := hes e' List.mem_cons_self hid
      exact ⟨.bind heK fun _ => ihK, fun _ => .bind he fun _ => ihK⟩
    · refine ⟨.bind (hK e' hid) fun _ => ihK, fun hmem => .bind (hI e' hid) fun _ => ihI ?_⟩
      rcases List.mem_cons.mp hmem with rfl | hmem
      · exact absurd rfl hid
      · exact hmem

/-- The instance has registered the entry, once or more often. -/
def Lists (e : ScheduleEntry) (j : Job) : Prop :=
  e ∈ j.entries ∧ ∀ e' ∈ j.entries, e'.id = e.id → e' = e

/-- A `fireDue` pass of some instance that has registered the entry, at the clock reading
`now`, without errors and with no other pass in between. -/
def Pass (e : ScheduleEntry) (now : Int) (w w' : Cluster) : Prop :=
  ∃ i j, Lists e j ∧ (healthy now).machine.Alone i (fireDue j.leaderTTL j.entries) w () w'

/-- What the pass over the entries does from a world the clock does not change, `fireDue`
does. -/
theorem solo_fireDue {P : Cluster → Prop} {Q : Unit → Cluster → Prop}
    (hP : (healthy now).machine.Stable P) (hsee : ∀ w, P w → P (w.see i .now now))
    (h : (healthy now).machine.Solo i P (fireEntries ttl now es) Q) :
    (healthy now).machine.Solo i P (fireDue ttl es) Q := by
  refine .call (fun r w => r = now ∧ P w) hP ?_ fun r => .of_and ?_
  · rintro w r w' hw (⟨hclock, rfl, rfl | ⟨hlost, -⟩⟩ | ⟨hfaults, -, -⟩)
    · have hnow : w.now = now := hclock rfl
      exact ⟨hnow, by simpa [Cluster.perform, hnow] using hsee w hw⟩
    · exact hlost.elim
    · exact hfaults.elim
  · rintro rfl
    exact h

theorem upToDate_of_other (hid : e'.id ≠ e.id) (ttl : Int) :
    (healthy now).machine.Solo i (Cluster.UpToDate e A first fs t) (fireEntry ttl now e')
      (fun _ => Cluster.UpToDate e A first fs t) :=
  .of_exists fun x => .of_and fun hc => (solo_fireEntry_other hid ttl).mono
    fun _ _ hw => ⟨x, hc, hw⟩

/-- A pass that brings the store up to date at the entry leaves it so. -/
theorem Pass.upToDate (h : e.schedule.Activates first A) (hp : Pass e now w w')
    (hstable : (healthy now).machine.Stable I) (hsee : ∀ i w, I w → I (w.see i .now now))
    (hother : ∀ i ttl e', e'.id ≠ e.id →
      (healthy now).machine.Solo i I (fireEntry ttl now e') fun _ => I)
    (he : ∀ i ttl, (healthy now).machine.Solo i I (fireEntry ttl now e) fun _ =>
      Cluster.UpToDate e A first fs now)
    (hw : I w) : w'.UpToDate e A first fs now := by
  obtain ⟨i, j, ⟨hmem, huniq⟩, hrun⟩ := hp
  have hone : AtMostOne A now now := fun a _ b _ hlt hle => by omega
  have hes := (solo_fireEntries (hother i j.leaderTTL) (fun e' hid => upToDate_of_other hid _)
    (he i j.leaderTTL) (solo_fireEntry_next h le_rfl hone _) stable_upToDate huniq).2 hmem
  exact solo_fireDue hstable (hsee i) hes _ _ _ hw hrun

end Passes

/-- Passes at strictly increasing clock readings, the first at `first` and the last at the
given one, with at most one activation between two of them.  Each may be made by another
instance. -/
inductive HealthyRun (e : ScheduleEntry) (A : Set Int) (first : Int) (w₀ : Cluster) :
    Int → Cluster → Prop
  | first {w : Cluster} (hp : Pass e first w₀ w) : HealthyRun e A first w₀ first w
  | next {t now : Int} {w w' : Cluster} (hrun : HealthyRun e A first w₀ t w) (hlt : t < now)
      (hone : AtMostOne A t now) (hp : Pass e now w w') : HealthyRun e A first w₀ now w'

/-- **Healthy scheduling fires every activation exactly once.**  Whatever the misfire policy
and whichever instances make the passes: if no last fired time is persisted at first, and no
trigger has been enqueued ahead of its time, the triggers of the entry enqueued by a healthy
run are those of the activations after its first and not after its last pass, each once and in
order. -/
theorem healthy_run_fires_each_once {e : ScheduleEntry} {A : Set Int} {first t : Int}
    {w₀ w : Cluster} (h : e.schedule.Activates first A) (hlast : w₀.lastFired e.id = none)
    (hnew : ∀ a ∈ A, first < a → (w₀.slot e.queue).dedup (triggerID e.id a) = none)
    (hrun : HealthyRun e A first w₀ t w) :
    ∃ as : List Int, as.Pairwise (· < ·) ∧ (∀ a, a ∈ as ↔ a ∈ A ∧ first < a ∧ a ≤ t) ∧
      (w.fired e).reverse = (w₀.fired e).reverse ++ as.map e.trigger := by
  have hup : w.UpToDate e A first (w₀.fired e) t := by
    induction hrun with
    | first hp =>
      exact hp.upToDate h stable_shows (fun _ _ hw => ⟨hw.last, hw.fired, hw.new⟩)
        (fun _ ttl _ hid => solo_fireEntry_other hid ttl) (fun _ ttl => solo_fireEntry_first h ttl)
        ⟨hlast, rfl, fun a ha => hnew a ha.1 ha.2⟩
    | next _ hlt hone hp ih =>
      exact hp.upToDate h stable_upToDate
        (fun _ _ ⟨x, hc, hw⟩ => ⟨x, hc, hw.last, hw.fired, hw.new⟩)
        (fun _ ttl _ hid => upToDate_of_other hid ttl)
        (fun _ ttl => solo_fireEntry_next h hlt.le hone ttl) ih
  obtain ⟨⟨l, as⟩, hc, hw⟩ := hup
  refine ⟨as, hc.sorted, hc.mem, ?_⟩
  rw [hw.fired, List.reverse_append, List.reverse_reverse]

/-! ## A run of two instances -/

/-- The world after a pass of instance `i` over one entry. -/
def passAt (e : ScheduleEntry) (i : Nat) (now : Int) (w : Cluster) : Option Cluster :=
  ((fireDue (10 * second) [e]).execute (fun c w =>
    ((w.perform i c).1, (w.perform i c).2.see i c (w.perform i c).1)) (w.tick now)).map Prod.snd

theorem pass_of_passAt (hle : w.now ≤ now) (h : passAt e i now w = some w') :
    Pass e now w w' ∧ w'.now = now := by
  obtain ⟨⟨⟨⟩, w₁⟩, hexec, rfl⟩ := Option.map_eq_some_iff.mp h
  have hanswer : ∀ (c : Cmd) w, w.now = now → (healthy now).machine.exec i c w (w.perform i c).1
      ((w.perform i c).2.see i c (w.perform i c).1) ∧
        ((w.perform i c).2.see i c (w.perform i c).1).now = now := fun c w hw =>
    ⟨.inl ⟨fun _ => hw, rfl, .inl rfl⟩, by cases c <;> exact hw⟩
  obtain ⟨hrun, hnow⟩ :=
    Machine.alone_of_execute (P := fun w => w.now = now) hanswer rfl hexec
  exact ⟨⟨i, ⟨10 * second, [e], 0⟩, ⟨List.mem_singleton_self e, fun e' he' _ =>
    List.mem_singleton.mp he'⟩, .env ⟨now, hle, rfl⟩ hrun⟩, hnow⟩

/-- Every two seconds. -/
def everyTwoSeconds : ScheduleEntry where
  id := "mail:@every 2s"
  kind := "mail"
  payload := []
  queue := "q"
  maxRetry := 3
  schedule := ⟨fun t => t / second * second + 2 * second⟩

/-- Two instances in turn, at 0.5, 1.5, 2.5 and 4 seconds. -/
def fourPasses : Option Cluster :=
  (((passAt everyTwoSeconds 0 500000000 Cluster.init).bind
    (passAt everyTwoSeconds 1 1500000000)).bind
    (passAt everyTwoSeconds 0 2500000000)).bind (passAt everyTwoSeconds 1 4000000000)

theorem two_instances_fire_both :
    ∃ (w : Cluster) (as : List Int),
      HealthyRun everyTwoSeconds (everyFrom (2 * second) 500000000) 500000000 Cluster.init
        4000000000 w ∧ as.Pairwise (· < ·) ∧
      (∀ a, a ∈ as ↔ a ∈ everyFrom (2 * second) 500000000 ∧ 500000000 < a ∧ a ≤ 4000000000) ∧
      (w.fired everyTwoSeconds).reverse = as.map everyTwoSeconds.trigger := by
  have hone : ∀ t t', t' - t < 2 * second →
      AtMostOne (everyFrom (2 * second) 500000000) t t' := by
    rintro t t' hlen _ ⟨k, rfl⟩ _ ⟨n, rfl⟩ h₁ h₂ h₃ h₄
    simp only [second] at *
    omega
  obtain ⟨w, hw⟩ : ∃ w, fourPasses = some w := Option.isSome_iff_exists.mp (by decide +kernel)
  obtain ⟨w₃, hw₃, hw⟩ := Option.bind_eq_some_iff.mp hw
  obtain ⟨w₂, hw₂, hw₃⟩ := Option.bind_eq_some_iff.mp hw₃
  obtain ⟨w₁, hw₁, hw₂⟩ := Option.bind_eq_some_iff.mp hw₂
  obtain ⟨hp₁, hn₁⟩ := pass_of_passAt (by decide) hw₁
  obtain ⟨hp₂, hn₂⟩ := pass_of_passAt (by omega) hw₂
  obtain ⟨hp₃, hn₃⟩ := pass_of_passAt (by omega) hw₃
  obtain ⟨hp₄, -⟩ := pass_of_passAt (by omega) hw
  have hrun : HealthyRun everyTwoSeconds (everyFrom (2 * second) 500000000) 500000000 Cluster.init
      4000000000 w :=
    .next (.next (.next (.first hp₁) (by decide) (hone _ _ (by decide)) hp₂) (by decide)
      (hone _ _ (by decide)) hp₃) (by decide) (hone _ _ (by decide)) hp₄
  obtain ⟨as, hsorted, hmem, hfired⟩ := healthy_run_fires_each_once
    (.inr ⟨2 * second, ⟨by decide, by decide, fun _ => rfl⟩, rfl⟩) rfl (fun _ _ _ => rfl) hrun
  exact ⟨w, as, hrun, hsorted, hmem, hfired⟩

end Scheduler
end ChronosGo
