import ChronosGo.Task
import Mathlib.Logic.Function.Iterate
import Mathlib.Order.Bounds.Basic

/-! # Which triggers are due

`computeFires` (`schedule.go`) walks from the last fired time through the
activations that have elapsed, and decides by the misfire policy which of them is
enqueued.  `computeFires_spec` says what it returns in terms of the activations
`next^[1] last`, `next^[2] last`, ..
-/
namespace ChronosGo

variable {m n : Nat} {t last now : Int}

/-- What happens to triggers that were missed. -/
inductive MisfirePolicy where
  | skip
  | fireOnce
deriving DecidableEq, Repr

/-- `Next` returns the first activation after an instant. -/
structure CronSchedule where
  next : Int → Int

variable {s : CronSchedule}

namespace CronSchedule

/-- The next activation is in the future. -/
def Advances (s : CronSchedule) : Prop := ∀ t, t < s.next t

/-- Activations are whole seconds, as the times are that are persisted. -/
def WholeSeconds (s : CronSchedule) : Prop := ∀ t, second ∣ s.next t

theorem Advances.lt_iterate (h : s.Advances) (t : Int) (n : Nat) : t < s.next^[n + 1] t := by
  induction n with
  | zero => exact h t
  | succ n ih =>
    rw [Function.iterate_succ_apply']
    exact Int.lt_trans ih (h _)

theorem Advances.iterate_lt (h : s.Advances) (t : Int) (hmn : m < n) :
    s.next^[m] t < s.next^[n] t := by
  obtain ⟨d, rfl⟩ := Nat.exists_eq_add_of_lt hmn
  have hsplit : m + d + 1 = (d + 1) + m := by omega
  rw [hsplit, Function.iterate_add_apply]
  exact h.lt_iterate _ d

theorem Advances.iterate_le (h : s.Advances) (t : Int) (hmn : m ≤ n) :
    s.next^[m] t ≤ s.next^[n] t := by
  rcases Nat.lt_or_eq_of_le hmn with hlt | rfl
  · exact Int.le_of_lt (h.iterate_lt t hlt)
  · exact Int.le_refl _

/-- Activations come in order. -/
theorem Advances.lt_of_iterate_lt (h : s.Advances) (hlt : s.next^[m] t < s.next^[n] t) : m < n := by
  by_contra hge
  have hle := h.iterate_le t (Nat.le_of_not_lt hge)
  omega

/-- The schedule has an interval of whole seconds, counted from the second of the instant. -/
structure HasInterval (s : CronSchedule) (d : Int) : Prop where
  pos : second ≤ d
  whole : second ∣ d
  next : ∀ t, s.next t = t / second * second + d

theorem HasInterval.advances {d : Int} (h : s.HasInterval d) : s.Advances := by
  intro t
  have hlt : t < (t / second + 1) * second := Int.lt_ediv_add_one_mul_self t (by decide)
  have hpos := h.pos
  rw [Int.add_mul, Int.one_mul] at hlt
  rw [h.next]
  omega

theorem HasInterval.wholeSeconds {d : Int} (h : s.HasInterval d) : s.WholeSeconds := by
  intro t
  rw [h.next]
  exact Int.dvd_add (Int.dvd_mul_left _ _) h.whole

/-- `maxScan`. -/
def maxScan : Nat := 100000

/-- The loop of `computeFires`: the latest activation up to `now`, within a number
of steps. -/
def scan (s : CronSchedule) (now : Int) : Nat → Int → Int
  | 0, latest => latest
  | i + 1, latest =>
    let n := s.next latest
    if now < n then latest else scan s now i n

/-- The loop ends at an activation that has elapsed. -/
theorem scan_spec (s : CronSchedule) (now : Int) (i : Nat) (ht : t ≤ now) :
    ∃ r, s.scan now i t = s.next^[r] t ∧ s.scan now i t ≤ now := by
  induction i generalizing t with
  | zero => exact ⟨0, rfl, ht⟩
  | succ i ih =>
    unfold scan
    dsimp only
    split
    · exact ⟨0, rfl, ht⟩
    · rename_i hdue
      obtain ⟨r, hr, hle⟩ := ih (Int.not_lt.mp hdue)
      exact ⟨r + 1, hr, hle⟩

end CronSchedule

/-- `computeFires`: the triggers to enqueue, and the new last fired time. -/
def computeFires (s : CronSchedule) (lastFired now : Int) (policy : MisfirePolicy) :
    List Int × Int :=
  let next := s.next lastFired
  if now < next then ([], lastFired)
  else
    let latest := s.scan now CronSchedule.maxScan next
    if ¬ next < latest then ([next], next)
    else
      match policy with
      | .fireOnce => ([latest], latest)
      | .skip => ([], latest)

/-- **What `computeFires` returns.**  Nothing while the next activation is in the
future.  Otherwise some number of activations has elapsed: a single one is
enqueued; of several, the latest or none. -/
theorem computeFires_spec (hs : s.Advances) (last now : Int) (policy : MisfirePolicy) :
    (now < s.next last ∧ computeFires s last now policy = ([], last)) ∨
      ∃ r, s.next^[r + 1] last ≤ now ∧
        computeFires s last now policy =
          (if r = 0 ∨ policy = .fireOnce then [s.next^[r + 1] last] else [],
            s.next^[r + 1] last) := by
  by_cases hdue : now < s.next last
  · exact Or.inl ⟨hdue, if_pos hdue⟩
  · obtain ⟨r, hr, hle⟩ := s.scan_spec now CronSchedule.maxScan (Int.not_lt.mp hdue)
    have hlatest : s.scan now CronSchedule.maxScan (s.next last) = s.next^[r + 1] last := hr
    refine Or.inr ⟨r, hlatest ▸ hle, ?_⟩
    simp only [computeFires, if_neg hdue, hlatest]
    cases r with
    | zero => simp
    | succ r =>
      have hgap : s.next^[1] last < s.next^[r + 1 + 1] last := hs.iterate_lt last (by omega)
      rw [if_neg (not_not.mpr (show s.next last < _ from hgap))]
      cases policy <;> simp

variable {policy : MisfirePolicy}

/-- A trigger that is due is an activation after the last one. -/
theorem due_of_mem_fires (hs : s.Advances) (ht : t ∈ (computeFires s last now policy).1) :
    last < t ∧ t ≤ now ∧ ∃ u, t = s.next u := by
  rcases computeFires_spec hs last now policy with ⟨-, h⟩ | ⟨r, hle, h⟩
  · rw [h] at ht
    cases ht
  · rw [h] at ht
    dsimp only at ht
    split at ht
    · rw [List.mem_singleton.mp ht]
      exact ⟨hs.lt_iterate last r, hle, _, Function.iterate_succ_apply' _ _ _⟩
    · cases ht

theorem CronSchedule.WholeSeconds.unix_mul (hs : s.WholeSeconds) (u : Int) :
    unix (s.next u) * second = s.next u := Int.ediv_mul_cancel (hs u)

/-! ## Schedules that may find nothing

`Next` of a cron spec gives up after some years and returns the zero time, which lies
before any time that is persisted.  `computeFires` does not tell it from an activation:
`next.After(now)` is false for it.
-/

/-- `time.Time{}`: the first of January of the year 1. -/
def zeroTime : Int := -62135596800 * second

namespace CronSchedule

/-- `Next` returns the least activation after an instant, or the zero time when it finds
none. -/
def Finds (s : CronSchedule) (A : Set Int) : Prop :=
  ∀ t, IsLeast {a ∈ A | t < a} (s.next t) ∨ s.next t = zeroTime

/-- The activations of `A` that are due. -/
def due (A : Set Int) (lastFired now : Int) : Set Int := {a ∈ A | lastFired < a ∧ a ≤ now}

/-- What `Next` finds it also finds from any later instant before it. -/
def Steadfast (s : CronSchedule) : Prop :=
  ∀ t u, s.next t ≠ zeroTime → t ≤ u → u < s.next t → s.next u = s.next t

variable {A : Set Int}

/-- The loop stays among the activations and the zero time. -/
theorem scan_mem (h : s.Finds A) (i : Nat) (ht : t ∈ A ∨ t = zeroTime) :
    s.scan now i t ∈ A ∨ s.scan now i t = zeroTime := by
  induction i generalizing t with
  | zero => exact ht
  | succ i ih =>
    unfold scan
    dsimp only
    split
    · exact ht
    · exact ih ((h t).imp_left fun hleast => hleast.1.1)

/-- Where `Next` finds nothing, the loop does not come past. -/
theorem scan_le (hs : s.Steadfast) (hzero : zeroTime ≤ last) (hnone : s.next last = zeroTime)
    (i : Nat) (ht : t ≤ last) : s.scan now i t ≤ last := by
  induction i generalizing t with
  | zero => exact ht
  | succ i ih =>
    have hnext : s.next t ≤ last := by
      by_contra hlt
      have hfound : s.next t ≠ zeroTime := by omega
      have hsame := hs t last hfound ht (not_le.mp hlt)
      exact hfound (hsame.symm.trans hnone)
    unfold scan
    dsimp only
    split
    · exact ht
    · exact ih hnext

/-- A schedule that returns the zero time for it keeps the loop there. -/
theorem scan_zeroTime (h : s.next zeroTime = zeroTime) (hnow : zeroTime ≤ now) (i : Nat) :
    s.scan now i zeroTime = zeroTime := by
  induction i with
  | zero => rfl
  | succ i ih =>
    unfold scan
    dsimp only
    rw [h, if_neg (Int.not_lt.mpr hnow), ih]

end CronSchedule

open CronSchedule

/-- Every trigger is an activation after the last fired time and not after now, the last
fired time does not go back, and it changes only to such an activation. -/
structure OnlyDue (s : CronSchedule) (A : Set Int) (last now : Int) (policy : MisfirePolicy) :
    Prop where
  fired : ∀ t ∈ (computeFires s last now policy).1, t ∈ due A last now
  forward : last ≤ (computeFires s last now policy).2
  moved : (computeFires s last now policy).2 ≠ last →
    (computeFires s last now policy).2 ∈ due A last now

section Fires
variable {A : Set Int}

theorem onlyDue_of_eq {a : Int} {fires : List Int}
    (heq : computeFires s last now policy = (fires, a)) (ha : a ∈ due A last now)
    (hf : ∀ t ∈ fires, t = a) : OnlyDue s A last now policy := by
  refine ⟨fun t ht => ?_, ?_, fun _ => ?_⟩
  · rw [heq] at ht
    exact hf t ht ▸ ha
  · rw [heq]
    exact ha.2.1.le
  · rw [heq]
    exact ha

theorem onlyDue_of_next (h : s.Finds A) (hzero : zeroTime ≤ last) (hnext : s.next last ≠ zeroTime)
    (policy : MisfirePolicy) : OnlyDue s A last now policy := by
  obtain ⟨ha, hlt⟩ := ((h last).resolve_right hnext).1
  by_cases hdue : now < s.next last
  · have heq : computeFires s last now policy = ([], last) := if_pos hdue
    refine ⟨fun t ht => ?_, ?_, fun hne => ?_⟩
    · rw [heq] at ht
      cases ht
    · rw [heq]
    · rw [heq] at hne
      exact absurd rfl hne
  · have hfirst : s.next last ∈ due A last now := ⟨ha, hlt, Int.not_lt.mp hdue⟩
    obtain ⟨_, -, hle⟩ := s.scan_spec now maxScan hfirst.2.2
    by_cases hgap : s.next last < s.scan now maxScan (s.next last)
    · -- the loop may have been at the zero time, but it has not ended there
      have hlatest : s.scan now maxScan (s.next last) ∈ due A last now := by
        refine ⟨(scan_mem h maxScan (.inl ha)).resolve_right fun heq => ?_, hlt.trans hgap, hle⟩
        omega
      cases policy with
      | fireOnce =>
        refine onlyDue_of_eq ?_ hlatest fun t ht => List.mem_singleton.mp ht
        simp only [computeFires, if_neg hdue, if_neg (not_not.mpr hgap)]
      | skip =>
        refine onlyDue_of_eq ?_ hlatest fun t ht => (List.not_mem_nil ht).elim
        simp only [computeFires, if_neg hdue, if_neg (not_not.mpr hgap)]
    · refine onlyDue_of_eq ?_ hfirst fun t ht => List.mem_singleton.mp ht
      simp only [computeFires, if_neg hdue, if_pos hgap]

/-- A schedule that finds nothing after the last fired time fires in the past. -/
theorem not_onlyDue_of_next (hs : s.Steadfast) (hzero : zeroTime ≤ last) (hle : last ≤ now)
    (hnone : s.next last = zeroTime) : ¬ OnlyDue s A last now .fireOnce := by
  intro honly
  have hdue : ¬ now < s.next last := by omega
  have hlatest : s.scan now maxScan (s.next last) ≤ last :=
    scan_le hs hzero hnone maxScan (by omega)
  have hfired : ∀ a ≤ last, (computeFires s last now .fireOnce).1 ≠ [a] := by
    intro a ha heq
    have hlt := (honly.fired a (heq ▸ List.mem_singleton_self a)).2.1
    omega
  by_cases hgap : s.next last < s.scan now maxScan (s.next last)
  · refine hfired _ hlatest ?_
    simp only [computeFires, if_neg hdue, if_neg (not_not.mpr hgap)]
  · refine hfired (s.next last) (by omega) ?_
    simp only [computeFires, if_neg hdue, if_pos hgap]

end Fires

/-- **`computeFires` only fires activations that are due**, whatever the policy, if and only
if `Next` finds one after the last fired time.  If it finds none at an activation later on,
the loop goes back to the zero time and ends at an activation that is due, or does not count
as a gap. -/
theorem fires_due {s : CronSchedule} {A : Set Int} {last now : Int} (h : s.Finds A)
    (hzero : zeroTime ≤ last) :
    (s.next last ≠ zeroTime → ∀ policy, OnlyDue s A last now policy) ∧
      (s.Steadfast → last ≤ now → (∀ policy, OnlyDue s A last now policy) →
        s.next last ≠ zeroTime) :=
  ⟨onlyDue_of_next h hzero, fun hs hle hall hnone =>
    not_onlyDue_of_next hs hzero hle hnone (hall .fireOnce)⟩

/-- Two activations, and no more. -/
def twice : CronSchedule where
  next := fun t =>
    if t < 10 * second then 10 * second else if t < 20 * second then 20 * second else zeroTime

theorem twice_finds : twice.Finds {10 * second, 20 * second} := by
  intro t
  by_cases h₁ : t < 10 * second
  · have hnext : twice.next t = 10 * second := if_pos h₁
    rw [hnext]
    refine .inl ⟨⟨.inl rfl, h₁⟩, ?_⟩
    rintro a ⟨rfl | rfl, -⟩ <;> decide
  · by_cases h₂ : t < 20 * second
    · have hnext : twice.next t = 20 * second := by simp only [twice, if_neg h₁, if_pos h₂]
      rw [hnext]
      refine .inl ⟨⟨.inr rfl, h₂⟩, ?_⟩
      rintro a ⟨rfl | rfl, hlt⟩
      · exact absurd hlt h₁
      · exact le_rfl
    · exact .inr (by simp only [twice, if_neg h₁, if_neg h₂])

theorem twice_steadfast : twice.Steadfast := by
  intro t u hfound hle hlt
  have hu : ∀ v, twice.next v =
      if v < 10 * second then 10 * second else if v < 20 * second then 20 * second else zeroTime :=
    fun _ => rfl
  rw [hu] at hfound hlt ⊢
  rw [hu t]
  split at hlt
  · rw [if_pos hlt]
    exact (if_pos ‹_›).symm
  · split at hlt
    · rw [if_neg (by omega), if_pos hlt, if_neg ‹_›, if_pos ‹_›]
    · rw [if_neg ‹_›, if_neg ‹_›] at hfound
      exact absurd rfl hfound

/-- Between the two, the first is fired; after the last one, something that is not due. -/
theorem twice_fires_first :
    computeFires twice 0 (15 * second) .skip = ([10 * second], 10 * second) ∧
      10 * second ∈ due {10 * second, 20 * second} 0 (15 * second) ∧
      ¬ ∀ policy, OnlyDue twice {10 * second, 20 * second} (20 * second) (25 * second) policy := by
  have heq : computeFires twice 0 (15 * second) .skip = ([10 * second], 10 * second) := by
    decide +kernel
  have honly : OnlyDue twice {10 * second, 20 * second} 0 (15 * second) .skip :=
    (fires_due twice_finds (by decide)).1 (by decide) .skip
  have hmem : 10 * second ∈ (computeFires twice 0 (15 * second) .skip).1 := by
    rw [heq]
    exact List.mem_singleton_self _
  exact ⟨heq, honly.fired _ hmem, fun hall =>
    (fires_due twice_finds (by decide)).2 twice_steadfast (by decide) hall rfl⟩

/-- A spec such as the thirtieth of February. -/
def neverMatches : CronSchedule where
  next := fun _ => zeroTime

/-- A schedule without activations is fired at the zero time, which becomes its last fired
time. -/
theorem zero_time_fired :
    neverMatches.Finds ∅ ∧ computeFires neverMatches 0 0 .skip = ([zeroTime], zeroTime) ∧
      zeroTime < 0 := by
  refine ⟨fun t => .inr rfl, ?_, by decide⟩
  have hscan : neverMatches.scan 0 maxScan zeroTime = zeroTime :=
    scan_zeroTime rfl (by decide) maxScan
  have hdue : ¬ (0 : Int) < neverMatches.next 0 := by decide
  simp only [computeFires, if_neg hdue]
  rw [show neverMatches.next 0 = zeroTime from rfl, hscan]
  rfl

end ChronosGo
