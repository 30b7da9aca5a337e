import ChronosGo.Schedule

/-! # Gaps of any length

After a gap `computeFires` is called once a tick, with the last fired time of the call
before.  One call looks at `maxScan + 1` activations at most, so a longer gap takes
several calls, and each of them applies the misfire policy to the part it has seen.

`computeFires_elapsed` says what one call does when `k` activations have elapsed, and
`ticks_spec` what the calls add up to: they reach the latest activation, but catch up
once for each part, and a last part of a single activation passes for a normal tick.
-/
namespace ChronosGo
open CronSchedule

namespace CronSchedule
variable {s : CronSchedule} {last now : Int} {k : Nat}

/-- Exactly `k` activations have elapsed since the last one. -/
def Elapsed (s : CronSchedule) (last now : Int) (k : Nat) : Prop :=
  s.next^[k] last ≤ now ∧ now < s.next^[k + 1] last

/-- After some of the activations, the others have elapsed. -/
theorem Elapsed.drop {c : Nat} (h : s.Elapsed last now k) (hc : c ≤ k) :
    s.Elapsed (s.next^[c] last) now (k - c) := by
  have hk : k - c + c = k := by omega
  have hk' : k - c + 1 + c = k + 1 := by omega
  refine ⟨?_, ?_⟩
  · rw [← Function.iterate_add_apply, hk]
    exact h.1
  · rw [← Function.iterate_add_apply, hk']
    exact h.2

theorem Elapsed.due_iff (h : s.Elapsed last now k) (hs : s.Advances) :
    now < s.next last ↔ k = 0 := by
  constructor
  · intro hlt
    by_contra hne
    have hle : s.next^[1] last ≤ s.next^[k] last := hs.iterate_le last (Nat.pos_of_ne_zero hne)
    have hk := h.1
    change s.next last ≤ s.next^[k] last at hle
    omega
  · rintro rfl
    exact h.2

/-- The loop stops at the latest activation, or after its number of steps. -/
theorem scan_elapsed (hs : s.Advances) (i : Nat) (h : s.Elapsed last now k) :
    s.scan now i last = s.next^[min i k] last := by
  induction i generalizing last k with
  | zero => simp [scan]
  | succ i ih =>
    unfold scan
    dsimp only
    by_cases hdue : now < s.next last
    · rw [if_pos hdue, (h.due_iff hs).mp hdue]
      rfl
    · have hk : k ≠ 0 := fun hk => hdue ((h.due_iff hs).mpr hk)
      have hfirst : s.Elapsed (s.next last) now (k - 1) := h.drop (c := 1) (by omega)
      rw [if_neg hdue, ih hfirst, ← Function.iterate_succ_apply]
      congr 1
      omega

end CronSchedule

section Ticks
variable {s : CronSchedule} {last now : Int} {k : Nat} {policy : MisfirePolicy}

/-- The most activations that one call looks at. -/
def maxElapsed : Nat := maxScan + 1

/-- **One call** when `k` activations have elapsed: it goes on by at most `maxElapsed` of
them. -/
theorem computeFires_elapsed (hs : s.Advances) (h : s.Elapsed last now k) :
    computeFires s last now policy =
      (if k ≠ 0 ∧ (min maxElapsed k = 1 ∨ policy = .fireOnce) then
        [s.next^[min maxElapsed k] last] else [], s.next^[min maxElapsed k] last) := by
  by_cases hk : k = 0
  · subst hk
    rw [computeFires, if_pos ((h.due_iff hs).mpr rfl)]
    simp
  · have hdue : ¬ now < s.next last := fun hlt => hk ((h.due_iff hs).mp hlt)
    have hlatest : s.scan now maxScan (s.next last) = s.next^[min maxElapsed k] last := by
      have hfirst : s.Elapsed (s.next last) now (k - 1) := h.drop (c := 1) (by omega)
      rw [scan_elapsed hs maxScan hfirst, ← Function.iterate_succ_apply]
      congr 1
      unfold maxElapsed
      omega
    simp only [computeFires, if_neg hdue, hlatest]
    by_cases hone : min maxElapsed k = 1
    · rw [hone]
      simp [hk]
    · have hgap : s.next^[1] last < s.next^[min maxElapsed k] last := by
        refine hs.iterate_lt last ?_
        unfold maxElapsed at hone ⊢
        omega
      rw [if_neg (not_not.mpr (show s.next last < _ from hgap))]
      cases policy <;> simp [hk, hone]

/-- Ticks at these times, each with the last fired time of the one before: the triggers of
all of them, and the last fired time at the end. -/
def ticks (s : CronSchedule) (policy : MisfirePolicy) : Int → List Int → List Int × Int
  | last, [] => ([], last)
  | last, now :: nows =>
    let (fires, last') := computeFires s last now policy
    let (rest, final) := ticks s policy last' nows
    (fires ++ rest, final)

theorem ticks_cons (hs : s.Advances) (h : s.Elapsed last now k) (nows : List Int) :
    ticks s policy last (now :: nows) =
      ((if k ≠ 0 ∧ (min maxElapsed k = 1 ∨ policy = .fireOnce) then
        [s.next^[min maxElapsed k] last] else []) ++
          (ticks s policy (s.next^[min maxElapsed k] last) nows).1,
        (ticks s policy (s.next^[min maxElapsed k] last) nows).2) := by
  rw [ticks, computeFires_elapsed hs h]

/-- **The ticks after a gap** of `k` activations, if there are enough of them: they end at
the latest one; catching up takes a trigger for each part of `maxElapsed` activations; and
skipping takes one if a single activation is left for the last tick. -/
theorem ticks_spec (hs : s.Advances) {nows : List Int} (h : ∀ now ∈ nows, s.Elapsed last now k)
    (hlen : k ≤ maxElapsed * nows.length) :
    (∀ policy, (ticks s policy last nows).2 = s.next^[k] last) ∧
      (ticks s .fireOnce last nows).1.length = (k + maxScan) / maxElapsed ∧
      (ticks s .fireOnce last nows).1.getLast? = (if k = 0 then none else some (s.next^[k] last)) ∧
      (ticks s .skip last nows).1 = if k % maxElapsed = 1 then [s.next^[k] last] else [] := by
  have hmax : maxElapsed = maxScan + 1 := rfl
  induction nows generalizing last k with
  | nil =>
    obtain rfl : k = 0 := by simpa using hlen
    simp [ticks, hmax, maxScan]
  | cons now nows ih =>
    have hnow := h now List.mem_cons_self
    -- the first tick takes a part, the others the rest of the activations
    have hrest : ∀ n ∈ nows, s.Elapsed (s.next^[min maxElapsed k] last) n
        (k - min maxElapsed k) := fun n hn =>
      (h n (List.mem_cons_of_mem _ hn)).drop (Nat.min_le_right _ _)
    have hlen' : k - min maxElapsed k ≤ maxElapsed * nows.length := by
      rw [List.length_cons, Nat.mul_succ] at hlen
      omega
    obtain ⟨hfinal, hcount, hlatest, hskip⟩ := ih hrest hlen'
    have hback : s.next^[k - min maxElapsed k] (s.next^[min maxElapsed k] last) =
        s.next^[k] last := by
      rw [← Function.iterate_add_apply]
      congr 1
      omega
    rw [hback] at hlatest hskip
    rw [ticks_cons hs hnow, ticks_cons hs hnow]
    refine ⟨fun policy => ?_, ?_, ?_, ?_⟩
    · rw [ticks_cons hs hnow]
      exact (hfinal policy).trans hback
    · rw [List.length_append, hcount]
      by_cases hk : k = 0
      · simp [hk]
      · rw [if_pos ⟨hk, Or.inr rfl⟩, List.length_singleton]
        unfold maxElapsed maxScan
        omega
    · rw [List.getLast?_append, hlatest]
      by_cases hk : k = 0
      · simp [hk]
      · have hfires : ∀ l l' : List Int, (if k ≠ 0 ∧ (min maxElapsed k = 1 ∨
            MisfirePolicy.fireOnce = .fireOnce) then l else l') = l :=
          fun l l' => if_pos ⟨hk, Or.inr rfl⟩
        rw [hfires, if_neg hk]
        by_cases hall : k - min maxElapsed k = 0
        · have hmin : min maxElapsed k = k := by omega
          rw [if_pos hall, hmin]
          rfl
        · rw [if_neg hall]
          rfl
    · rw [hskip]
      by_cases hone : k = 1
      · subst hone
        have hmin : min maxElapsed 1 = 1 := by
          unfold maxElapsed
          omega
        have hmod : 1 % maxElapsed = 1 := by decide
        simp [hmin, hmod]
      · have hmin : ¬ min maxElapsed k = 1 := by
          unfold maxElapsed maxScan
          omega
        have hmod : (k - min maxElapsed k) % maxElapsed = 1 ↔ k % maxElapsed = 1 := by
          unfold maxElapsed maxScan
          omega
        simp [hmin, hmod]

/-- Ticks after which nothing is due were enough. -/
theorem enough_of_settled (hs : s.Advances) {nows : List Int}
    (h : ∀ now ∈ nows, s.Elapsed last now k) (hnow : s.Elapsed last now k)
    (hend : now < s.next (ticks s policy last nows).2) : k ≤ maxElapsed * nows.length := by
  induction nows generalizing last k with
  | nil => exact Nat.le_of_eq ((hnow.due_iff hs).mp hend)
  | cons n nows ih =>
    rw [ticks_cons hs (h n List.mem_cons_self)] at hend
    have hle : min maxElapsed k ≤ k := Nat.min_le_right _ _
    have hrest := ih (fun n hn => (h n (List.mem_cons_of_mem _ hn)).drop hle) (hnow.drop hle) hend
    rw [List.length_cons, Nat.mul_succ]
    omega

/-- **Misfire policies and the length of a gap.**  Of the two or more activations in a gap,
a number `k` has elapsed.  Over the ticks up to the point where nothing is due, catching up
takes exactly one trigger, the latest activation, and skipping takes none, if and only if
`k` is at most `maxElapsed`; skipping alone fails if `k` is one more than a multiple of
it.  The last fired time always ends at the latest activation. -/
theorem gap_policies_iff (hs : s.Advances) (hk : 2 ≤ k) (hnow : s.Elapsed last now k)
    {nows : List Int} (h : ∀ n ∈ nows, now ≤ n ∧ n < s.next^[k + 1] last)
    (hend : now < s.next (ticks s policy last (now :: nows)).2) :
    ((ticks s .fireOnce last (now :: nows)).1 = [s.next^[k] last] ∧
      (ticks s .skip last (now :: nows)).1 = [] ↔ k ≤ maxElapsed) ∧
    ((ticks s .skip last (now :: nows)).1 = [] ↔ k % maxElapsed ≠ 1) ∧
    ∀ policy, (ticks s policy last (now :: nows)).2 = s.next^[k] last := by
  have hall : ∀ n ∈ now :: nows, s.Elapsed last n k := by
    intro n hn
    rcases List.mem_cons.mp hn with rfl | hn
    · exact hnow
    · exact ⟨hnow.1.trans (h n hn).1, (h n hn).2⟩
  have hlen := enough_of_settled hs hall hnow hend
  obtain ⟨hfinal, hcount, hlatest, hskip⟩ := ticks_spec hs hall hlen
  have hskip' : (ticks s .skip last (now :: nows)).1 = [] ↔ k % maxElapsed ≠ 1 := by
    rw [hskip]
    by_cases hone : k % maxElapsed = 1 <;> simp [hone]
  refine ⟨⟨fun ⟨honce, _⟩ => ?_, fun hle => ⟨?_, hskip'.mpr ?_⟩⟩, hskip', hfinal⟩
  · rw [honce, List.length_singleton] at hcount
    unfold maxElapsed maxScan at hcount ⊢
    omega
  · have hlength : (ticks s .fireOnce last (now :: nows)).1.length = 1 := by
      rw [hcount]
      unfold maxElapsed maxScan at hle ⊢
      omega
    obtain ⟨t, ht⟩ := List.length_eq_one_iff.mp hlength
    rw [ht, if_neg (by omega)] at hlatest
    rw [ht]
    exact congrArg (fun t => [t]) (Option.some.inj hlatest)
  · unfold maxElapsed maxScan at hle ⊢
    omega

end Ticks

/-- An activation every second. -/
def eachSecond : CronSchedule where
  next := fun t => t + second

theorem eachSecond_advances : eachSecond.Advances := fun t => by
  change t < t + second
  unfold second
  omega

theorem iterate_eachSecond (n : Nat) (t : Int) : eachSecond.next^[n] t = t + n * second := by
  induction n with
  | zero => simp
  | succ n ih =>
    rw [Function.iterate_succ_apply', ih]
    change t + n * second + second = _
    push_cast
    ring

theorem eachSecond_elapsed (n : Nat) : eachSecond.Elapsed 0 (n * second) n := by
  unfold Elapsed
  rw [iterate_eachSecond, iterate_eachSecond]
  unfold second
  omega

/-- A gap of five seconds, caught up in one tick. -/
theorem five_seconds_once :
    (ticks eachSecond .fireOnce 0 [5 * second]).1 = [5 * second] ∧
      (ticks eachSecond .skip 0 [5 * second]).1 = [] := by
  have hnow : eachSecond.Elapsed 0 (5 * second) 5 := eachSecond_elapsed 5
  have hend : 5 * second < eachSecond.next (ticks eachSecond .skip 0 [5 * second]).2 := by
    decide +kernel
  have h := (gap_policies_iff eachSecond_advances (by decide) hnow (by simp) hend).1
  have hlatest : eachSecond.next^[5] 0 = 5 * second := rfl
  rw [hlatest] at h
  exact h.mpr (by decide)

/-- A job of every second that was down for 100002 seconds: two ticks, at the end of which
nothing is due, catch up twice, and skipping fires once. -/
theorem long_gap_fires_twice :
    (ticks eachSecond .fireOnce 0 [100002 * second, 100002 * second]).1 =
      [100001 * second, 100002 * second] ∧
    (ticks eachSecond .skip 0 [100002 * second, 100002 * second]).1 = [100002 * second] ∧
    100002 * second <
      eachSecond.next (ticks eachSecond .skip 0 [100002 * second, 100002 * second]).2 := by
  have hfirst : eachSecond.Elapsed 0 (100002 * second) 100002 := eachSecond_elapsed 100002
  have hsecond : eachSecond.Elapsed (eachSecond.next^[100001] 0) (100002 * second) 1 :=
    hfirst.drop (c := 100001) (by decide)
  have hstart : eachSecond.next^[100001] 0 = 100001 * second := by
    rw [iterate_eachSecond]
    rfl
  have hmin : min maxElapsed 100002 = 100001 := by decide
  have hmin' : min maxElapsed 1 = 1 := by decide
  rw [ticks_cons eachSecond_advances hfirst, ticks_cons eachSecond_advances hfirst, hmin,
    ticks_cons eachSecond_advances hsecond, ticks_cons eachSecond_advances hsecond, hmin', hstart]
  decide +kernel

end ChronosGo
