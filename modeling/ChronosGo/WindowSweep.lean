import Mathlib.Data.List.Basic
import Mathlib.Logic.Function.Iterate

/-! # Sweeps of a list that see no further than a window

A sweep looks at the first `window` elements of a list and takes out up to `count`
of those that are not to be kept.  It always starts at the front, so the elements
it keeps stand in the way of what lies behind them: repeated sweeps take out
everything exactly when no element to be taken has a whole window of kept ones in
front of it (`iterate_sweep_drained`, `mem_iterate_sweep`).
-/
namespace WindowSweep
variable {α : Type} [DecidableEq α] (keep : α → Prop) [DecidablePred keep] (window count : Nat)

/-- What one sweep takes out. -/
def taken (xs : List α) : List α := ((xs.take window).filter fun x => ¬ keep x).take count

/-- What one sweep leaves. -/
def sweep (xs : List α) : List α := xs.filter fun x => x ∉ taken keep window count xs

/-- How many kept elements stand in front of an element. -/
def keptBefore (x : α) : List α → Nat
  | [] => 0
  | y :: ys => if y = x then 0 else (if keep y then 1 else 0) + keptBefore x ys

/-- How many elements are to be taken. -/
def pending (xs : List α) : Nat := (xs.filter fun x => ¬ keep x).length

variable {keep window count} {xs : List α} {x : α}

omit [DecidableEq α] in
theorem mem_of_mem_taken (h : x ∈ taken keep window count xs) : x ∈ xs.take window ∧ ¬ keep x := by
  simpa using List.mem_filter.mp (List.mem_of_mem_take h)

theorem mem_sweep : x ∈ sweep keep window count xs ↔ x ∈ xs ∧ x ∉ taken keep window count xs := by
  simp [sweep]

/-! ## What stands in the way -/

/-- Taking out elements that are not kept changes nothing for the others. -/
theorem keptBefore_filter {p : α → Bool} (hp : ∀ y, keep y → p y) (hx : p x) :
    keptBefore keep x (xs.filter p) = keptBefore keep x xs := by
  induction xs with
  | nil => rfl
  | cons y ys ih =>
    by_cases hy : p y
    · rw [List.filter_cons_of_pos hy, keptBefore, keptBefore, ih]
    · have hyx : y ≠ x := fun h => hy (h ▸ hx)
      have hk : ¬ keep y := fun h => hy (hp y h)
      rw [List.filter_cons_of_neg hy, keptBefore, if_neg hyx, if_neg hk, Nat.zero_add, ih]

theorem keptBefore_sweep (h : x ∈ sweep keep window count xs) :
    keptBefore keep x (sweep keep window count xs) = keptBefore keep x xs :=
  keptBefore_filter (fun _ hy => decide_eq_true fun hm => (mem_of_mem_taken hm).2 hy)
    (decide_eq_true (mem_sweep.mp h).2)

/-- Behind a whole window of kept elements nothing is seen. -/
theorem not_mem_take (h : window ≤ keptBefore keep x xs) : x ∉ xs.take window := by
  induction xs generalizing window with
  | nil => simp
  | cons y ys ih =>
    cases window with
    | zero => simp
    | succ window =>
      unfold keptBefore at h
      split at h
      · omega
      · next hy =>
        rw [List.take_succ_cons, List.mem_cons, not_or]
        refine ⟨Ne.symm hy, ih ?_⟩
        split at h <;> omega

/-- The first element that is to be taken is seen, unless too many kept ones stand in
front of it. -/
theorem exists_mem_take (h : ∃ y ∈ xs, ¬ keep y)
    (hbefore : ∀ y ∈ xs, ¬ keep y → keptBefore keep y xs < window) :
    ∃ y ∈ xs.take window, ¬ keep y := by
  induction xs generalizing window with
  | nil => simp at h
  | cons y ys ih =>
    by_cases hy : keep y
    · obtain ⟨z, hz, hkz⟩ := h
      have hne : ∀ z, ¬ keep z → y ≠ z := fun z hkz heq => hkz (heq ▸ hy)
      have hz : z ∈ ys := (List.mem_cons.mp hz).resolve_left (hne z hkz).symm
      have hstep : ∀ z ∈ ys, ¬ keep z → keptBefore keep z ys + 1 < window := by
        intro z hz hkz
        have hb := hbefore z (List.mem_cons_of_mem y hz) hkz
        rw [keptBefore, if_neg (hne z hkz), if_pos hy] at hb
        omega
      obtain ⟨window, rfl⟩ : ∃ n, window = n + 1 := ⟨window - 1, by have := hstep z hz hkz; omega⟩
      have hrest : ∀ z ∈ ys, ¬ keep z → keptBefore keep z ys < window := fun z hz hkz =>
        Nat.lt_of_add_lt_add_right (hstep z hz hkz)
      obtain ⟨v, hv, hkv⟩ := ih ⟨z, hz, hkz⟩ hrest
      exact ⟨v, List.mem_cons_of_mem y hv, hkv⟩
    · have hb := hbefore y List.mem_cons_self hy
      obtain ⟨window, rfl⟩ : ∃ n, window = n + 1 := ⟨window - 1, by omega⟩
      exact ⟨y, List.mem_cons_self, hy⟩

/-! ## Repeated sweeps -/

theorem pending_sweep_lt (hcount : 0 < count) (h : ∃ y ∈ xs, ¬ keep y)
    (hbefore : ∀ y ∈ xs, ¬ keep y → keptBefore keep y xs < window) :
    pending keep (sweep keep window count xs) < pending keep xs := by
  obtain ⟨y, hy, hky⟩ := exists_mem_take h hbefore
  have hne : (xs.take window).filter (fun x => ¬ keep x) ≠ [] :=
    List.ne_nil_of_mem (List.mem_filter.mpr ⟨hy, decide_eq_true hky⟩)
  obtain ⟨z, hz⟩ : ∃ z, z ∈ taken keep window count xs := by
    refine List.exists_mem_of_ne_nil _ fun hnil => ?_
    rcases List.take_eq_nil_iff.mp hnil with h0 | h0
    · omega
    · exact hne h0
  have hzx : z ∈ xs := List.mem_of_mem_take (mem_of_mem_taken hz).1
  have hkz := (mem_of_mem_taken hz).2
  unfold pending sweep
  rw [List.filter_comm]
  refine List.length_filter_lt_length_iff_exists.mpr ⟨z, ?_, by simpa using hz⟩
  exact List.mem_filter.mpr ⟨hzx, decide_eq_true hkz⟩

/-- **As many sweeps as there are elements to be taken take them all**, if none has a
whole window of kept elements in front of it. -/
theorem iterate_sweep_drained (hcount : 0 < count)
    (hbefore : ∀ y ∈ xs, ¬ keep y → keptBefore keep y xs < window) {n : Nat}
    (hn : pending keep xs ≤ n) : ∀ y ∈ (sweep keep window count)^[n] xs, keep y := by
  induction n generalizing xs with
  | zero =>
    intro y hy
    by_contra hky
    have : y ∈ xs.filter fun x => ¬ keep x := List.mem_filter.mpr ⟨hy, decide_eq_true hky⟩
    exact List.ne_nil_of_mem this (List.length_eq_zero_iff.mp (Nat.le_zero.mp hn))
  | succ n ih =>
    rw [Function.iterate_succ_apply]
    refine ih (fun y hy hky => ?_) ?_
    · rw [keptBefore_sweep hy]
      exact hbefore y (mem_sweep.mp hy).1 hky
    · by_cases h : ∃ y ∈ xs, ¬ keep y
      · have := pending_sweep_lt hcount h hbefore
        omega
      · -- nothing is left to be taken
        have hnone : pending keep (sweep keep window count xs) = 0 := by
          rw [pending, List.length_eq_zero_iff, List.filter_eq_nil_iff]
          intro y hy
          have hky : keep y := by
            by_contra hky
            exact h ⟨y, (mem_sweep.mp hy).1, hky⟩
          simpa using hky
        omega

/-- **An element with a whole window of kept ones in front of it is never taken.** -/
theorem mem_iterate_sweep (hx : x ∈ xs) (hbefore : window ≤ keptBefore keep x xs) (n : Nat) :
    x ∈ (sweep keep window count)^[n] xs := by
  induction n generalizing xs with
  | zero => exact hx
  | succ n ih =>
    rw [Function.iterate_succ_apply]
    have hs : x ∈ sweep keep window count xs :=
      mem_sweep.mpr ⟨hx, fun ht => not_mem_take hbefore (mem_of_mem_taken ht).1⟩
    exact ih hs ((keptBefore_sweep hs).symm ▸ hbefore)

end WindowSweep
