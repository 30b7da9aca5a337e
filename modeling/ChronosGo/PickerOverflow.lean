import ChronosGo.Task
import ChronosGo.WRRPicker

/-! # The picker in machine integers

`wrrPicker` computes with `int`, which has 64 bits and wraps.  `newWRRPicker64` and
`pick64` are the code in that arithmetic, every addition and subtraction on its own.
The weights are clamped, so with at most `2 ^ 20` queues they add up to at most
`2 ^ 40`; and since the counters add up to zero and none falls to minus the total, none
rises above `2 ^ 60` either.  No operation wraps then, however many picks are made
(`wrapping_picker_exact`).
-/
namespace ChronosGo

/-! ## The code -/

/-- `newWRRPicker`, adding up the weights in `int`. -/
def newWRRPicker64 (queues : QueueWeights) : WRRPicker :=
  { newWRRPicker queues with
    total := (newWRRPicker queues).weights.foldl (fun total w => wrap64 (total + w)) 0 }

namespace WRRPicker

/-- The body of the loop in `pick`, in `int`. -/
def scan64 (p : WRRPicker) (st : List Int × Nat) (i : Nat) : List Int × Nat :=
  let current := st.1.set i (wrap64 (st.1.getD i 0 + p.weights.getD i 0))
  (current, if current.getD i 0 > current.getD st.2 0 then i else st.2)

/-- `pick`, in `int`. -/
def pick64 (p : WRRPicker) : String × WRRPicker :=
  if p.names.length = 0 then ("", p)
  else
    let (current, best) := (List.range p.names.length).foldl p.scan64 (p.current, 0)
    (p.names.getD best "",
      { p with current := current.set best (wrap64 (current.getD best 0 - p.total)) })

/-- The picker after `t` picks in `int`. -/
def after64 (p : WRRPicker) (t : Nat) : WRRPicker := (fun p => p.pick64.2)^[t] p

/-- The pick in `int` that follows `t` picks. -/
def pickAt64 (p : WRRPicker) (t : Nat) : String := (p.after64 t).pick64.1

/-- The counters and the best index in the middle of a pick, after `k` iterations. -/
def midPick (p : WRRPicker) (k : Nat) : List Int × Nat :=
  (List.range k).foldl p.scan (p.current, 0)

/-- The same, in `int`. -/
def midPick64 (p : WRRPicker) (k : Nat) : List Int × Nat :=
  (List.range k).foldl p.scan64 (p.current, 0)

theorem Sized.pick {p : WRRPicker} {n : Nat} (h : p.Sized n) : p.pick.2.Sized n := by
  rcases Nat.eq_zero_or_pos n with rfl | hn
  · unfold WRRPicker.pick
    rw [if_pos h.names]
    exact h
  · obtain ⟨b, -, -, -, hsized, -⟩ := pick_round h hn
    exact hsized

/-! ## A pick that does not wrap -/

/-- Each counter can be raised by its weight and then reduced by the total. -/
structure Fits (p : WRRPicker) (n : Nat) : Prop where
  raise : ∀ i < n, IsInt64 (p.current.getD i 0 + p.weights.getD i 0)
  reduce : ∀ i < n, IsInt64 (p.current.getD i 0 + p.weights.getD i 0 - p.total)

section Fits
variable {p : WRRPicker} {n k : Nat}

/-- The loop of a pick does not wrap, as far as it goes. -/
theorem Fits.midPick64_eq (h : p.Fits n) (hc : p.current.length = n) (hk : k ≤ n) :
    p.midPick64 k = p.midPick k := by
  induction k with
  | zero => rfl
  | succ k ih =>
    -- the counter that is raised next still has the value it had before the pick
    have hrest := (scanned_range p (k := k) (by omega)).rest k (le_refl k)
    unfold midPick64 midPick at ih ⊢
    rw [List.range_succ, List.foldl_append, List.foldl_append, ih (by omega)]
    simp only [List.foldl_cons, List.foldl_nil, scan64, scan]
    rw [hrest, (h.raise k (by omega)).wrap64_eq]

theorem Fits.pick64_eq (h : p.Fits n) (hp : p.Sized n) : p.pick64 = p.pick := by
  unfold pick64 pick
  by_cases hn : p.names.length = 0
  · rw [if_pos hn, if_pos hn]
  · rw [if_neg hn, if_neg hn]
    have hpos : 0 < n := by
      have := hp.names
      omega
    have hscan := scanned_range p (Nat.le_of_eq (hp.names.trans hp.current.symm))
    have hmid : (List.range p.names.length).foldl p.scan64 (p.current, 0) =
        (List.range p.names.length).foldl p.scan (p.current, 0) :=
      h.midPick64_eq hp.current (Nat.le_of_eq hp.names)
    rw [hmid]
    generalize (List.range p.names.length).foldl p.scan (p.current, 0) = st at hscan
    obtain ⟨current, best⟩ := st
    rw [hp.names] at hscan
    have hbest : best < n := hscan.index_lt hpos
    dsimp only
    rw [hscan.raised best hbest, (h.reduce best hbest).wrap64_eq]

end Fits

/-! ## No pick wraps -/

theorem normalizeWeight_le (w : Int) : normalizeWeight w ≤ maxWeight := by
  unfold normalizeWeight maxWeight
  split
  · decide
  · split <;> omega

section New
variable (queues : QueueWeights)

theorem weight_le_new (i : Fin queues.entries.length) :
    (newWRRPicker queues).weight queues.entries.length i ≤ maxWeight := by
  obtain ⟨w, hw⟩ := exists_weight_new queues i
  rw [hw]
  exact normalizeWeight_le w

theorem total_le_new : (newWRRPicker queues).total ≤ queues.entries.length * maxWeight := by
  rw [(sized_new queues).total_eq]
  calc SmoothRoundRobin.total ((newWRRPicker queues).weight queues.entries.length)
      ≤ ∑ _i : Fin queues.entries.length, maxWeight :=
        Finset.sum_le_sum fun i _ => weight_le_new queues i
    _ = queues.entries.length * maxWeight := by simp

variable {queues}

/-- With at most `2 ^ 20` queues, the total and the counters are far from the bounds of
`int`. -/
theorem bounds_new (hn : queues.entries.length ≤ 2 ^ 20) :
    (newWRRPicker queues).total ≤ 2 ^ 40 ∧
      queues.entries.length * (newWRRPicker queues).total ≤ 2 ^ 60 := by
  have hn' : (queues.entries.length : Int) ≤ 2 ^ 20 := by exact_mod_cast hn
  have htotal : (newWRRPicker queues).total ≤ 2 ^ 40 := by
    calc (newWRRPicker queues).total ≤ queues.entries.length * maxWeight := total_le_new queues
      _ ≤ 2 ^ 20 * maxWeight := Int.mul_le_mul_of_nonneg_right hn' (by decide)
      _ = 2 ^ 40 := by decide
  refine ⟨htotal, ?_⟩
  calc queues.entries.length * (newWRRPicker queues).total
      ≤ queues.entries.length * 2 ^ 40 :=
        Int.mul_le_mul_of_nonneg_left htotal (Int.natCast_nonneg _)
    _ ≤ 2 ^ 20 * 2 ^ 40 := Int.mul_le_mul_of_nonneg_right hn' (by decide)
    _ = 2 ^ 60 := by decide

/-- Every pick of a new picker fits. -/
theorem fits_after (hn : queues.entries.length ≤ 2 ^ 20) (t : Nat) :
    ((newWRRPicker queues).after t).Fits queues.entries.length := by
  have hp := sized_new queues
  obtain ⟨htotal, hmax⟩ := bounds_new hn
  have hfits : ∀ i < queues.entries.length,
      IsInt64 (((newWRRPicker queues).after t).current.getD i 0 +
        ((newWRRPicker queues).after t).weights.getD i 0) ∧
      IsInt64 (((newWRRPicker queues).after t).current.getD i 0 +
        ((newWRRPicker queues).after t).weights.getD i 0 -
          ((newWRRPicker queues).after t).total) := by
    intro i hi
    obtain ⟨bs, hbs⟩ := exists_course hp (Nat.zero_lt_of_lt hi) (counter_new queues _) t
    rw [hbs.weights, hbs.total hp]
    have hlow : -(newWRRPicker queues).total <
        ((newWRRPicker queues).after t).current.getD i 0 := by
      rw [hp.total_eq]
      exact hbs.run.lower (weight_new queues) ⟨i, hi⟩
    have hup : ((newWRRPicker queues).after t).current.getD i 0 ≤
        queues.entries.length * (newWRRPicker queues).total := by
      have hrun := hbs.run.upper (weight_new queues) ⟨i, hi⟩
      rwa [← hp.total_eq, Fintype.card_fin] at hrun
    have hw : 0 < (newWRRPicker queues).weights.getD i 0 := weight_new queues ⟨i, hi⟩
    have hw' : (newWRRPicker queues).weights.getD i 0 ≤ 1048576 := weight_le_new queues ⟨i, hi⟩
    unfold IsInt64
    omega
  exact ⟨fun i hi => (hfits i hi).1, fun i hi => (hfits i hi).2⟩

/-- The weights add up without wrapping, as far as they are added. -/
theorem foldl_wrap64_eq {ws : List Int} (hw : ∀ w ∈ ws, 0 ≤ w) (hs : ws.sum < 2 ^ 63) :
    ws.foldl (fun total w => wrap64 (total + w)) 0 = ws.sum := by
  induction ws using List.reverseRecOn with
  | nil => rfl
  | append_singleton ws w ih =>
    rw [List.sum_append, List.sum_singleton] at hs ⊢
    have hw0 := hw w (by simp)
    have hpos : 0 ≤ ws.sum := List.sum_nonneg fun x hx => hw x (by simp [hx])
    rw [List.foldl_append, ih (fun x hx => hw x (by simp [hx])) (by omega)]
    exact IsInt64.wrap64_eq ⟨by omega, hs⟩

theorem weights_nonneg {w : Int} (h : w ∈ (newWRRPicker queues).weights) : 0 ≤ w := by
  obtain ⟨q, -, rfl⟩ := List.mem_map.mp h
  exact (normalizeWeight_pos _).le

theorem sum_take_le (hn : queues.entries.length ≤ 2 ^ 20) (k : Nat) :
    ((newWRRPicker queues).weights.take k).sum ≤ 2 ^ 40 := by
  have htotal := (bounds_new hn).1
  rw [(sized_new queues).total, ← List.take_append_drop k (newWRRPicker queues).weights,
    List.sum_append] at htotal
  have hdrop : 0 ≤ ((newWRRPicker queues).weights.drop k).sum :=
    List.sum_nonneg fun w hw => weights_nonneg (List.mem_of_mem_drop hw)
  omega

theorem sized_after (t : Nat) : ((newWRRPicker queues).after t).Sized queues.entries.length := by
  induction t with
  | zero => exact sized_new queues
  | succ t ih =>
    rw [after_succ]
    exact ih.pick

/-- **Run lemma.**  No pick wraps, so all pickers are the same. -/
theorem after64_eq (hn : queues.entries.length ≤ 2 ^ 20) (t : Nat) :
    (newWRRPicker queues).after64 t = (newWRRPicker queues).after t := by
  induction t with
  | zero => rfl
  | succ t ih =>
    calc (newWRRPicker queues).after64 (t + 1)
        = ((newWRRPicker queues).after64 t).pick64.2 := Function.iterate_succ_apply' _ _ _
      _ = ((newWRRPicker queues).after t).pick.2 := by
          rw [ih, (fits_after hn t).pick64_eq (sized_after t)]
      _ = (newWRRPicker queues).after (t + 1) := (after_succ _ t).symm

end New

/-- **The picker never overflows.**  With at most `2 ^ 20` queues and any weights, the
picker in `int` is the picker in unbounded integers: the partial sums of the weights, the
new picker, every pick, the counters after it, and the counters at each point in the
middle of it. -/
theorem wrapping_picker_exact (queues : QueueWeights) (hn : queues.entries.length ≤ 2 ^ 20) :
    (∀ k, ((newWRRPicker queues).weights.take k).foldl (fun total w => wrap64 (total + w)) 0 =
      ((newWRRPicker queues).weights.take k).sum) ∧
    newWRRPicker64 queues = newWRRPicker queues ∧
    ∀ t, (newWRRPicker64 queues).pickAt64 t = (newWRRPicker queues).pickAt t ∧
      (newWRRPicker64 queues).after64 t = (newWRRPicker queues).after t ∧
      ∀ k ≤ queues.entries.length,
        ((newWRRPicker64 queues).after64 t).midPick64 k =
          ((newWRRPicker queues).after t).midPick k := by
  have hsum : ∀ k, ((newWRRPicker queues).weights.take k).foldl
      (fun total w => wrap64 (total + w)) 0 = ((newWRRPicker queues).weights.take k).sum :=
    fun k => foldl_wrap64_eq (fun w hw => weights_nonneg (List.mem_of_mem_take hw))
      (lt_of_le_of_lt (sum_take_le hn k) (by decide))
  have hnew : newWRRPicker64 queues = newWRRPicker queues := by
    refine WRRPicker.ext rfl rfl rfl ?_
    have hall := hsum (newWRRPicker queues).weights.length
    rw [List.take_length] at hall
    exact hall.trans (sized_new queues).total.symm
  refine ⟨hsum, hnew, fun t => ?_⟩
  have hfits := fits_after hn t
  have hsized : ((newWRRPicker queues).after t).Sized queues.entries.length := sized_after t
  rw [hnew, pickAt64, pickAt, after64_eq hn t, hfits.pick64_eq hsized]
  exact ⟨rfl, rfl, fun k hk => hfits.midPick64_eq hsized.current hk⟩

/-- The largest weight there is, beside the smallest. -/
def extremeQueues : QueueWeights :=
  ⟨[("huge", 9223372036854775807), ("none", -9223372036854775808)], by decide⟩

/-- A thousand picks between the extremes. -/
theorem extreme_weights_exact :
    (newWRRPicker64 extremeQueues).after64 1000 = (newWRRPicker extremeQueues).after 1000 ∧
      (newWRRPicker64 extremeQueues).pickAt64 1000 = (newWRRPicker extremeQueues).pickAt 1000 := by
  obtain ⟨-, -, hpicks⟩ := wrapping_picker_exact extremeQueues (by decide)
  exact ⟨(hpicks 1000).2.1, (hpicks 1000).1⟩

end WRRPicker
end ChronosGo
