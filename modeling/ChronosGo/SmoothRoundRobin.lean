import Mathlib.Algebra.BigOperators.Intervals
import Mathlib.Algebra.BigOperators.Ring.Finset
import Mathlib.Algebra.Order.BigOperators.Group.Finset
import Mathlib.Data.Finset.Powerset
import Mathlib.Order.Interval.Finset.Nat
import Mathlib.Order.Lattice.Nat
import Mathlib.Tactic.FieldSimp
import Mathlib.Tactic.Linarith
import Mathlib.Tactic.Positivity
import Mathlib.Tactic.Ring

/-! # Smooth weighted round robin

In each round every counter grows by the weight of its member, a member with the
largest counter is picked, and its counter is lowered by the sum of the weights.
Whichever of several largest counters is picked, the counters say how far each
member is behind its share (`Run.share`), no member is ever a whole pick ahead of it
(`Run.lower`), and after as many rounds as the weights add up to all counters are
zero again (`Run.eq_zero`).

How far a member can fall behind depends on the weights.  If `W j` is the largest sum of
`j` weights, then `k` counters add up to at most `k` times the sum of `W j / j` over
`k < j ≤ n` (`Run.sum_le`), so no counter exceeds `total` if that sum does not for `k = 1`
(`Run.le_total`): with at most three members it never does, nor with equal weights.  In
general a counter exceeds `total` after a round if and only if two members were above
`total` when the pick was made (`Round.le_total_iff`).
-/
namespace SmoothRoundRobin
open Finset

variable {ι : Type} [Fintype ι] (w : ι → ℤ)

/-- The sum of the weights. -/
def total : ℤ := ∑ i, w i

/-! ## The weights -/

/-- The largest sum of `k` weights. -/
def heaviest (k : ℕ) : ℕ := (powersetCard k univ).sup fun S => (∑ i ∈ S, w i).toNat

/-- How far each of `k` members can be behind, on the average. -/
def lag (k : ℕ) : ℚ := ∑ j ∈ Ico k (Fintype.card ι), (heaviest w (j + 1) : ℚ) / (j + 1)

theorem sum_le_heaviest (S : Finset ι) : ∑ i ∈ S, w i ≤ heaviest w S.card :=
  (Int.self_le_toNat _).trans (Int.ofNat_le.mpr
    (le_sup (f := fun S => (∑ i ∈ S, w i).toNat) (mem_powersetCard.mpr ⟨subset_univ S, rfl⟩)))

variable {w}

theorem heaviest_le {a : ℤ} {k : ℕ} (ha : 0 ≤ a)
    (h : ∀ S : Finset ι, S.card = k → ∑ i ∈ S, w i ≤ a) :
    (heaviest w k : ℤ) ≤ a := by
  rw [← Int.toNat_of_nonneg ha, Int.ofNat_le]
  exact Finset.sup_le fun S hS => Int.toNat_le_toNat (h S (mem_powersetCard.mp hS).2)

theorem lag_nonneg (k : ℕ) : 0 ≤ lag w k := sum_nonneg fun j _ => by positivity

theorem lag_eq {k : ℕ} (hk : k < Fintype.card ι) :
    lag w k = (heaviest w (k + 1) : ℚ) / (k + 1) + lag w (k + 1) :=
  sum_eq_sum_Ico_succ_bot hk _

/-- With at most three members each is behind by less than the sum of the weights. -/
theorem lag_le_of_card (hw : ∀ i, 0 < w i) (hn : Fintype.card ι ≤ 3) : lag w 1 ≤ total w := by
  have htotal : 0 ≤ total w := sum_nonneg fun i _ => (hw i).le
  have hle : ∀ k, (heaviest w k : ℚ) ≤ total w := by
    intro k
    exact_mod_cast heaviest_le htotal fun S _ =>
      sum_le_sum_of_subset_of_nonneg (subset_univ S) fun i _ _ => (hw i).le
  have htotal' : (0 : ℚ) ≤ total w := by exact_mod_cast htotal
  calc lag w 1 ≤ ∑ j ∈ Ico 1 3, (heaviest w (j + 1) : ℚ) / (j + 1) :=
        sum_le_sum_of_subset_of_nonneg (Ico_subset_Ico_right hn) fun j _ _ => by positivity
    _ = (heaviest w 2 : ℚ) / 2 + (heaviest w 3 : ℚ) / 3 := by
        rw [sum_Ico_succ_top (by decide), sum_Ico_succ_top (by decide)]
        norm_num
    _ ≤ total w := by linarith [hle 2, hle 3]

/-- So it is with equal weights. -/
theorem lag_le_of_eq {a : ℤ} (ha : 0 ≤ a) (hw : ∀ i, w i = a) : lag w 1 ≤ total w := by
  have hsum : ∀ S : Finset ι, ∑ i ∈ S, w i = S.card * a := by
    intro S
    rw [sum_congr rfl fun i _ => hw i, sum_const, nsmul_eq_mul]
  have ha' : (0 : ℚ) ≤ a := by exact_mod_cast ha
  have hle : ∀ j : ℕ, (heaviest w (j + 1) : ℚ) / (j + 1) ≤ a := by
    intro j
    have h : (heaviest w (j + 1) : ℤ) ≤ (j + 1 : ℕ) * a :=
      heaviest_le (by positivity) fun S hS => by rw [hsum, hS]
    rw [div_le_iff₀ (by positivity), mul_comm]
    exact_mod_cast h
  calc lag w 1 ≤ ∑ _j ∈ Ico 1 (Fintype.card ι), (a : ℚ) := sum_le_sum fun j _ => hle j
    _ = (Fintype.card ι - 1 : ℕ) * (a : ℚ) := by rw [sum_const, Nat.card_Ico, nsmul_eq_mul]
    _ ≤ Fintype.card ι * (a : ℚ) := by
        gcongr
        exact Nat.sub_le _ _
    _ = total w := by
        rw [total, hsum]
        push_cast
        rfl

/-! ## Rounds -/

variable [DecidableEq ι] (w)

/-- One round: from counters `c`, member `b` is picked. -/
structure Round (c : ι → ℤ) (b : ι) (c' : ι → ℤ) : Prop where
  best : ∀ i, c i + w i ≤ c b + w b
  next : ∀ i, c' i = c i + w i - if i = b then total w else 0

/-- Rounds from counters that are zero, with the picks, newest first. -/
inductive Run : List ι → (ι → ℤ) → Prop where
  | start : Run [] 0
  | round {bs : List ι} {b : ι} {c c' : ι → ℤ} (h : Run bs c) (hr : Round w c b c') :
      Run (b :: bs) c'

variable {w} {c c' : ι → ℤ} {b : ι} {bs : List ι}

/-! ## One round -/

namespace Round

/-- What a set of counters adds up to. -/
theorem sum_next (h : Round w c b c') (S : Finset ι) :
    ∑ i ∈ S, c' i = ∑ i ∈ S, c i + ∑ i ∈ S, w i - if b ∈ S then total w else 0 := by
  simp only [h.next, sum_sub_distrib, sum_add_distrib, sum_ite_eq']

theorem sum_univ (h : Round w c b c') : ∑ i, c' i = ∑ i, c i := by
  rw [h.sum_next, if_pos (mem_univ b)]
  exact add_sub_cancel_right _ _

/-- The counter of the member that is picked was positive. -/
theorem pos (h : Round w c b c') (hw : 0 < total w) (hc : ∑ i, c i = 0) : 0 < c b + w b := by
  by_contra hneg
  have hle : ∑ i, (c i + w i) ≤ 0 :=
    sum_nonpos fun i _ => (h.best i).trans (not_lt.mp hneg)
  rw [sum_add_distrib, hc, zero_add] at hle
  exact absurd hw (not_lt.mpr hle)

theorem lower (h : Round w c b c') (hw : ∀ i, 0 < w i) (hc : ∑ i, c i = 0)
    (hlow : ∀ i, -total w < c i) (i : ι) : -total w < c' i := by
  rw [h.next]
  by_cases hi : i = b
  · subst hi
    have hpos := h.pos (sum_pos (fun i _ => hw i) ⟨i, mem_univ i⟩) hc
    rw [if_pos rfl]
    omega
  · have hi' := hlow i
    have hwi := hw i
    rw [if_neg hi]
    omega

/-- A counter exceeds the sum of the weights after a round if and only if two members were
above it when the pick was made: one of them was not picked. -/
theorem le_total_iff (h : Round w c b c') (hw : ∀ i, 0 < w i) (hc : ∀ i, c i ≤ total w) :
    (∀ i, c' i ≤ total w) ↔
      ∀ i j, total w < c i + w i → total w < c j + w j → i = j := by
  constructor
  · intro hle
    have hpicked : ∀ i, total w < c i + w i → i = b := by
      intro i hi
      by_contra hne
      have hi' := hle i
      rw [h.next, if_neg hne] at hi'
      omega
    intro i j hi hj
    rw [hpicked i hi, hpicked j hj]
  · intro hone i
    rw [h.next]
    by_cases hi : i = b
    · have hwi : w i ≤ total w :=
        single_le_sum (f := w) (fun j _ => (hw j).le) (mem_univ i)
      have hci := hc i
      rw [if_pos hi]
      omega
    · by_contra hgt
      rw [if_neg hi, sub_zero, not_le] at hgt
      exact hi (hone i b hgt (hgt.trans_le (h.best i)))

/-- A member that is not picked has at most the mean of a set with the one that is. -/
theorem card_mul_sum_le (h : Round w c b c') {S : Finset ι} (hb : b ∉ S) :
    (S.card + 1) * ∑ i ∈ S, (c i + w i) ≤ S.card * ∑ i ∈ insert b S, (c i + w i) := by
  have hle : ∑ i ∈ S, (c i + w i) ≤ S.card * (c b + w b) := by
    calc ∑ i ∈ S, (c i + w i) ≤ ∑ _i ∈ S, (c b + w b) := sum_le_sum fun i _ => h.best i
      _ = S.card * (c b + w b) := by rw [sum_const, nsmul_eq_mul]
  rw [sum_insert hb]
  linarith

/-- The bound on the sum of some counters is kept. -/
theorem sum_le (h : Round w c b c') (hw : ∀ i, 0 < w i)
    (hc : ∀ S : Finset ι, ((∑ i ∈ S, c i : ℤ) : ℚ) ≤ S.card * lag w S.card) (S : Finset ι) :
    ((∑ i ∈ S, c' i : ℤ) : ℚ) ≤ S.card * lag w S.card := by
  rw [h.sum_next]
  by_cases hb : b ∈ S
  · -- the picked one is among them: they have lost at least what they gained
    have hsub : ∑ i ∈ S, w i ≤ total w :=
      sum_le_sum_of_subset_of_nonneg (subset_univ S) fun i _ _ => (hw i).le
    refine le_trans ?_ (hc S)
    rw [if_pos hb]
    exact_mod_cast (by omega)
  · have hcard : (insert b S).card = S.card + 1 := card_insert_of_notMem hb
    have hmean : ((S.card + 1 : ℕ) : ℚ) * ((∑ i ∈ S, c i + ∑ i ∈ S, w i : ℤ) : ℚ) ≤
        S.card * ((∑ i ∈ insert b S, c i : ℤ) + (heaviest w (S.card + 1) : ℚ)) := by
      have hle := h.card_mul_sum_le hb
      have hheavy := sum_le_heaviest w (insert b S)
      rw [sum_add_distrib, sum_add_distrib] at hle
      rw [hcard] at hheavy
      have hle' : (S.card + 1 : ℤ) * (∑ i ∈ S, c i + ∑ i ∈ S, w i) ≤
          S.card * (∑ i ∈ insert b S, c i + heaviest w (S.card + 1)) :=
        hle.trans (mul_le_mul_of_nonneg_left (by omega) (Int.natCast_nonneg _))
      exact_mod_cast hle'
    have hbound := hc (insert b S)
    rw [hcard] at hbound
    have hlt : S.card < Fintype.card ι := by
      rw [← Nat.succ_le_iff, Nat.succ_eq_add_one, ← hcard]
      exact card_le_univ _
    rw [if_neg hb, sub_zero, lag_eq hlt]
    have hpos : (0 : ℚ) < ((S.card + 1 : ℕ) : ℚ) := by positivity
    refine le_of_mul_le_mul_left ?_ hpos
    calc ((S.card + 1 : ℕ) : ℚ) * ((∑ i ∈ S, c i + ∑ i ∈ S, w i : ℤ) : ℚ)
        ≤ S.card * ((∑ i ∈ insert b S, c i : ℤ) + (heaviest w (S.card + 1) : ℚ)) := hmean
      _ ≤ S.card * (((S.card + 1 : ℕ) : ℚ) * lag w (S.card + 1) + heaviest w (S.card + 1)) := by
        gcongr
      _ = ((S.card + 1 : ℕ) : ℚ) * (S.card *
            ((heaviest w (S.card + 1) : ℚ) / (S.card + 1) + lag w (S.card + 1))) := by
        push_cast
        field_simp
        ring

end Round

/-! ## Runs -/

namespace Run

theorem sum_univ (h : Run w bs c) : ∑ i, c i = 0 := by
  induction h with
  | start => exact sum_const_zero
  | round _ hr ih => exact hr.sum_univ.trans ih

/-- **No member is a whole pick ahead of its share.** -/
theorem lower (h : Run w bs c) (hw : ∀ i, 0 < w i) (i : ι) : -total w < c i := by
  induction h generalizing i with
  | start => exact neg_lt_zero.mpr (sum_pos (fun i _ => hw i) ⟨i, mem_univ i⟩)
  | round h hr ih => exact hr.lower hw h.sum_univ ih i

/-- Since the counters add up to zero, none is far above it either. -/
theorem upper (h : Run w bs c) (hw : ∀ i, 0 < w i) (i : ι) :
    c i ≤ Fintype.card ι * total w := by
  have htotal : 0 ≤ total w := sum_nonneg fun j _ => (hw j).le
  calc c i = ∑ j ∈ univ.erase i, -c j := by
        rw [sum_neg_distrib, eq_neg_iff_add_eq_zero, add_sum_erase _ _ (mem_univ i)]
        exact h.sum_univ
    _ ≤ ∑ _j ∈ univ.erase i, total w := sum_le_sum fun j _ => by
        have := h.lower hw j
        omega
    _ = (univ.erase i).card * total w := by rw [sum_const, nsmul_eq_mul]
    _ ≤ Fintype.card ι * total w := by
        gcongr
        exact card_le_univ _

/-- **A counter is what the member lacks of its share.** -/
theorem share (h : Run w bs c) (i : ι) : bs.count i * total w + c i = bs.length * w i := by
  induction h with
  | start => simp
  | @round bs b c c' _ hr ih =>
    rw [hr.next, List.count_cons, List.length_cons]
    by_cases hi : i = b
    · subst hi
      rw [if_pos rfl, if_pos (beq_self_eq_true i)]
      push_cast
      linarith
    · rw [if_neg hi, if_neg (by simpa using Ne.symm hi)]
      push_cast
      linarith

/-- **All counters are zero again after a multiple of `total` rounds.**  They are multiples
of `total`, none is below zero by the lower bound, and they add up to zero. -/
theorem eq_zero (h : Run w bs c) (hw : ∀ i, 0 < w i) (hd : total w ∣ bs.length) (i : ι) :
    c i = 0 := by
  have hnonneg : ∀ j, 0 ≤ c j := by
    intro j
    have hdvd : total w ∣ c j := by
      have hshare := h.share j
      have hsplit : c j = bs.length * w j - bs.count j * total w := by linarith
      rw [hsplit]
      exact dvd_sub (hd.mul_right _) (dvd_mul_left _ _)
    obtain ⟨q, hq⟩ := hdvd
    have hlow := h.lower hw j
    have hpos : 0 < total w := sum_pos (fun i _ => hw i) ⟨j, mem_univ j⟩
    rw [hq] at hlow ⊢
    have hq' : -1 < q := by
      by_contra hle
      have : total w * q ≤ total w * (-1) := mul_le_mul_of_nonneg_left (by omega) hpos.le
      omega
    exact mul_nonneg hpos.le (by omega)
  exact (sum_eq_zero_iff_of_nonneg fun j _ => hnonneg j).mp h.sum_univ i (mem_univ i)

/-- **How far some members can be behind together.** -/
theorem sum_le (h : Run w bs c) (hw : ∀ i, 0 < w i) (S : Finset ι) :
    ((∑ i ∈ S, c i : ℤ) : ℚ) ≤ S.card * lag w S.card := by
  induction h generalizing S with
  | start =>
    have hlag := lag_nonneg (w := w) S.card
    simp only [Pi.zero_apply, sum_const_zero, Int.cast_zero]
    positivity
  | round _ hr ih => exact hr.sum_le hw ih S

theorem le_total (h : Run w bs c) (hw : ∀ i, 0 < w i) (hlag : lag w 1 ≤ total w) (i : ι) :
    c i ≤ total w := by
  have hle := h.sum_le hw {i}
  rw [sum_singleton, card_singleton, Nat.cast_one, one_mul] at hle
  exact_mod_cast hle.trans hlag

end Run
end SmoothRoundRobin
