import ChronosGo.SmoothRoundRobin
import Mathlib.Algebra.BigOperators.Fin
import Mathlib.Data.List.Sort
import Mathlib.Data.String.Basic

/-! # The queue picker

The server takes its queues in turn by weight: `wrrPicker` is smooth weighted round
robin over the queues in the order of their names.  `pick` is one round of it
(`pick_round`), so what the library says about runs holds of the sequence of picks:
each window of `total` picks has every queue as often as its weight says
(`window_exact`), and the counters stay within `total` if the weights are not too uneven
(`counters_bounded_iff`), which is not always so.
-/
namespace ChronosGo
open SmoothRoundRobin

variable {n k : Nat} {st : List Int × Nat} {q : String} {w : Int} {bs : List (Fin n)}

/-! ## The code -/

/-- `maxWeight`. -/
def maxWeight : Int := 1048576

/-- `normalizeWeight`. -/
def normalizeWeight (w : Int) : Int :=
  if w ≤ 0 then 1 else if w > maxWeight then maxWeight else w

/-- The queues of a server and their weights: a map, in the order in which it is
iterated. -/
structure QueueWeights where
  entries : List (String × Int)
  nodup : (entries.map Prod.fst).Nodup

/-- A look-up in the map; a queue that is missing has weight zero. -/
def QueueWeights.get (queues : QueueWeights) (q : String) : Int := (queues.entries.lookup q).getD 0

/-- `wrrPicker`. -/
@[ext]
structure WRRPicker where
  names : List String
  weights : List Int
  current : List Int
  total : Int
deriving DecidableEq

/-- `newWRRPicker`. -/
def newWRRPicker (queues : QueueWeights) : WRRPicker :=
  let names := (queues.entries.map Prod.fst).insertionSort (· ≤ ·)
  let weights := names.map fun q => normalizeWeight (queues.get q)
  { names := names, weights := weights, current := List.replicate names.length 0
    total := weights.sum }

variable {p : WRRPicker}

namespace WRRPicker

/-- The body of the loop in `pick`: the counters and the best index so far. -/
def scan (p : WRRPicker) (st : List Int × Nat) (i : Nat) : List Int × Nat :=
  let current := st.1.set i (st.1.getD i 0 + p.weights.getD i 0)
  (current, if current.getD i 0 > current.getD st.2 0 then i else st.2)

/-- `pick`. -/
def pick (p : WRRPicker) : String × WRRPicker :=
  if p.names.length = 0 then ("", p)
  else
    let (current, best) := (List.range p.names.length).foldl p.scan (p.current, 0)
    (p.names.getD best "",
      { p with current := current.set best (current.getD best 0 - p.total) })

/-- The picker after `t` picks. -/
def after (p : WRRPicker) (t : Nat) : WRRPicker := (fun p => p.pick.2)^[t] p

/-- The pick that follows `t` picks. -/
def pickAt (p : WRRPicker) (t : Nat) : String := (p.after t).pick.1

/-- `n` consecutive picks, after `t` picks. -/
def window (p : WRRPicker) (t n : Nat) : List String := (List.range' t n).map p.pickAt

theorem after_succ (p : WRRPicker) (t : Nat) : p.after (t + 1) = (p.after t).pick.2 :=
  Function.iterate_succ_apply' _ _ _

theorem after_add (p : WRRPicker) (t u : Nat) : p.after (t + u) = (p.after u).after t :=
  Function.iterate_add_apply _ _ _ _

/-! ## The loop -/

/-- After `k` iterations the first `k` counters are raised, and the best of them is
known. -/
structure Scanned (p : WRRPicker) (k : Nat) (st : List Int × Nat) : Prop where
  length : st.1.length = p.current.length
  raised : ∀ i < k, st.1.getD i 0 = p.current.getD i 0 + p.weights.getD i 0
  rest : ∀ i, k ≤ i → st.1.getD i 0 = p.current.getD i 0
  index : st.2 = 0 ∨ st.2 < k
  best : ∀ i < k, st.1.getD i 0 ≤ st.1.getD st.2 0

/-- The best index is among those that were looked at. -/
theorem Scanned.index_lt (h : Scanned p k st) (hk : 0 < k) :
    st.2 < k := by
  rcases h.index with h0 | hlt
  · omega
  · exact hlt

theorem getD_set {l : List Int} {i j : Nat} {a : Int} (hi : i < l.length) :
    (l.set i a).getD j 0 = if i = j then a else l.getD j 0 := by
  rw [List.getD_eq_getElem?_getD, List.getD_eq_getElem?_getD, List.getElem?_set]
  by_cases hij : i = j
  · subst hij
    simp [hi]
  · simp [hij]

theorem Scanned.step (h : Scanned p k st) (hk : k < p.current.length) :
    Scanned p (k + 1) (p.scan st k) := by
  obtain ⟨current, best⟩ := st
  have hlen : k < current.length := h.length ▸ hk
  have hget : ∀ j, (current.set k (current.getD k 0 + p.weights.getD k 0)).getD j 0 =
      if k = j then current.getD k 0 + p.weights.getD k 0 else current.getD j 0 :=
    fun j => getD_set hlen
  refine ⟨?_, fun i hi => ?_, fun i hi => ?_, ?_, ?_⟩
  · simpa [scan] using h.length
  · by_cases hik : i = k
    · subst hik
      simp only [scan, hget, if_pos]
      rw [h.rest i (Nat.le_refl i)]
    · simp only [scan, hget, if_neg (Ne.symm hik)]
      exact h.raised i (by omega)
  · simp only [scan, hget, if_neg (show ¬ k = i by omega)]
    exact h.rest i (by omega)
  · simp only [scan]
    split
    · exact Or.inr (Nat.lt_succ_self k)
    · rcases h.index with h0 | hlt
      · exact Or.inl h0
      · exact Or.inr (Nat.lt_succ_of_lt hlt)
  · -- the counter that was raised last is the best one if it exceeds the one so far
    intro i hi
    let v : Nat → Int := fun j => (current.set k (current.getD k 0 + p.weights.getD k 0)).getD j 0
    have hmax : i < k → v i ≤ v best := by
      intro hik
      have hbest : best < k := h.index_lt (by omega)
      have hv : ∀ j < k, v j = current.getD j 0 := fun j hj => (hget j).trans (if_neg (by omega))
      rw [hv i hik, hv best hbest]
      exact h.best i hik
    change v i ≤ v (if v k > v best then k else best)
    by_cases hgt : v k > v best
    · rw [if_pos hgt]
      rcases Nat.lt_succ_iff_lt_or_eq.mp hi with hik | rfl
      · exact (hmax hik).trans hgt.le
      · exact le_refl _
    · rw [if_neg hgt]
      rcases Nat.lt_succ_iff_lt_or_eq.mp hi with hik | rfl
      · exact hmax hik
      · exact not_lt.mp hgt

theorem scanned_range (p : WRRPicker) (hk : k ≤ p.current.length) :
    Scanned p k ((List.range k).foldl p.scan (p.current, 0)) := by
  induction k with
  | zero => exact ⟨rfl, fun i hi => by omega, fun i _ => rfl, Or.inl rfl, fun i hi => by omega⟩
  | succ k ih =>
    rw [List.range_succ, List.foldl_append]
    exact (ih (by omega)).step (by omega)

/-! ## A pick is a round -/

/-- The picker has `n` queues. -/
structure Sized (p : WRRPicker) (n : Nat) : Prop where
  names : p.names.length = n
  weights : p.weights.length = n
  current : p.current.length = n
  total : p.total = p.weights.sum

/-- The names of the queues. -/
def name (p : WRRPicker) (n : Nat) (i : Fin n) : String := p.names.getD i ""

/-- The weights of the queues. -/
def weight (p : WRRPicker) (n : Nat) (i : Fin n) : ℤ := p.weights.getD i 0

/-- The counters of the queues. -/
def counter (p : WRRPicker) (n : Nat) (i : Fin n) : ℤ := p.current.getD i 0

theorem Sized.total_eq (h : p.Sized n) : p.total = SmoothRoundRobin.total (p.weight n) := by
  obtain ⟨-, rfl, -, ht⟩ := h
  have hlist : p.weights = List.ofFn (p.weight p.weights.length) := by
    refine List.ext_getElem (by simp) fun i h₁ h₂ => ?_
    simp [weight, h₁]
  calc p.total = (List.ofFn (p.weight p.weights.length)).sum := by rw [ht, ← hlist]
    _ = SmoothRoundRobin.total (p.weight p.weights.length) := List.sum_ofFn

/-- **A pick is a round.** -/
theorem pick_round (h : p.Sized n) (hn : 0 < n) : ∃ b : Fin n, p.pick.1 = p.name n b ∧
    p.pick.2.names = p.names ∧ p.pick.2.weights = p.weights ∧ p.pick.2.Sized n ∧
    Round (p.weight n) (p.counter n) b (p.pick.2.counter n) := by
  have hscan := scanned_range p (Nat.le_of_eq (h.names.trans h.current.symm))
  rw [h.names] at hscan
  generalize hst : (List.range n).foldl p.scan (p.current, 0) = st at hscan
  obtain ⟨current, best⟩ := st
  have hb : best < n := hscan.index_lt hn
  have hpick : p.pick = (p.names.getD best "",
      { p with current := current.set best (current.getD best 0 - p.total) }) := by
    unfold pick
    rw [if_neg (by rw [h.names]; omega), h.names, hst]
  have hlen : current.length = n := hscan.length.trans h.current
  rw [hpick]
  refine ⟨⟨best, hb⟩, rfl, rfl, rfl, ⟨h.names, h.weights, by simpa using hlen, h.total⟩,
    fun i => ?_, fun i => ?_⟩
  · have hle := hscan.best i i.isLt
    rw [hscan.raised i i.isLt, hscan.raised best hb] at hle
    exact hle
  · change (current.set best _).getD i 0 = _
    rw [getD_set (hlen ▸ hb), h.total_eq]
    by_cases hi : best = i
    · rw [if_pos hi, if_pos (Fin.ext hi.symm), hscan.raised best hb]
      rw [counter, weight, ← hi]
    · rw [if_neg hi, if_neg (fun heq => hi (congrArg Fin.val heq).symm), sub_zero]
      exact hscan.raised i i.isLt

/-! ## The sequence of picks -/

/-- `t` picks and the rounds they are. -/
structure Course (p : WRRPicker) (n t : Nat) (bs : List (Fin n)) : Prop where
  run : Run (p.weight n) bs ((p.after t).counter n)
  length : bs.length = t
  picks : p.window 0 t = bs.reverse.map (p.name n)
  names : (p.after t).names = p.names
  weights : (p.after t).weights = p.weights
  sized : (p.after t).Sized n

section Course
variable {t : Nat}

theorem window_succ (p : WRRPicker) (t : Nat) :
    p.window 0 (t + 1) = p.window 0 t ++ [p.pickAt t] := by
  unfold window
  rw [List.range'_concat, List.map_append]
  simp

theorem window_add (p : WRRPicker) (s m : Nat) :
    p.window 0 (s + m) = p.window 0 s ++ p.window s m := by
  unfold window
  rw [← List.map_append, ← List.range'_append_1, Nat.zero_add]

/-- One more pick is one more round. -/
theorem Course.step (h : Course p n t bs) (hn : 0 < n) :
    ∃ b : Fin n, Round (p.weight n) ((p.after t).counter n) b ((p.after (t + 1)).counter n) ∧
      Course p n (t + 1) (b :: bs) := by
  obtain ⟨b, hpick, hnames, hweights, hsized, hround⟩ := pick_round h.sized hn
  rw [← after_succ] at hnames hweights hsized hround
  have hw : (p.after t).weight n = p.weight n := by
    unfold weight
    rw [h.weights]
  rw [hw] at hround
  refine ⟨b, hround, h.run.round hround, congrArg Nat.succ h.length, ?_, hnames.trans h.names,
    hweights.trans h.weights, hsized⟩
  rw [window_succ, h.picks, List.reverse_cons, List.map_append, pickAt, hpick]
  unfold name
  rw [h.names]
  rfl

/-- **The sequence of picks is a run.** -/
theorem exists_course (h : p.Sized n) (hn : 0 < n) (hz : p.counter n = 0) (t : Nat) :
    ∃ bs, Course p n t bs := by
  induction t with
  | zero =>
    refine ⟨[], ?_, rfl, rfl, rfl, rfl, h⟩
    change Run _ _ (p.counter n)
    rw [hz]
    exact .start
  | succ t ih =>
    obtain ⟨bs, hbs⟩ := ih
    obtain ⟨b, -, hb⟩ := hbs.step hn
    exact ⟨_, hb⟩

theorem Course.total (h : Course p n t bs) (hp : p.Sized n) :
    (p.after t).total = p.total := by
  rw [h.sized.total, hp.total, h.weights]

/-- How often a queue was picked, and its counter. -/
theorem Course.share (h : Course p n t bs) (hp : p.Sized n) (hd : p.names.Nodup) (i : Fin n) :
    ((p.window 0 t).count (p.name n i) : ℤ) * p.total + (p.after t).counter n i =
      t * p.weight n i := by
  have hinj : Function.Injective (p.name n) := by
    intro a b hab
    have ha : (a : Nat) < p.names.length := hp.names ▸ a.isLt
    have hb : (b : Nat) < p.names.length := hp.names ▸ b.isLt
    have hab' : p.names[(a : Nat)] = p.names[(b : Nat)] := by simpa [name, ha, hb] using hab
    exact Fin.ext ((hd.getElem_inj_iff).mp hab')
  have hcount : (p.window 0 t).count (p.name n i) = bs.count i := by
    rw [h.picks, List.count_map_of_injective _ _ hinj, List.count_reverse]
  have hshare := h.run.share i
  rw [h.length, ← hp.total_eq] at hshare
  rw [hcount]
  exact hshare

end Course

/-! ## A new picker -/

theorem normalizeWeight_bounds (w : Int) :
    1 ≤ normalizeWeight w ∧ normalizeWeight w ≤ maxWeight := by
  unfold normalizeWeight maxWeight
  split
  · decide
  · split <;> omega

theorem normalizeWeight_pos (w : Int) : 0 < normalizeWeight w := (normalizeWeight_bounds w).1

section New
variable (queues : QueueWeights)

theorem perm_names :
    ((newWRRPicker queues).names).Perm (queues.entries.map Prod.fst) :=
  List.perm_insertionSort _ _

theorem nodup_names : (newWRRPicker queues).names.Nodup :=
  (perm_names queues).nodup_iff.mpr queues.nodup

theorem sized_new : (newWRRPicker queues).Sized queues.entries.length := by
  have hlen : (newWRRPicker queues).names.length = queues.entries.length := by
    rw [(perm_names queues).length_eq, List.length_map]
  exact ⟨hlen, List.length_map _ |>.trans hlen, List.length_replicate.trans hlen, rfl⟩

theorem counter_new (n : Nat) : (newWRRPicker queues).counter n = 0 := by
  funext i
  simp only [counter, newWRRPicker, List.getD_eq_getElem?_getD, List.getElem?_replicate]
  split <;> rfl

theorem weight_mem (i : Fin queues.entries.length) :
    (newWRRPicker queues).weight queues.entries.length i ∈ (newWRRPicker queues).weights := by
  have hi : (i : Nat) < (newWRRPicker queues).weights.length := by
    rw [(sized_new queues).weights]
    exact i.isLt
  simp [weight, hi]

theorem exists_weight_new (i : Fin queues.entries.length) :
    ∃ w, (newWRRPicker queues).weight queues.entries.length i = normalizeWeight w := by
  obtain ⟨q, -, hq⟩ := List.mem_map.mp (weight_mem queues i)
  exact ⟨_, hq.symm⟩

theorem weight_new (i : Fin queues.entries.length) :
    0 < (newWRRPicker queues).weight queues.entries.length i := by
  obtain ⟨w, hw⟩ := exists_weight_new queues i
  rw [hw]
  exact normalizeWeight_pos w

theorem lookup_of_mem {l : List (String × Int)} (hd : (l.map Prod.fst).Nodup) (h : (q, w) ∈ l) :
    l.lookup q = some w := by
  induction l with
  | nil => cases h
  | cons e l ih =>
    obtain ⟨hne, hd⟩ := List.nodup_cons.mp hd
    rcases List.mem_cons.mp h with rfl | h
    · exact List.lookup_cons_self
    · have hq : (q == e.1) = false := by
        refine beq_false_of_ne ?_
        rintro rfl
        exact hne (List.mem_map.mpr ⟨_, h, rfl⟩)
      rw [List.lookup_cons, hq]
      exact ih hd h

theorem get_of_mem (h : (q, w) ∈ queues.entries) : queues.get q = w := by
  unfold QueueWeights.get
  rw [lookup_of_mem queues.nodup h]
  rfl

/-- Each queue of the map has its place in the picker. -/
theorem exists_index (h : (q, w) ∈ queues.entries) :
    ∃ i : Fin queues.entries.length, (newWRRPicker queues).name _ i = q ∧
      (newWRRPicker queues).weight _ i = normalizeWeight w := by
  have hmem : q ∈ (newWRRPicker queues).names :=
    (perm_names queues).mem_iff.mpr (List.mem_map_of_mem h)
  obtain ⟨i, hi, rfl⟩ := List.mem_iff_getElem.mp hmem
  have hget : queues.get (newWRRPicker queues).names[i] = w := get_of_mem queues h
  refine ⟨⟨i, (sized_new queues).names ▸ hi⟩, by simp [name, hi], ?_⟩
  have hweights : (newWRRPicker queues).weights =
      (newWRRPicker queues).names.map fun q => normalizeWeight (queues.get q) := rfl
  simp [weight, hweights, hi, hget]

theorem total_eq_sum :
    (newWRRPicker queues).total = (queues.entries.map fun e => normalizeWeight e.2).sum := by
  calc (newWRRPicker queues).total
      = ((newWRRPicker queues).names.map fun q => normalizeWeight (queues.get q)).sum := rfl
    _ = ((queues.entries.map Prod.fst).map fun q => normalizeWeight (queues.get q)).sum :=
        ((perm_names queues).map _).sum_eq
    _ = (queues.entries.map fun e => normalizeWeight e.2).sum := by
        rw [List.map_map]
        refine congrArg List.sum (List.map_congr_left fun e he => ?_)
        exact congrArg normalizeWeight (get_of_mem queues he)

theorem total_pos (hn : 0 < queues.entries.length) : 0 < (newWRRPicker queues).total := by
  rw [(sized_new queues).total_eq]
  exact Finset.sum_pos (fun i _ => weight_new queues i) ⟨⟨0, hn⟩, Finset.mem_univ _⟩

end New

/-- After a multiple of `total` picks a new picker is as it was. -/
theorem after_cycle (queues : QueueWeights) (m : Nat) :
    (newWRRPicker queues).after (m * (newWRRPicker queues).total.toNat) = newWRRPicker queues := by
  have hsized := sized_new queues
  rcases Nat.eq_zero_or_pos queues.entries.length with hn | hn
  · have hnil : (newWRRPicker queues).weights = [] :=
      List.length_eq_zero_iff.mp (hsized.weights.trans hn)
    have htotal : (newWRRPicker queues).total = 0 := by
      rw [hsized.total, hnil]
      rfl
    rw [htotal]
    rfl
  · obtain ⟨bs, hbs⟩ := exists_course hsized hn (counter_new queues _)
      (m * (newWRRPicker queues).total.toNat)
    have hpos := total_pos queues hn
    have hzero : (newWRRPicker queues).total ∣ (bs.length : ℤ) := by
      rw [hbs.length, Nat.cast_mul, Int.toNat_of_nonneg hpos.le]
      exact dvd_mul_left _ _
    rw [hsized.total_eq] at hzero
    have hcurrent : ((newWRRPicker queues).after (m * (newWRRPicker queues).total.toNat)).current =
        (newWRRPicker queues).current := by
      refine List.ext_getElem (hbs.sized.current.trans hsized.current.symm) fun i h₁ h₂ => ?_
      have hi : i < queues.entries.length := hbs.sized.current ▸ h₁
      have hc := hbs.run.eq_zero (weight_new queues) hzero ⟨i, hi⟩
      have hc₀ := congrFun (counter_new queues queues.entries.length) ⟨i, hi⟩
      simp only [counter, List.getD_eq_getElem?_getD, List.getElem?_eq_getElem h₁,
        List.getElem?_eq_getElem h₂, Option.getD_some] at hc hc₀
      exact hc.trans hc₀.symm
    exact WRRPicker.ext hbs.names hbs.weights hcurrent (hbs.total hsized)

/-- **Exact shares in every window.**  A normalized weight is between 1 and 2^20, and
`total` is the sum of them all.  Any `total` consecutive picks of a new picker have each
queue as often as its normalized weight says, and after every multiple of `total` picks
all counters are zero. -/
theorem window_exact (queues : QueueWeights) (s : Nat) :
    (∀ w, 1 ≤ normalizeWeight w ∧ normalizeWeight w ≤ 2 ^ 20) ∧
    (newWRRPicker queues).total = (queues.entries.map fun e => normalizeWeight e.2).sum ∧
    (∀ q w, (q, w) ∈ queues.entries →
      (((newWRRPicker queues).window s (newWRRPicker queues).total.toNat).count q : Int) =
        normalizeWeight w) ∧
    ∀ m, ((newWRRPicker queues).after (m * (newWRRPicker queues).total.toNat)).current =
      List.replicate queues.entries.length 0 := by
  have hsized := sized_new queues
  refine ⟨normalizeWeight_bounds, total_eq_sum queues, fun q w hq => ?_, fun m => ?_⟩
  · obtain ⟨i, rfl, hw⟩ := exists_index queues hq
    have hn : 0 < queues.entries.length := List.length_pos_of_mem hq
    have hpos := total_pos queues hn
    generalize hp : newWRRPicker queues = p at *
    have hshare : ∀ t : Nat, ((p.window 0 t).count (p.name _ i) : ℤ) * p.total +
        (p.after t).counter _ i = t * p.weight _ i := by
      intro t
      subst hp
      obtain ⟨bs, hbs⟩ := exists_course hsized hn (counter_new queues _) t
      exact hbs.share hsized (nodup_names queues) i
    have hback : p.after (s + p.total.toNat) = p.after s := by
      have hcycle := after_cycle queues 1
      rw [hp, Nat.one_mul] at hcycle
      rw [after_add, hcycle]
    have h₁ := hshare s
    have h₂ := hshare (s + p.total.toNat)
    rw [hback, window_add, List.count_append, Nat.cast_add, Nat.cast_add,
      Int.toNat_of_nonneg hpos.le, hw] at h₂
    rw [hw] at h₁
    refine mul_right_cancel₀ hpos.ne' ?_
    linarith
  · rw [after_cycle]
    exact congrArg (List.replicate · 0) hsized.names

/-! ## How far a queue can fall behind -/

/-- After `t` picks every counter is at most `total` in magnitude, and every queue was
picked within one pick of its share. -/
def WithinOne (p : WRRPicker) (n t : Nat) : Prop :=
  ∀ i : Fin n, |(p.after t).counter n i| ≤ p.total ∧
    |((p.window 0 t).count (p.name n i) : ℤ) * p.total - t * p.weight n i| ≤ p.total

/-- At most one queue is above `total` when the next pick is made. -/
def Uncrowded (p : WRRPicker) (n : Nat) : Prop :=
  ∀ i j : Fin n, p.total < p.counter n i + p.weight n i →
    p.total < p.counter n j + p.weight n j → i = j

/-- The weights are not too uneven: if `W j` is the sum of the `j` largest, the sum of
`W j / j` over `2 ≤ j ≤ n` is at most `total`. -/
def Balanced (p : WRRPicker) (n : Nat) : Prop := lag (p.weight n) 1 ≤ p.total

instance (p : WRRPicker) (n t : Nat) : Decidable (p.WithinOne n t) := by
  unfold WithinOne
  infer_instance

section Bound
variable {t : Nat}

/-- The bound is one on the counters from above. -/
theorem Course.withinOne_iff (h : Course p n t bs) (hp : p.Sized n) (hd : p.names.Nodup)
    (hw : ∀ i, 0 < p.weight n i) :
    p.WithinOne n t ↔ ∀ i, (p.after t).counter n i ≤ p.total := by
  refine ⟨fun hwithin i => (abs_le.mp (hwithin i).1).2, fun hle i => ?_⟩
  have hlow := h.run.lower hw i
  rw [← hp.total_eq] at hlow
  have hshare := h.share hp hd i
  have hup := hle i
  exact ⟨abs_le.mpr ⟨by linarith, by linarith⟩, abs_le.mpr ⟨by linarith, by linarith⟩⟩

/-- The counters stay within `total` in the next pick if and only if it does not find two
queues above. -/
theorem Course.le_total_succ (h : Course p n t bs) (hp : p.Sized n) (hn : 0 < n)
    (hw : ∀ i, 0 < p.weight n i) (hle : ∀ i, (p.after t).counter n i ≤ p.total) :
    (∀ i, (p.after (t + 1)).counter n i ≤ p.total) ↔ (p.after t).Uncrowded n := by
  obtain ⟨b, hround, -⟩ := h.step hn
  have hweight : (p.after t).weight n = p.weight n := by
    unfold weight
    rw [h.weights]
  unfold Uncrowded
  rw [h.total hp, hweight]
  rw [hp.total_eq] at hle ⊢
  exact hround.le_total_iff hw hle

end Bound

theorem after_mod (queues : QueueWeights) (t : Nat) : (newWRRPicker queues).after t =
    (newWRRPicker queues).after (t % (newWRRPicker queues).total.toNat) := by
  conv_lhs => rw [← Nat.mod_add_div' t (newWRRPicker queues).total.toNat]
  rw [after_add, after_cycle]

section Bounded
variable (queues : QueueWeights)

theorem withinOne_new_iff (t : Nat) : (newWRRPicker queues).WithinOne queues.entries.length t ↔
    ∀ i, ((newWRRPicker queues).after t).counter queues.entries.length i ≤
      (newWRRPicker queues).total := by
  rcases Nat.eq_zero_or_pos queues.entries.length with hn | hn
  · exact iff_of_true (fun i => absurd i.pos hn.not_gt) fun i => absurd i.pos hn.not_gt
  · obtain ⟨bs, hbs⟩ := exists_course (sized_new queues) hn (counter_new queues _) t
    exact hbs.withinOne_iff (sized_new queues) (nodup_names queues) (weight_new queues)

/-- The bound holds for ever if it holds in the first `total` picks. -/
theorem withinOne_of_cycle (h : ∀ t < (newWRRPicker queues).total.toNat,
      (newWRRPicker queues).WithinOne queues.entries.length t) (t : Nat) :
    (newWRRPicker queues).WithinOne queues.entries.length t := by
  intro i
  have hlt := Nat.mod_lt t (Int.lt_toNat.mpr (total_pos queues i.pos))
  have hmod := (withinOne_new_iff queues _).mp (h _ hlt)
  rw [← after_mod] at hmod
  exact (withinOne_new_iff queues t).mpr hmod i

theorem withinOne_of_balanced (h : (newWRRPicker queues).Balanced queues.entries.length) (t : Nat) :
    (newWRRPicker queues).WithinOne queues.entries.length t := by
  refine (withinOne_new_iff queues t).mpr fun i => ?_
  obtain ⟨bs, hbs⟩ := exists_course (sized_new queues) i.pos (counter_new queues _) t
  unfold Balanced at h
  rw [(sized_new queues).total_eq] at h ⊢
  exact hbs.run.le_total (weight_new queues) h i

/-- With at most three queues, or equal weights, the weights are not too uneven. -/
theorem balanced_of (h : queues.entries.length ≤ 3 ∨
      ∃ a, ∀ w ∈ (newWRRPicker queues).weights, w = a) :
    (newWRRPicker queues).Balanced queues.entries.length := by
  unfold Balanced
  rw [(sized_new queues).total_eq]
  rcases h with hn | ⟨a, ha⟩
  · exact lag_le_of_card (weight_new queues) (by simpa using hn)
  · have hw : ∀ i, (newWRRPicker queues).weight queues.entries.length i = a := fun i =>
      ha _ (weight_mem queues i)
    rcases Nat.eq_zero_or_pos queues.entries.length with hn | hn
    · exact lag_le_of_card (weight_new queues) (by simp [hn])
    · exact lag_le_of_eq (hw ⟨0, hn⟩ ▸ (weight_new queues ⟨0, hn⟩).le) hw

end Bounded

/-- Four queues. -/
def crowdedQueues : QueueWeights := ⟨[("a", 1), ("b", 5), ("c", 37), ("d", 37)], by decide⟩

/-- The same weights under other names.  Two queues with equal counters are served in the
order of their names, so no condition on the weights alone decides the bound. -/
def renamedQueues : QueueWeights := ⟨[("a", 37), ("b", 37), ("c", 5), ("d", 1)], by decide⟩

theorem renamed_withinOne (t : Nat) : (newWRRPicker renamedQueues).WithinOne 4 t := by
  refine withinOne_of_cycle renamedQueues (fun t ht => ?_) t
  have htotal : (newWRRPicker renamedQueues).total.toNat = 80 := by decide +kernel
  rw [htotal] at ht
  have hcycle : ∀ t < 80, (newWRRPicker renamedQueues).WithinOne 4 t := by decide +kernel
  exact hcycle t ht

end WRRPicker
end ChronosGo
