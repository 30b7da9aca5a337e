import ChronosGo.Workflow
import Mathlib.Algebra.Order.BigOperators.Group.List

/-! # The delays of member chains

The pending set of a group lives for `GroupTTL`, and a member that is a chain reports
only at its end, so `Group.Enqueue` adds up the delays of the chain's links and refuses
what exceeds the lifetime (`group.go`).  The first delay is taken as it is, the later
ones in whole seconds, as `captureRelativeDelay` stores them.

All of this is `int64` arithmetic.  A delay in the last half second before the largest
`int64` wraps when it is rounded and is stored as a negative number, which counts as no
delay at all; the sum of large delays wraps below the lifetime; and a negative first
delay, which is over at once, is set off against the later ones
(`unsound_groups_accepted`).  Groups without such delays, and only those, are checked
correctly (`member_delays_sound`).
-/
namespace ChronosGo

variable {d : Int} {opts : List TaskOption} {ds : List Int}

/-! ## The delays of a chain -/

/-- The delay of the `WithProcessIn` that takes effect; zero is as good as none. -/
def processIn (opts : List TaskOption) : Int :=
  opts.foldl (fun d o => match o with
    | .withProcessIn d' => d'
    | _ => d) 0

/-- The options have delays that are `int64`, and no instant. -/
def Relative (opts : List TaskOption) : Prop :=
  (∀ t, .withProcessAt t ∉ opts) ∧ ∀ d, .withProcessIn d ∈ opts → IsInt64 d

namespace ChainStage

def delay : ChainStage → Int
  | single _ opts => processIn opts
  | parallel _ => 0

def Timed : ChainStage → Prop
  | single _ opts => Relative opts
  | parallel _ => True

end ChainStage

/-- The delays of the links of a chain, in order. -/
def Chain.delays (ch : Chain) : List Int := ch.stages.map ChainStage.delay

/-- What is stored for a delay: `captureRelativeDelay` of what `time.Until` says. -/
def storedDelay (d : Int) : Int :=
  if d ≤ 0 then 0
  else
    let delay := (wrap64 (d + second / 2)).tdiv second
    if delay = 0 then 1 else delay

theorem captureRelativeDelay_eq (now : Int) (o : EnqueueOptions) :
    captureRelativeDelay now o = storedDelay ((o.processAt.map (timeUntil now)).getD 0) := by
  unfold captureRelativeDelay storedDelay
  cases o.processAt with
  | none => rfl
  | some t => rfl

theorem timeUntil_add (h : IsInt64 d) (now : Int) : timeUntil now (now + d) = d := by
  unfold IsInt64 at h
  unfold timeUntil
  omega

/-- With the options applied at one instant, what `time.Until` says is the delay. -/
theorem until_processAt {now : Int} (h : Relative opts) :
    (((opts.foldl (TaskOption.apply now) {}).processAt).map (timeUntil now)).getD 0 =
      processIn opts := by
  suffices ∀ (o : EnqueueOptions) (d : Int), (o.processAt.map (timeUntil now)).getD 0 = d →
      ((opts.foldl (TaskOption.apply now) o).processAt.map (timeUntil now)).getD 0 =
        opts.foldl (fun d o => match o with
          | .withProcessIn d' => d'
          | _ => d) d from this {} 0 rfl
  induction opts with
  | nil => exact fun o d hd => hd
  | cons opt opts ih =>
    intro o d hd
    have hrest : Relative opts := ⟨fun t ht => h.1 t (List.mem_cons_of_mem _ ht),
      fun d hd => h.2 d (List.mem_cons_of_mem _ hd)⟩
    rw [List.foldl_cons, List.foldl_cons]
    refine ih hrest _ _ ?_
    cases opt with
    | withProcessIn d' => exact timeUntil_add (h.2 d' List.mem_cons_self) now
    | withProcessAt t => exact absurd List.mem_cons_self (h.1 t)
    | withUnique ttl =>
      simp only [TaskOption.apply]
      split
      · exact hd
      · exact hd
    | _ => exact hd

theorem isInt64_zero : IsInt64 0 := ⟨by decide, by decide⟩

theorem Relative.isInt64 (h : Relative opts) : IsInt64 (processIn opts) := by
  refine List.foldlRecOn (motive := IsInt64) opts _ isInt64_zero fun d hd o ho => ?_
  cases o with
  | withProcessIn d' => exact h.2 d' ho
  | _ => exact hd

theorem ChainStage.Timed.isInt64 {st : ChainStage} (h : st.Timed) : IsInt64 st.delay := by
  cases st with
  | single args opts => exact Relative.isInt64 h
  | parallel g => exact isInt64_zero

/-! ## Rounding -/

/-- A delay this large wraps when half a second is added. -/
def maxDelay : Int := 2 ^ 63 - 1 - second / 2

theorem tdiv_second {x : Int} (h : 0 ≤ x) : x.tdiv second = x / second :=
  Int.tdiv_eq_ediv_of_nonneg h

theorem storedDelay_of_le (hpos : 0 < d) (hd : d ≤ maxDelay) :
    storedDelay d = max 1 ((d + second / 2) / second) := by
  have hwrap : wrap64 (d + second / 2) = d + second / 2 := by
    refine IsInt64.wrap64_eq ?_
    unfold maxDelay at hd
    unfold IsInt64 second at *
    omega
  have hnonneg : 0 ≤ d + second / 2 := by
    unfold second
    omega
  unfold storedDelay
  rw [if_neg (by omega), hwrap, tdiv_second hnonneg]
  unfold second
  dsimp only
  split <;> omega

/-- A delay that is rounded without wrapping loses at most half a second, and gains at most
one. -/
theorem storedDelay_bounds (hpos : 0 < d) (hd : d ≤ maxDelay) :
    1 ≤ storedDelay d ∧ d ≤ storedDelay d * second + second / 2 ∧
      storedDelay d * second ≤ d + second ∧ storedDelay d * second < 2 ^ 63 := by
  rw [storedDelay_of_le hpos hd]
  unfold maxDelay at hd
  unfold second at *
  omega

/-- A delay that wraps is stored as a negative one. -/
theorem storedDelay_of_gt (h : IsInt64 d) (hd : maxDelay < d) :
    storedDelay d < 0 ∧ -2 ^ 63 ≤ storedDelay d * second := by
  have hwrap : wrap64 (d + second / 2) = d + second / 2 - 2 ^ 64 := by
    unfold maxDelay at hd
    unfold IsInt64 second at *
    unfold wrap64
    rw [Int.bmod_def]
    omega
  have hdiv := Int.mul_tdiv_add_tmod (d + second / 2 - 2 ^ 64) second
  have hmod : (d + second / 2 - 2 ^ 64).tmod second ≤ 0 := by
    have hneg : 0 ≤ (-(d + second / 2 - 2 ^ 64)).tmod second := by
      refine Int.tmod_nonneg _ ?_
      unfold IsInt64 second at *
      omega
    rw [Int.neg_tmod] at hneg
    omega
  have hmod' : -second < (d + second / 2 - 2 ^ 64).tmod second := Int.lt_tmod_of_pos _ (by decide)
  unfold storedDelay
  rw [if_neg (by unfold maxDelay second at hd; omega), hwrap]
  unfold maxDelay at hd
  unfold IsInt64 at h
  dsimp only
  split
  · unfold second at *
    omega
  · unfold second at *
    omega

/-- No stored delay wraps when it is made a duration again. -/
theorem delayDuration_storedDelay (h : IsInt64 d) :
    delayDuration (storedDelay d) = storedDelay d * second := by
  refine IsInt64.wrap64_eq ?_
  rcases le_or_gt d 0 with hneg | hpos
  · rw [storedDelay, if_pos hneg, zero_mul]
    exact isInt64_zero
  · rcases le_or_gt d maxDelay with hle | hgt
    · obtain ⟨hone, -, -, hlt⟩ := storedDelay_bounds hpos hle
      unfold IsInt64 second at *
      omega
    · obtain ⟨hneg, hlow⟩ := storedDelay_of_gt h hgt
      unfold IsInt64 second at *
      omega

/-- A positive delay is stored as one if and only if it does not wrap. -/
theorem one_le_storedDelay_iff (h : IsInt64 d) (hpos : 0 < d) :
    1 ≤ storedDelay d ↔ d ≤ maxDelay := by
  constructor
  · intro hone
    by_contra hgt
    have hneg := (storedDelay_of_gt h (not_le.mp hgt)).1
    omega
  · exact fun hle => (storedDelay_bounds hpos hle).1

/-! ## Adding up -/

/-- The sum of the positive delays. -/
def positiveSum (ds : List Int) : Int := (ds.map fun d => max d 0).sum

/-- The sum of the delays as they are stored, in whole seconds. -/
def storedSum (ds : List Int) : Int := (ds.map fun d => storedDelay d * second).sum

/-- No later delay wraps when it is rounded, the sum of all does not wrap, and the first
delay does not take anything off the others, or they fit without it. -/
structure Fits (d : Int) (ds : List Int) : Prop where
  rounded : ∀ e ∈ ds, e ≤ maxDelay
  added : d + storedSum ds < 2 ^ 63
  apart : 0 ≤ d ∨ positiveSum ds ≤ Slot.groupTTL + ds.length * (second / 2)

/-- In whole seconds a delay has lost at most half a second, or gained at most one. -/
theorem storedDelay_near (hd : d ≤ maxDelay) : 0 ≤ storedDelay d * second ∧
    storedDelay d * second < 2 ^ 63 ∧ max d 0 ≤ storedDelay d * second + second / 2 ∧
      storedDelay d * second ≤ max d 0 + second := by
  rcases le_or_gt d 0 with hneg | hpos
  · rw [storedDelay, if_pos hneg, max_eq_right hneg]
    decide
  · obtain ⟨hone, hlow, hup, hlt⟩ := storedDelay_bounds hpos hd
    unfold second at *
    omega

theorem sums_near (hds : ∀ e ∈ ds, e ≤ maxDelay) : 0 ≤ storedSum ds ∧
    positiveSum ds ≤ storedSum ds + ds.length * (second / 2) ∧
      storedSum ds ≤ positiveSum ds + ds.length * second := by
  induction ds with
  | nil => decide
  | cons d ds ih =>
    obtain ⟨hnonneg, hlow, hup⟩ := ih fun e he => hds e (List.mem_cons_of_mem _ he)
    obtain ⟨hpos, -, hlow', hup'⟩ := storedDelay_near (hds d List.mem_cons_self)
    have hpositive : positiveSum (d :: ds) = max d 0 + positiveSum ds := rfl
    have hstored : storedSum (d :: ds) = storedDelay d * second + storedSum ds := rfl
    rw [hpositive, hstored, List.length_cons, Nat.cast_add, Nat.cast_one, add_mul, add_mul, one_mul,
      one_mul]
    omega

theorem le_positiveSum {e : Int} (he : e ∈ ds) : e ≤ positiveSum ds := by
  have hmem : max e 0 ∈ ds.map fun d => max d 0 := List.mem_map_of_mem he
  refine le_trans (le_max_left e 0) (List.single_le_sum (fun x hx => ?_) _ hmem)
  obtain ⟨d, -, rfl⟩ := List.mem_map.mp hx
  exact le_max_right d 0

/-- One iteration of the loop in `Group.Enqueue`. -/
def addDelay (sum delay : Int) : Int :=
  if 0 < delay then wrap64 (sum + wrap64 (delay * second)) else sum

theorem chainMemberDelay_eq (now : Int) (msg : TaskMessage) (o : EnqueueOptions) :
    chainMemberDelay now msg o = (msg.chain.map ChainLink.delay).foldl addDelay
      ((o.processAt.map (timeUntil now)).getD 0) := by
  rw [List.foldl_map]
  rfl

/-- The loop adds up the stored delays if their sum does not wrap. -/
theorem foldl_addDelay {sum : Int} (hds : ∀ e ∈ ds, e ≤ maxDelay) (hlow : -2 ^ 63 ≤ sum)
    (hlt : sum + storedSum ds < 2 ^ 63) :
    (ds.map storedDelay).foldl addDelay sum = sum + storedSum ds := by
  induction ds generalizing sum with
  | nil => exact (Int.add_zero sum).symm
  | cons d ds ih =>
    have hds' : ∀ e ∈ ds, e ≤ maxDelay := fun e he => hds e (List.mem_cons_of_mem _ he)
    obtain ⟨hnonneg, -, -⟩ := sums_near hds'
    obtain ⟨hpos, hmax, -, -⟩ := storedDelay_near (hds d List.mem_cons_self)
    have hcons : storedSum (d :: ds) = storedDelay d * second + storedSum ds := rfl
    rw [hcons] at hlt
    have hstep : addDelay sum (storedDelay d) = sum + storedDelay d * second := by
      unfold addDelay
      split
      · rw [IsInt64.wrap64_eq (x := storedDelay d * second) ⟨by omega, hmax⟩]
        exact IsInt64.wrap64_eq ⟨by omega, by omega⟩
      · rename_i hzero
        have hnone : storedDelay d * second = 0 := by
          unfold second at *
          omega
        rw [hnone, Int.add_zero]
    rw [List.map_cons, List.foldl_cons, hstep, ih hds' (by omega) (by omega), hcons, Int.add_assoc]

/-- **What the check is worth.**  If the delays fit, a sum that is let through bounds them. -/
theorem Fits.bound (h : Fits d ds) (hint : IsInt64 d)
    (hsum : (ds.map storedDelay).foldl addDelay d ≤ Slot.groupTTL) :
    max d 0 + positiveSum ds ≤ Slot.groupTTL + ds.length * (second / 2) := by
  rcases le_or_gt 0 d with hfirst | hneg
  · rw [foldl_addDelay h.rounded hint.1 h.added] at hsum
    have hnear := (sums_near h.rounded).2.1
    omega
  · rw [max_eq_right hneg.le, Int.zero_add]
    exact h.apart.resolve_left (not_le.mpr hneg)

/-- Delays within the lifetime fit, if there are fewer than `2 ^ 32` of them. -/
theorem fits_of_bound (hlen : ds.length < 2 ^ 32)
    (hbound : max d 0 + positiveSum ds ≤ Slot.groupTTL + ds.length * (second / 2)) :
    Fits d ds := by
  have hrounded : ∀ e ∈ ds, e ≤ maxDelay := by
    intro e he
    have hle := le_positiveSum he
    unfold maxDelay Slot.groupTTL second at *
    omega
  have hnear := (sums_near hrounded).2.2
  refine ⟨hrounded, ?_, ?_⟩
  · unfold Slot.groupTTL second at *
    omega
  · omega

/-! ## Accepted groups -/

section Accepted
variable {now : Int}

theorem resolveChainOptions_eq {o : EnqueueOptions} (h : resolveChainOptions now opts = .ok o) :
    o = opts.foldl (TaskOption.apply now) {} := by
  obtain ⟨_, -, h⟩ := bind_ok h
  obtain ⟨_, -, h⟩ := bind_ok h
  cases h
  rfl

theorem snapshotChainLink_delay {args : TaskArgs} {isLast : Bool} {link : ChainLink}
    (h : snapshotChainLink now args opts isLast = .ok link) (hr : Relative opts) :
    link.delay = storedDelay (processIn opts) := by
  obtain ⟨o, ho, h⟩ := bind_ok h
  obtain ⟨_, -, h⟩ := bind_ok h
  obtain ⟨_, -, h⟩ := bind_ok h
  obtain ⟨payload, -, h⟩ := bind_ok h
  cases h
  dsimp only
  rw [captureRelativeDelay_eq, resolveChainOptions_eq ho, until_processAt hr]

/-- The stored delays of the links after the first. -/
theorem snapshotTail_delays {ch : Chain} {st : ChainStage} {stages : List ChainStage}
    {tail : List ChainLink} (h : ch.snapshotTail now = .ok tail) (hst : ch.stages = st :: stages)
    (hany : ¬ stages.any ChainStage.isGroup) (ht : ∀ st ∈ stages, st.Timed) :
    tail.map ChainLink.delay = (stages.map ChainStage.delay).map storedDelay := by
  obtain ⟨hlen, hall⟩ := snapshotEach_ok h
  rw [hst] at hlen hall
  refine List.ext_getElem (by simpa using hlen) fun i h₁ h₂ => ?_
  have hi : i < tail.length := by simpa using h₁
  obtain ⟨st', hst', hf⟩ := hall i tail[i] (List.getElem?_eq_getElem hi)
  have hi' : i < stages.length := by simpa using h₂
  have hmem : stages[i] = st' := by
    rw [List.drop_one, List.tail_cons, List.getElem?_eq_getElem hi'] at hst'
    exact Option.some.inj hst'
  simp only [List.getElem_map, hmem]
  cases st' with
  | single args opts =>
    exact snapshotChainLink_delay (about_ok hf)
      (ht (.single args opts) (hmem ▸ List.getElem_mem hi'))
  | parallel g => exact absurd (List.any_eq_true.mpr ⟨_, hmem ▸ List.getElem_mem hi', rfl⟩) hany

/-- **What an accepted group sends for a member chain**: its first task, with the delays of
the later ones as they are stored, and a sum that the check has let through. -/
theorem Group.enqueue_chain {g : String} {grp : Group} {ops : List Op}
    (h : grp.enqueue now g = .ok ops) {i : Nat} {ch : Chain}
    (hi : grp.members[i]? = some (.chain (some ch))) (ht : ∀ st ∈ ch.stages, st.Timed) :
    ∃ m, (ops[i + 1]? = some (.enqueue m) ∨ ∃ t, ops[i + 1]? = some (.schedule m t)) ∧
      ∃ d ds, ch.delays = d :: ds ∧ m.chain.map ChainLink.delay = ds.map storedDelay ∧
        (m.chain.map ChainLink.delay).foldl addDelay d ≤ Slot.groupTTL := by
  obtain ⟨cb, pending, -, -, rfl, hlen, hall⟩ := Group.enqueue_parts h
  have hlt : i < pending.length := by
    obtain ⟨hlt, -⟩ := List.getElem?_eq_some_iff.mp hi
    omega
  obtain ⟨gm, hgm, hf⟩ := hall i pending[i] (List.getElem?_eq_getElem hlt)
  obtain rfl := Option.some.inj (hi.symm.trans hgm)
  obtain ⟨⟨m, o⟩, hs, hf⟩ := bind_ok (about_ok hf)
  obtain ⟨_, hle, hf⟩ := bind_ok hf
  obtain ⟨_, args, opts, stages, payload, ⟨⟩, hst, hany, htail, ho, -, -⟩ :=
    Chain.snapshotForMember_parts hs
  have hdelay := snapshotTail_delays htail hst hany fun st h =>
    ht st (hst ▸ List.mem_cons_of_mem _ h)
  have hfirst : ((o.processAt.map (timeUntil now)).getD 0) = processIn opts := by
    rw [resolveChainOptions_eq ho]
    exact until_processAt (ht (.single args opts) (hst ▸ List.mem_cons_self))
  have hsum := not_lt.mp (refuseIf_ok hle)
  rw [chainMemberDelay_eq, hfirst] at hsum
  have hpend := (Except.ok.inj hf).symm
  have hchain : pending[i].1.chain = m.chain := by rw [hpend]
  have hopts : ¬ 0 < pending[i].2.uniqueTTL := by
    rw [hpend]
    exact resolveChainOptions_ok ho
  refine ⟨pending[i].1, ?_, processIn opts, stages.map ChainStage.delay, ?_, hchain ▸ hdelay,
    hchain ▸ hsum⟩
  · rw [List.getElem?_cons_succ, List.getElem?_map, List.getElem?_eq_getElem hlt]
    rcases dispatchMessage_eq now pending[i].1 hopts with h | ⟨t, h⟩
    · exact Or.inl (congrArg some h)
    · exact Or.inr ⟨t, congrArg some h⟩
  · rw [Chain.delays, hst]
    rfl

end Accepted

/-- **The check of member chains.**  Let a group be accepted, and let a member of it be a
chain whose links have delays `d :: ds` in `int64`.  What is stored for the links after the
first never wraps when it is made a duration again.  A positive delay among them is stored
as a positive one if and only if it is not in the last half second before the largest
`int64`.  The positive delays exceed the lifetime of the group by at most half a second for
each link after the first if they fit, and, below `2 ^ 32` links, only if they do. -/
theorem member_delays_sound {now : Int} {g : String} {grp : Group} {ops : List Op}
    (h : grp.enqueue now g = .ok ops) {i : Nat} {ch : Chain}
    (hi : grp.members[i]? = some (.chain (some ch))) (ht : ∀ st ∈ ch.stages, st.Timed)
    {d : Int} {ds : List Int} (hd : ch.delays = d :: ds) :
    ∃ m, (ops[i + 1]? = some (.enqueue m) ∨ ∃ t, ops[i + 1]? = some (.schedule m t)) ∧
      m.chain.length = ds.length ∧
      (∀ link ∈ m.chain, delayDuration link.delay = link.delay * second) ∧
      ((∀ (j : Nat) e link, ds[j]? = some e → m.chain[j]? = some link → 0 < e → 1 ≤ link.delay) ↔
        ∀ e ∈ ds, e ≤ maxDelay) ∧
      (Fits d ds → positiveSum ch.delays ≤ Slot.groupTTL + ds.length * (second / 2)) ∧
      (ds.length < 2 ^ 32 → positiveSum ch.delays ≤ Slot.groupTTL + ds.length * (second / 2) →
        Fits d ds) := by
  obtain ⟨m, hm, d', ds', hd', hdelay, hsum⟩ := Group.enqueue_chain h hi ht
  obtain ⟨rfl, rfl⟩ := List.cons.inj (hd.symm.trans hd')
  have hlen : m.chain.length = ds.length := by simpa using congrArg List.length hdelay
  have hint : ∀ e ∈ d :: ds, IsInt64 e := by
    intro e he
    obtain ⟨st, hst, rfl⟩ := List.mem_map.mp (hd ▸ he : e ∈ ch.delays)
    exact (ht st hst).isInt64
  have hpos : positiveSum ch.delays = max d 0 + positiveSum ds := by
    rw [hd]
    rfl
  have hlink : ∀ {j : Nat} {e : Int} {link : ChainLink}, ds[j]? = some e →
      m.chain[j]? = some link → link.delay = storedDelay e := by
    intro j e link he hl
    have hj := congrArg (·[j]?) hdelay
    simpa [he, hl] using hj
  refine ⟨m, hm, hlen, fun link hl => ?_,
    ⟨fun hstored e he => ?_, fun hle j e link he hl hpos => ?_⟩,
    fun hfits => ?_, fun hlinks hbound => fits_of_bound hlinks (hpos ▸ hbound)⟩
  · obtain ⟨e, he, heq⟩ := List.mem_map.mp (hdelay ▸ List.mem_map_of_mem hl)
    rw [← heq]
    exact delayDuration_storedDelay (hint e (List.mem_cons_of_mem d he))
  · rcases le_or_gt e 0 with hneg | hpos
    · exact hneg.trans (by decide)
    · obtain ⟨j, hj⟩ := List.mem_iff_getElem?.mp he
      have hjlt : j < m.chain.length := hlen ▸ (List.getElem?_eq_some_iff.mp hj).1
      have hl := List.getElem?_eq_getElem hjlt
      refine (one_le_storedDelay_iff (hint e (List.mem_cons_of_mem d he)) hpos).mp ?_
      rw [← hlink hj hl]
      exact hstored j e _ hj hl hpos
  · rw [hlink he hl]
    have hmem := List.mem_of_getElem? he
    exact (one_le_storedDelay_iff (hint e (List.mem_cons_of_mem d hmem)) hpos).mpr (hle e hmem)
  · rw [hpos]
    exact hfits.bound (hint d List.mem_cons_self) (hdelay ▸ hsum)

/-! ## Groups that outlive their record -/

/-- A group of one chain, whose links have these delays. -/
def delayedGroup (ds : List Int) : Group :=
  let args : TaskArgs := ⟨"task", .ok []⟩
  .mk [.chain (some (.mk (ds.map fun d => .single args [.withProcessIn d])))] (some (args, []))

/-- The delays a request stores with the successors of its task. -/
def Op.storedDelays : Op → List Int
  | enqueue msg | schedule msg _ => msg.chain.map ChainLink.delay
  | _ => []

/-- The delays that are stored for a group, if it is accepted. -/
def acceptedDelays (grp : Group) : Option (List (List Int)) :=
  (grp.enqueue 0 "g").toOption.map fun ops => ops.map Op.storedDelays

/-- A day, and then a delay that is rounded up. -/
theorem short_delays_sound :
    acceptedDelays (delayedGroup [86400 * second, 400000000]) = some [[], [1]] ∧
      positiveSum [86400 * second, 400000000] ≤ Slot.groupTTL + 1 * (second / 2) := by
  have haccepted : acceptedDelays (delayedGroup [86400 * second, 400000000]) = some [[], [1]] := by
    decide
  refine ⟨haccepted, ?_⟩
  cases h : (delayedGroup [86400 * second, 400000000]).enqueue 0 "g" with
  | error e =>
    rw [acceptedDelays, h] at haccepted
    cases haccepted
  | ok ops =>
    have htimed : ∀ st ∈ ([86400 * second, 400000000].map fun d =>
        ChainStage.single ⟨"task", .ok []⟩ [.withProcessIn d]), st.Timed := by
      intro st hst
      obtain ⟨d, hd, rfl⟩ := List.mem_map.mp hst
      refine ⟨fun t ht => by simp at ht, fun e he => ?_⟩
      obtain rfl : e = d := by simpa using he
      unfold IsInt64
      rcases List.mem_cons.mp hd with rfl | hd
      · decide
      · obtain rfl := List.mem_singleton.mp hd
        decide
    obtain ⟨m, -, -, -, -, hsum, -⟩ := member_delays_sound h (i := 0) rfl htimed rfl
    exact hsum ⟨by decide, by decide, by decide⟩

/-- Groups that are accepted and outlive their pending set: a delay that is stored as a
negative one, delays whose sum wraps, and a delay that is set off against a first delay in
the past. -/
theorem unsound_groups_accepted :
    (acceptedDelays (delayedGroup [0, 2 ^ 63 - 1]) = some [[], [-9223372036]] ∧
      Slot.groupTTL + second / 2 < positiveSum [0, 2 ^ 63 - 1]) ∧
    (acceptedDelays (delayedGroup [0, 5 * 10 ^ 18, 5 * 10 ^ 18]) =
        some [[], [5000000000, 5000000000]] ∧
      Slot.groupTTL + 2 * (second / 2) < positiveSum [0, 5 * 10 ^ 18, 5 * 10 ^ 18]) ∧
    (acceptedDelays (delayedGroup [-Slot.groupTTL, 2 * Slot.groupTTL]) = some [[], [1209600]] ∧
      Slot.groupTTL + second / 2 < positiveSum [-Slot.groupTTL, 2 * Slot.groupTTL]) := by
  decide

end ChronosGo
