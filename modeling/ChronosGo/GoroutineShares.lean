import ChronosGo.GoroutineConduct
import Mathlib.Data.Multiset.AddSub

/-! # What the goroutines of a server share

The wait group counts the goroutines that have not called `Done` and those that are about
to be started, the channel `sem` the slots of the fetch loop and of the workers, and what
`DequeueBatch` has claimed is with a worker, back in the stream or in the hands of the
fetch loop.  Each of these is a sum over all goroutines, of what their standing says, in
every interleaving (`wg_act`, `sem_act`, `tasks_act`, `start_act`).
-/
namespace ChronosGo.Lifecycle
open Interleaving
open FetchLoop (Dequeued Hold)

variable {s : Server} {t t' : Trace Instr Instr.Reply Job World} {b b' : FetchLoop.World}
  {h : Hold} {c : FetchLoop.Instr} {r : c.Reply}

/-! ## Shares -/

/-- The share of a goroutine in the wait group: itself, and the one it is about to
start. -/
def entries (j : Job) (v : Standing) : Nat := (j.counted && !v.done).toNat + v.adding.toNat

/-- The slots that a goroutine has. -/
def slots : Job → Hold → Nat
  | .fetch (.fetchLoop _), v => v.held.toNat
  | .fetch (.worker _), v => (!v.released).toNat
  | .fetch (.routine _), _ | .start .., _ | .shutdown _, _ | .waiter _, _ | .loop .., _ => 0

/-- The claimed tasks that a goroutine has in its hands. -/
def tasks : Job → Hold → Multiset Dequeued
  | .fetch (.fetchLoop _), v => v.pending
  | .fetch (.worker _), _ | .fetch (.routine _), _ | .start .., _ | .shutdown _, _ | .waiter _, _
  | .loop .., _ => 0

/-- `Start`, as long as it has not returned. -/
def starting : Job → Standing → Nat
  | .start .., v => (!v.returned).toNat
  | .fetch _, _ | .shutdown _, _ | .waiter _, _ | .loop .., _ => 0

/-! ## What an instruction changes -/

/-- The instructions that touch none of the counters. -/
def Instr.Plain : Instr → Prop
  | .fetch _ | .wgAdd | .wgDone | .started _ => False
  | _ => True

/-- The two worlds have the same counters. -/
structure World.Same (w w' : World) : Prop where
  wg : w'.wg = w.wg
  returned : w'.returned = w.returned
  sem : w'.base.sem = w.base.sem
  claimed : w'.base.claimed = w.base.claimed
  started : w'.base.started = w.base.started
  requeued : w'.requeued = w.requeued

theorem World.Exec.same {w w' : World} {c : Instr} {r : c.Reply} (h : w.Exec s c r w')
    (hc : c.Plain) : w.Same w' := by
  cases c with
  | fetch | wgAdd | wgDone | started => exact hc.elim
  | cancel =>
    obtain rfl := h
    unfold World.cancelBy
    split <;> exact ⟨rfl, rfl, rfl, rfl, rfl, rfl⟩
  | wgWait | awaitDone | tick | ctxErr | inflight =>
    obtain ⟨-, rfl⟩ := h
    exact ⟨rfl, rfl, rfl, rfl, rfl, rfl⟩
  | _ =>
    obtain rfl := h
    exact ⟨rfl, rfl, rfl, rfl, rfl, rfl⟩

/-- The two standings are the same but for the steps of a shutdown. -/
structure Standing.Same (v v' : Standing) : Prop where
  adding : v'.adding = v.adding
  done : v'.done = v.done
  returned : v'.returned = v.returned
  hold : v'.hold = v.hold

theorem Standing.same_see (v : Standing) {c : Instr} (r : c.Reply) (hc : c.Plain) :
    v.Same (v.see (.call c r)) := by
  cases c with
  | fetch | wgAdd | wgDone | started => exact hc.elim
  | _ => exact ⟨rfl, rfl, rfl, rfl⟩

/-! ## The sums -/

/-- What the world has taken in is with the world or with the goroutines, by their
standing. -/
abbrev Shared {X : Type} [AddCommMonoid X] (taken given : World → X) (share : Job → Standing → X) :
    Trace Instr Instr.Reply Job World → Prop :=
  InBalance taken given fun p => share p.job (standing p.hist)

section Sums
variable {X : Type} [AddCommMonoid X] [IsCancelAdd X] {taken given : World → X}
  {share : Job → Standing → X}

/-- The rule of `InBalance.act` for the goroutines of a server. -/
theorem shared_act (h : Shared taken given share t) (ha : (machine s).Act conduct t t')
    (hnote : ∀ (w : World) (i : Nat) (c : Instr) (r : c.Reply),
      taken (w.note i c r) = taken w ∧ given (w.note i c r) = given w)
    (hcall : ∀ (j : Job) (v : Standing) (c : Instr) (r : c.Reply) (w w' : World) (x : X),
      v.Clear → Works v j c → w.Exec s c r w' → taken w = given w + (share j v + x) →
        taken w' + given w + share j v = taken w + given w' + share j (v.see (.call c r)))
    (hfork : ∀ (j : Job) (v : Standing) (j' : Job) (w : World), v.done = false → Launches v j j' →
      taken (w.give j') + given w + share j v =
        taken w + given (w.give j') + (share j (v.see (.fork j')) + share j' {}))
    (hspawn : ∀ call, share (.shutdown call) {} = 0)
    (henv : ∀ w : World, taken w.cancelRun = taken w ∧ given w.cancelRun = given w) :
    Shared taken given share t' := by
  refine h.act ha ?_ ?_ ?_ ?_
  · rintro i p c r _ hp ⟨hclear, hworks⟩ ⟨w₁, he, rfl⟩
    obtain ⟨x, hx⟩ := total_eq_add (fun p => share p.job (standing p.hist))
      (List.mem_of_getElem? hp)
    rw [(hnote w₁ i c r).1, (hnote w₁ i c r).2, standing_snoc]
    exact hcall p.job (standing p.hist) c r t.world w₁ x hclear hworks he (h.trans (by rw [hx]))
  · rintro i n p j' _ ⟨hdone, hlaunch⟩
    rw [standing_snoc]
    exact hfork p.job (standing p.hist) j' t.world hdone hlaunch
  · rintro _ ⟨call, rfl⟩
    exact hspawn call
  · rintro _ rfl
    exact henv t.world

end Sums

/-! ### The wait group -/

section Kept
variable {j j' : Job} {v : Standing} {c : Instr} {r : c.Reply} {w w' : World}

/-- The wait group is what the goroutines have entered in it. -/
abbrev WgShared : Trace Instr Instr.Reply Job World → Prop :=
  Shared (fun w => w.wg) (fun _ => 0) entries

theorem counted_of_wgDone (h : Works v j .wgDone) : j.counted = true := by
  cases h <;> rfl

theorem entries_of_clear (h : v.Clear) : entries j v = j.counted.toNat := by
  simp [entries, h.1, h.2]

theorem entries_call (hclear : v.Clear) (hworks : Works v j c) (he : w.Exec s c r w') :
    w'.wg + entries j v = w.wg + entries j (v.see (.call c r)) := by
  rw [entries_of_clear hclear]
  by_cases hplain : c.Plain
  · have hv := v.same_see r hplain
    rw [(he.same hplain).wg, entries_of_clear ⟨hv.adding.trans hclear.1, hv.done.trans hclear.2⟩]
  · cases c with
    | fetch c =>
      obtain ⟨b, -, rfl⟩ := he
      exact congrArg (w.wg + ·) (entries_of_clear ⟨hclear.1, hclear.2⟩).symm
    | wgAdd =>
      obtain rfl := he
      simp only [entries, Standing.see, hclear.2, Bool.not_false, Bool.and_true, Bool.toNat_true]
      omega
    | wgDone =>
      obtain ⟨hpos, rfl⟩ := he
      simp only [entries, Standing.see, hclear.1, counted_of_wgDone hworks, Bool.not_true,
        Bool.and_false, Bool.toNat_true, Bool.toNat_false]
      omega
    | started =>
      obtain rfl := he
      exact congrArg (w.wg + ·) (entries_of_clear ⟨hclear.1, hclear.2⟩).symm
    | _ => exact absurd trivial hplain

/-- A `go` statement gives an entry to the goroutine it starts. -/
theorem entries_fork (h : Launches v j j') :
    entries j v = entries j (v.see (.fork j')) + entries j' {} := by
  have hsee : ∀ {v' : Standing}, v'.adding = false → v'.done = v.done → v.adding = j'.counted →
      entries j v = entries j v' + entries j' {} := by
    intro v' hadding hdone hcounted
    simp [entries, hadding, hdone, hcounted]
  cases h with
  | fetchLoop h | loop h | waiter h | worker h | work h | routine h => exact hsee rfl rfl h

theorem wg_give (w : World) (j : Job) : (w.give j).wg = w.wg := by
  cases j <;> rfl

theorem wg_act (h : WgShared t) (ha : (machine s).Act conduct t t') : WgShared t' := by
  refine shared_act h ha (fun _ _ _ _ => ⟨rfl, rfl⟩) ?_ ?_ (fun _ => rfl) fun _ => ⟨rfl, rfl⟩
  · intro j v c r w w' _ hclear hworks he _
    exact entries_call hclear hworks he
  · intro j v j' w _ hlaunch
    rw [wg_give, entries_fork hlaunch]

/-! ### The slots -/

/-- The channel `sem` has the slots of the goroutines. -/
abbrev SemShared : Trace Instr Instr.Reply Job World → Prop :=
  Shared (fun w => w.base.sem) (fun _ => 0) fun j v => slots j v.hold

theorem sem_of_send {cap : Nat} {other : Prop} {sent : Bool} (h : b.Send cap other sent b') :
    b'.sem = b.sem + sent.toNat := by
  obtain ⟨rfl, -, rfl⟩ | ⟨rfl, -, rfl⟩ := h
  · rfl
  · rfl

/-- The loop takes a slot when it has none, and gives back the one it has. -/
theorem held_call {c : FetchLoop.Instr} {r : c.Reply} (hallows : h.Allows c)
    (he : b.Exec s c r b') :
    b'.sem + h.held.toNat = b.sem + (h.see (.call c r)).held.toNat := by
  cases c with
  | acquire =>
    rw [sem_of_send he, hallows.1]
    rfl
  | slotFor | waitSlotFor =>
    obtain ⟨rest, hrest⟩ := hallows
    rw [sem_of_send he, hrest.1]
    rfl
  | release =>
    obtain ⟨hpos, rfl⟩ := he
    rw [hallows.1]
    change b.sem - 1 + 1 = b.sem + 0
    omega
  | ctxDone | ctxErr | semLen | pauseWait | dequeueBatch =>
    obtain ⟨-, rfl⟩ := he
    rfl
  | now | pausedQueues | sleep | requeue =>
    obtain rfl := he
    rfl
  | trackInflight | untrackInflight | routine => exact hallows.elim

/-- A worker gives back its slot at the end. -/
theorem released_call {c : FetchLoop.Instr} {r : c.Reply} (hreleased : h.released = false)
    (hc : c.OfWorker) (he : b.Exec s c r b') :
    b'.sem + 1 = b.sem + (!(h.see (.call c r)).released).toNat := by
  cases c with
  | release =>
    obtain ⟨hpos, rfl⟩ := he
    change b.sem - 1 + 1 = b.sem + 0
    omega
  | trackInflight | untrackInflight | routine =>
    obtain rfl := he
    change _ + 1 = _ + (!h.released).toNat
    rw [hreleased]
    rfl
  | _ => exact hc.elim

/-- Only the fetch loop and the workers touch the channel. -/
theorem slots_fetch {c : FetchLoop.Instr} {r : c.Reply} (hworks : Works v j (.fetch c))
    (he : w.base.Exec s c r b') :
    b'.sem + slots j v.hold = w.base.sem + slots j (v.hold.see (.call c r)) := by
  cases hworks with
  | fetch hallows => exact held_call hallows he
  | work hreleased hc =>
    simp only [slots, hreleased]
    exact released_call hreleased hc he
  | routine =>
    obtain rfl := he
    rfl
  | loop hc => exact hc.elim

/-- Who returns a slot has one. -/
theorem slots_of_release (hworks : Works v j (.fetch .release)) : slots j v.hold = 1 := by
  cases hworks with
  | fetch hallows => simp [slots, hallows.1]
  | work hreleased => simp [slots, hreleased]
  | loop hc => exact hc.elim

theorem slots_call (hworks : Works v j c) (he : w.Exec s c r w') :
    w'.base.sem + slots j v.hold = w.base.sem + slots j (v.see (.call c r)).hold := by
  by_cases hplain : c.Plain
  · rw [(he.same hplain).sem, (v.same_see r hplain).hold]
  · cases c with
    | fetch c =>
      obtain ⟨b, he, rfl⟩ := he
      exact slots_fetch hworks he
    | wgDone =>
      obtain ⟨-, rfl⟩ := he
      rfl
    | wgAdd | started =>
      obtain rfl := he
      rfl
    | _ => exact absurd trivial hplain

/-- The loop gives its slot to the worker it starts. -/
theorem slots_fork (h : Launches v j j') :
    slots j v.hold = slots j (v.see (.fork j')).hold + slots j' {} := by
  cases h with
  | worker _ hs =>
    obtain ⟨dt, rest, rfl, hcarries⟩ := hs
    change v.hold.held.toNat = 0 + 1
    rw [hcarries.1]
    rfl
  | _ => rfl

theorem sem_give (w : World) (j : Job) : (w.give j).base.sem = w.base.sem := by
  cases j with
  | fetch j => cases j <;> rfl
  | _ => rfl

theorem sem_act (h : SemShared t) (ha : (machine s).Act conduct t t') : SemShared t' := by
  refine shared_act h ha (fun _ _ _ _ => ⟨rfl, rfl⟩) ?_ ?_ (fun _ => rfl) fun _ => ⟨rfl, rfl⟩
  · intro j v c r w w' _ _ hworks he _
    exact slots_call hworks he
  · intro j v j' w _ hlaunch
    rw [sem_give, slots_fork hlaunch]

/-! ### The claimed tasks -/

/-- A claimed task has a worker, is back in the stream, or is in the hands of the loop. -/
abbrev TasksShared : Trace Instr Instr.Reply Job World → Prop :=
  Shared (fun w => (w.base.claimed : Multiset Dequeued))
    (fun w => (w.base.started : Multiset Dequeued) + w.requeued) fun j v => tasks j v.hold

theorem started_exec {c : FetchLoop.Instr} {r : c.Reply} (he : b.Exec s c r b') :
    b'.started = b.started := by
  cases c with
  | acquire | slotFor | waitSlotFor =>
    obtain ⟨-, -, rfl⟩ | ⟨-, -, rfl⟩ := he
    · rfl
    · rfl
  | ctxDone | ctxErr | semLen | pauseWait | dequeueBatch | release =>
    obtain ⟨-, rfl⟩ := he
    rfl
  | now | pausedQueues | sleep | requeue | routine | trackInflight | untrackInflight =>
    obtain rfl := he
    rfl

/-- The loop claims tasks when it has none, and returns the first of those it has. -/
theorem pending_call {c : FetchLoop.Instr} {r : c.Reply} (hallows : h.Allows c)
    (he : b.Exec s c r b') :
    b'.claimed ++ h.pending = b.claimed ++ requeuedBy c ++ (h.see (.call c r)).pending := by
  cases c with
  | dequeueBatch =>
    obtain ⟨-, rfl⟩ := he
    change b.claimed ++ r.claimed ++ h.pending = b.claimed ++ [] ++ (h.pending ++ r.claimed)
    simp [hallows.2]
  | requeue dt =>
    obtain rfl := he
    obtain ⟨rest, hrest⟩ := hallows
    change b'.claimed ++ h.pending = b'.claimed ++ [dt] ++ h.pending.tail
    simp [hrest.2]
  | acquire | slotFor | waitSlotFor =>
    obtain ⟨-, -, rfl⟩ | ⟨-, -, rfl⟩ := he
    all_goals simp [requeuedBy, Hold.see]
  | release | ctxDone | ctxErr | semLen | pauseWait =>
    obtain ⟨-, rfl⟩ := he
    simp [requeuedBy, Hold.see]
  | now | pausedQueues | sleep =>
    obtain rfl := he
    simp [requeuedBy, Hold.see]
  | trackInflight | untrackInflight | routine => exact hallows.elim

/-- A worker neither claims a task nor returns one. -/
theorem claimed_worker {c : FetchLoop.Instr} {r : c.Reply} (hc : c.OfWorker)
    (he : b.Exec s c r b') :
    b'.claimed = b.claimed ∧ requeuedBy c = [] := by
  cases c with
  | release =>
    obtain ⟨-, rfl⟩ := he
    exact ⟨rfl, rfl⟩
  | trackInflight | untrackInflight | routine =>
    obtain rfl := he
    exact ⟨rfl, rfl⟩
  | _ => exact hc.elim

theorem tasks_fetch {c : FetchLoop.Instr} {r : c.Reply} (hworks : Works v j (.fetch c))
    (he : w.base.Exec s c r b') :
    (b'.claimed : Multiset Dequeued) + tasks j v.hold =
      w.base.claimed + (requeuedBy c : Multiset Dequeued) + tasks j (v.hold.see (.call c r)) := by
  cases hworks with
  | fetch hallows => simp only [tasks, Multiset.coe_add, pending_call hallows he]
  | work _ hc =>
    obtain ⟨hclaimed, hnone⟩ := claimed_worker hc he
    simp [tasks, hclaimed, hnone]
  | routine =>
    obtain rfl := he
    simp [tasks, requeuedBy]
  | loop hc => exact hc.elim

theorem tasks_call (hworks : Works v j c) (he : w.Exec s c r w') :
    (w'.base.claimed : Multiset Dequeued) + (w.base.started + w.requeued) + tasks j v.hold =
      w.base.claimed + (w'.base.started + w'.requeued) + tasks j (v.see (.call c r)).hold := by
  by_cases hplain : c.Plain
  · have hw := he.same hplain
    rw [hw.claimed, hw.started, hw.requeued, (v.same_see r hplain).hold]
  · cases c with
    | fetch c =>
      obtain ⟨b, he, rfl⟩ := he
      have hmove := tasks_fetch hworks he
      have hstarted := started_exec he
      change (b.claimed : Multiset Dequeued) + (w.base.started + w.requeued) + _ =
        w.base.claimed +
            (b.started + ((w.requeued ++ requeuedBy c : List Dequeued) : Multiset Dequeued)) +
          tasks j (v.hold.see (.call c r))
      rw [hstarted, ← Multiset.coe_add]
      calc (b.claimed : Multiset Dequeued) + (w.base.started + w.requeued) + tasks j v.hold
          = b.claimed + tasks j v.hold + (w.base.started + w.requeued) := by abel
        _ = _ := by rw [hmove]; abel
    | wgDone =>
      obtain ⟨-, rfl⟩ := he
      rfl
    | wgAdd | started =>
      obtain rfl := he
      rfl
    | _ => exact absurd trivial hplain

/-- The loop hands a task to the worker it starts. -/
theorem tasks_fork (h : Launches v j j') :
    ((w.give j').base.claimed : Multiset Dequeued) + (w.base.started + w.requeued) +
      tasks j v.hold =
      w.base.claimed + ((w.give j').base.started + (w.give j').requeued) +
        (tasks j (v.see (.fork j')).hold + tasks j' {}) := by
  cases h with
  | worker _ hs =>
    obtain ⟨dt, rest, rfl, hcarries⟩ := hs
    change (w.base.claimed : Multiset Dequeued) + (w.base.started + w.requeued) + v.hold.pending =
      w.base.claimed +
          (((w.base.started ++ [dt] : List Dequeued) : Multiset Dequeued) + w.requeued) +
        ((v.hold.pending.tail : Multiset Dequeued) + 0)
    have hcons : ((dt :: rest : List Dequeued) : Multiset Dequeued) =
        ([dt] : List Dequeued) + rest :=
      (Multiset.coe_add [dt] rest).symm
    rw [hcarries.2, List.tail_cons, hcons, ← Multiset.coe_add]
    abel
  | _ => simp [tasks, World.give, FetchLoop.World.give]

theorem tasks_act (h : TasksShared t) (ha : (machine s).Act conduct t t') : TasksShared t' := by
  refine shared_act h ha (fun _ _ _ _ => ⟨rfl, rfl⟩) ?_ ?_ (fun _ => rfl) fun _ => ⟨rfl, rfl⟩
  · intro j v c r w w' _ _ hworks he _
    exact tasks_call hworks he
  · intro j v j' w _ hlaunch
    exact tasks_fork hlaunch

/-! ### `Start` -/

/-- There is one call of `Start`. -/
abbrev StartShared : Trace Instr Instr.Reply Job World → Prop :=
  Shared (fun _ => 1) (fun w => w.returned.toNat) starting

theorem starting_call {x : Nat} (hworks : Works v j c) (he : w.Exec s c r w')
    (hone : 1 = w.returned.toNat + (starting j v + x)) :
    1 + w.returned.toNat + starting j v =
      1 + w'.returned.toNat + starting j (v.see (.call c r)) := by
  have hsame : ∀ {v' : Standing}, v'.returned = v.returned → starting j v = starting j v' := by
    intro v' h
    cases j with
    | start => simp [starting, h]
    | _ => rfl
  by_cases hplain : c.Plain
  · rw [(he.same hplain).returned, ← hsame (v.same_see r hplain).returned]
  · cases c with
    | fetch c =>
      obtain ⟨b, -, rfl⟩ := he
      exact congrArg (1 + w.returned.toNat + ·) (hsame rfl)
    | wgDone =>
      obtain ⟨-, rfl⟩ := he
      exact congrArg (1 + w.returned.toNat + ·) (hsame rfl)
    | wgAdd =>
      obtain rfl := he
      exact congrArg (1 + w.returned.toNat + ·) (hsame rfl)
    | started ok =>
      obtain rfl := he
      cases hworks with
      | @started rounds ticks h =>
        have hone' : starting (.start rounds ticks) v = 1 := by simp [starting, h]
        change 1 + w.returned.toNat + _ = 1 + 1 + 0
        omega
      | loop hc => exact hc.elim
    | _ => exact absurd trivial hplain

theorem starting_fork (h : Launches v j j') :
    starting j v = starting j (v.see (.fork j')) + starting j' {} := by
  cases h <;> rfl

theorem returned_give (w : World) (j : Job) : (w.give j).returned = w.returned := by
  cases j <;> rfl

theorem start_act (h : StartShared t) (ha : (machine s).Act conduct t t') : StartShared t' := by
  refine shared_act h ha (fun _ _ _ _ => ⟨rfl, rfl⟩) ?_ ?_ (fun _ => rfl) fun _ => ⟨rfl, rfl⟩
  · intro j v c r w w' x _ hworks he hone
    exact starting_call hworks he hone
  · intro j v j' w _ hlaunch
    rw [returned_give, starting_fork hlaunch]

end Kept

end ChronosGo.Lifecycle
