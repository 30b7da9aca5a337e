import ChronosGo.FetchOutline

/-! # No over-fetch

The loop is the only one to take slots, so between its reading of `len(s.sem)` and the
end of its dispatch the slots it found free stay free: workers only return some.  What
the loop or a worker holds is its `Hold`; the `Ledger` of the loop adds how many slots it
knows to be free.  That the code keeps to its ledger is a fact about the loop alone
(`ledgerOutline`).  That the ledger agrees with the channel (`Accounts`) holds in every
interleaving, and with it the bound on the workers and the absence of waiting
(`no_overfetch`).
-/
namespace ChronosGo.FetchLoop
open Interleaving

variable {s : Server} {ws : List (Proc Instr Instr.Reply Goroutine)}
  {e : Event Instr Instr.Reply Goroutine} {d : Config Instr Instr.Reply Goroutine World}

/-! ## What a goroutine holds -/

/-- What a goroutine has done so far. -/
abbrev History : Type := List (Event Instr Instr.Reply Goroutine)

/-- What the fetch loop or a worker holds: whether the loop has a slot that is not a
worker's, whether a slot was returned, and the claimed tasks that the loop has not handed
on. -/
structure Hold where
  held : Bool := false
  released : Bool := false
  pending : List Dequeued := []

namespace Hold

def see (v : Hold) : Event Instr Instr.Reply Goroutine → Hold
  | .call .acquire taken => { v with held := taken }
  | .call (.slotFor _) taken => { v with held := taken }
  | .call (.waitSlotFor _) taken => { v with held := taken }
  | .call .release _ => { v with held := false, released := true }
  | .call (.dequeueBatch ..) r => { v with pending := v.pending ++ r.claimed }
  | .call (.requeue _) _ => { v with pending := v.pending.tail }
  | .fork (.worker _) => { v with held := false, pending := v.pending.tail }
  | _ => v

/-- Between two batches, without a slot. -/
def Idle (v : Hold) : Prop := v.held = false ∧ v.pending = []

/-- With a slot, and the tasks `ts` to hand on. -/
def Carries (ts : List Dequeued) (v : Hold) : Prop := v.held = true ∧ v.pending = ts

/-- Without a slot, and with the tasks `ts` to hand on. -/
def Rest (ts : List Dequeued) (v : Hold) : Prop := v.held = false ∧ v.pending = ts

/-- What the fetch loop may do with what it holds. -/
def Allows (v : Hold) : Instr → Prop
  | .ctxDone | .acquire | .pauseWait | .sleep => v.Idle
  | .ctxErr | .now | .pausedQueues | .semLen | .release | .dequeueBatch .. => v.Carries []
  | .slotFor dt | .waitSlotFor dt | .requeue dt => ∃ rest, v.Rest (dt :: rest)
  | .trackInflight .. | .untrackInflight _ | .routine _ => False

/-- What the fetch loop may start: a worker for the next task it has claimed, with the
slot it holds. -/
def Starts (v : Hold) (j : Goroutine) : Prop := ∃ dt rest, j = .worker dt ∧ v.Carries (dt :: rest)

end Hold

/-- The hold after a history. -/
def hold (h : History) : Hold := Prog.viewAfter Hold.see {} h

@[simp] theorem hold_snoc (h : History) (e : Event Instr Instr.Reply Goroutine) :
    hold (h ++ [e]) = (hold h).see e := Prog.viewAfter_snoc _ _ _ _

/-! ## The ledger of the loop -/

/-- The position of the loop: what it holds, how many slots are free at least, and
whether what it was answered so far is what a server can answer. -/
structure Ledger extends Hold where
  free : Nat := 0
  fair : Bool := true

/-- The answers that can be given where the loop asks: a slot that is known to be free
is there, and a batch is no larger than requested. -/
def fair : Event Instr Instr.Reply Goroutine → Bool
  | .call (.slotFor _) sent => sent
  | .call (.dequeueBatch _ _ count) r => decide ((r.claimed.length : Int) ≤ max count 1)
  | _ => true

namespace Ledger

/-- The slots that are free at least, after one more event. -/
def freeAfter (cap free : Nat) : Event Instr Instr.Reply Goroutine → Nat
  | .call .acquire true => 0
  | .call (.slotFor _) true => free - 1
  | .call .semLen len => cap - len
  | _ => free

/-- The ledger after one more event. -/
def see (cap : Nat) (l : Ledger) (e : Event Instr Instr.Reply Goroutine) : Ledger where
  toHold := l.toHold.see e
  free := freeAfter cap l.free e
  fair := l.fair && FetchLoop.fair e

/-- There is a slot for each task of a batch, with the one that the loop holds. -/
def Room (batch : Int) (l : Ledger) : Prop := l.fair = true → batch ≤ l.free + 1

/-- What the loop may do at its position.  While the answers are fair it takes a slot for
a claimed task only where one is free, and never waits for one or returns a task to the
stream. -/
def Allows (l : Ledger) (c : Instr) : Prop :=
  l.toHold.Allows c ∧ (l.fair = true → match c with
    | .slotFor _ => l.pending.length ≤ l.free
    | .waitSlotFor _ | .requeue _ => False
    | _ => True)

end Ledger

/-- The ledger after a history. -/
def ledger (cap : Nat) (h : History) : Ledger := Prog.viewAfter (Ledger.see cap) {} h

@[simp] theorem ledger_snoc (cap : Nat) (h : History) (e : Event Instr Instr.Reply Goroutine) :
    ledger cap (h ++ [e]) = (ledger cap h).see cap e := Prog.viewAfter_snoc _ _ _ _

theorem toHold_ledger (cap : Nat) (h : History) : (ledger cap h).toHold = hold h :=
  Prog.map_viewAfter (fun _ _ => rfl) h

/-! ## The loop keeps its ledger -/

/-- From a ledger with `P`, the code does only what its ledger allows, and returns at a
ledger with `Q`. -/
abbrev Keeps {α : Type} (s : Server) (P : Ledger → Prop) (p : Thread α) (Q : α → Ledger → Prop) :
    Prop :=
  Triple (Ledger.see s.cap) {} Ledger.Allows (fun l => l.toHold.Starts) P p Q

/-- The batch fits the slots that are free. -/
theorem batchSize_le (s : Server) (len : Nat) :
    s.batchSize len ≤ ((s.cap - len : Nat) : Int) + 1 := by
  unfold Server.batchSize
  dsimp only
  split <;> split <;> omega

/-- One call of `DequeueBatch`. -/
theorem keeps_dequeueBatch (block : Int) (q : String) (batch : Int) :
    Keeps s (fun l => l.Carries [] ∧ l.Room batch) (exec (.dequeueBatch block q batch))
      fun r l => (l.Carries r.claimed ∧ l.Room r.claimed.length) ∧ l.Room batch := by
  refine .cmd (fun l hl => ⟨hl.1, fun _ => trivial⟩) fun l r ⟨⟨hheld, hpend⟩, hroom⟩ => ?_
  refine ⟨⟨⟨hheld, ?_⟩, fun hfair => ?_⟩, fun hfair => hroom (Bool.and_eq_true_iff.mp hfair).1⟩
  · change l.pending ++ r.claimed = r.claimed
    rw [hpend, List.nil_append]
  · obtain ⟨hl, hr⟩ := Bool.and_eq_true_iff.mp hfair
    have hfits : (r.claimed.length : Int) ≤ max batch 1 := of_decide_eq_true hr
    have hbatch := hroom hl
    change (r.claimed.length : Int) ≤ l.free + 1
    omega

theorem keeps_refreshPaused (st : LoopState) :
    Keeps s (fun l => l.Carries []) (refreshPaused st) fun _ l => l.Carries [] := by
  have hquiet : ∀ {c : Instr}, (∀ l : Ledger, l.Carries [] → l.Allows c) →
      (∀ (l : Ledger) r, (l.see s.cap (.call c r)).toHold = l.toHold) →
      Keeps s (fun l => l.Carries []) (exec c) fun _ l => l.Carries [] := by
    refine fun hc hsee => .cmd hc fun l r hl => ?_
    rw [hsee]
    exact hl
  have hnow : Keeps s (fun l => l.Carries []) (exec .now) fun _ l => l.Carries [] :=
    hquiet (fun _ hl => ⟨hl, fun _ => trivial⟩) fun _ _ => rfl
  have hpaused : Keeps s (fun l => l.Carries []) (exec .pausedQueues) fun _ l => l.Carries [] :=
    hquiet (fun _ hl => ⟨hl, fun _ => trivial⟩) fun _ _ => rfl
  refine .bind hnow fun now => .ite (fun _ => .pure fun _ hl => hl) fun _ => ?_
  refine .bind hnow fun checked => .bind hpaused fun names => ?_
  cases names with
  | none | some => exact .pure fun _ hl => hl

/-- **The loop keeps its ledger**: the outline. -/
def ledgerOutline (s : Server) :
    Outline s (Ledger.see s.cap) {} Ledger.Allows fun l => l.toHold.Starts where
  Idle _ l := l.Idle
  Begun _ l := l.Carries []
  Ready _ _ l := l.Carries []
  Asking _ batch _ _ l := l.Carries [] ∧ l.Room batch
  Holding _ l := l.Carries []
  Carries _ ts l := l.Carries ts ∧ l.Room ts.length
  Rest _ ts l := l.Rest ts ∧ l.Room (ts.length + 1)
  Short _ ts l := l.Rest ts ∧ l.fair = false
  ctxDone _ := .cmd (fun _ hl => ⟨hl, fun _ => trivial⟩) fun _ _ hl => hl
  acquire _ := by
    refine .cmd (fun _ hl => ⟨hl, fun _ => trivial⟩) fun l taken hl => ?_
    cases taken with
    | true => exact ⟨rfl, hl.2⟩
    | false => exact ⟨rfl, hl.2⟩
  refresh _ := keeps_refreshPaused _
  paused hl _ := hl
  pauseWait _ := .cmd (fun _ hl => ⟨hl, fun _ => trivial⟩) fun _ _ hl => hl
  semLen _ _ := by
    refine .cmd (fun _ hl => ⟨hl, fun _ => trivial⟩) fun l len hl => ⟨hl, fun _ => ?_⟩
    exact batchSize_le s len
  ask _ batch _ _ q := by
    refine (keeps_dequeueBatch (-1) q batch).mono (fun _ hl => hl) fun r l hl => ?_
    match r with
    | .noTask => exact ⟨hl.1.1, hl.2⟩
    | .failed => exact ⟨⟨hl.1.1, hl.2⟩, hl.1.1⟩
    | .tasks [] => exact ⟨hl.1.1, hl.2⟩
    | .tasks (t :: ts) => exact hl.1
  ctxErr hl :=
    ⟨⟨hl, fun _ => trivial⟩, fun _ => by simp [Ledger.see, Hold.see, fair, Ledger.freeAfter]⟩
  asked hl := hl.1
  await _ batch order _ := by
    refine (keeps_dequeueBatch pollBlock _ batch).mono (fun _ hl => hl) fun r l hl => ?_
    match r with
    | .noTask | .failed | .tasks [] => exact hl.1.1
    | .tasks (t :: ts) => exact hl.1
  release _ := .cmd (fun _ hl => ⟨hl, fun _ => trivial⟩) fun _ _ hl => ⟨rfl, hl.2⟩
  sleep _ := .cmd (fun _ hl => ⟨hl, fun _ => trivial⟩) fun _ _ hl => hl
  start _ dt ts := by
    refine .go (fun _ hl => ⟨dt, ts, rfl, hl.1⟩) fun l hl => ⟨⟨rfl, ?_⟩, fun hfair => ?_⟩
    · change l.pending.tail = ts
      rw [hl.1.2, List.tail_cons]
    · have hroom := hl.2 (Bool.and_eq_true_iff.mp hfair).1
      rwa [List.length_cons, Nat.cast_succ] at hroom
  slotFor _ dt ts := by
    refine .cmd (fun l hl => ⟨⟨ts, hl.1⟩, fun hfair => ?_⟩) fun l taken hl => ?_
    · have hroom := hl.2 hfair
      rw [List.length_cons] at hroom
      change l.pending.length ≤ l.free
      rw [hl.1.2, List.length_cons]
      omega
    · cases taken with
      | true =>
        refine ⟨⟨rfl, hl.1.2⟩, fun hfair => ?_⟩
        have hroom := hl.2 (Bool.and_eq_true_iff.mp hfair).1
        rw [List.length_cons] at hroom ⊢
        change _ ≤ ((l.free - 1 : Nat) : Int) + 1
        omega
      | false => exact ⟨⟨rfl, hl.1.2⟩, Bool.and_false _⟩
  waitSlotFor _ dt ts := by
    refine .cmd (fun l hl => ⟨⟨ts, hl.1⟩, fun hfair => ?_⟩) fun l taken hl => ?_
    · rw [hl.2] at hfair
      cases hfair
    · have hunfair : (l.fair && true) = false := by rw [hl.2, Bool.false_and]
      cases taken with
      | true =>
        refine ⟨⟨rfl, hl.1.2⟩, fun hfair => ?_⟩
        cases hunfair.symm.trans hfair
      | false => exact ⟨⟨rfl, hl.1.2⟩, hunfair⟩
  requeue _ dt ts := by
    refine .cmd (fun l hl => ⟨⟨ts, hl.1⟩, fun hfair => ?_⟩) fun l _ hl => ⟨⟨hl.1.1, ?_⟩, ?_⟩
    · rw [hl.2] at hfair
      cases hfair
    · change l.pending.tail = ts
      rw [hl.1.2, List.tail_cons]
    · change (l.fair && true) = false
      rw [hl.2, Bool.false_and]
  dispatched hl := hl.1
  requeued hl := hl.1

theorem keeps_fetchLoop (rounds : Nat) (st : LoopState) :
    Keeps s (fun l => l.Idle) (fetchLoop s rounds st) fun _ l => l.Idle :=
  ((ledgerOutline s).fetchLoop rounds st).mono (fun _ hl => hl) fun _ _ ⟨_, hl⟩ => hl

/-! ## The workers -/

/-- What a worker does. -/
def Instr.OfWorker : Instr → Prop
  | .trackInflight .. | .untrackInflight _ | .routine _ | .release => True
  | _ => False

/-- A worker does its work before it returns its slot, and starts nothing. -/
abbrev WorkerHolds (p : Thread Unit) (released : Bool) : Prop :=
  Triple Hold.see {} (fun v c => v.released = false ∧ c.OfWorker) (fun _ _ => False)
    (fun v => v.released = false) p fun _ v => v.released = released

theorem holds_process (q : String) (sid : Nat) (msg : TaskMessage) :
    WorkerHolds (run (process q sid msg)) false :=
  Triple.embed_commands (K := fun _ => True) (G := fun _ => False)
    ((process_keeps (F := fun _ _ => False)).weaken (fun _ _ _ => trivial) (fun _ _ h => h)
      fun _ _ h => h)
    (fun _ _ hv _ => ⟨hv, trivial⟩) (fun _ _ _ h => h) (fun _ _ _ hv _ => hv) fun _ _ _ h => h.elim

/-- A worker returns its slot once, at its end. -/
theorem holds_worker (dt : Dequeued) : WorkerHolds (worker dt) true := by
  have htrack :
      WorkerHolds (exec (.trackInflight dt.2.id ⟨dt.1, dt.2.queue, dt.2.uniqueKey⟩)) false :=
    .cmd (fun _ hv => ⟨hv, trivial⟩) fun _ _ hv => hv
  have huntrack : WorkerHolds (exec (.untrackInflight dt.2.id)) false :=
    .cmd (fun _ hv => ⟨hv, trivial⟩) fun _ _ hv => hv
  refine .bind htrack fun _ => .bind (holds_process _ _ _) fun _ => .bind huntrack fun _ => ?_
  exact .cmd (fun _ hv => ⟨hv, trivial⟩) fun _ _ _ => rfl

/-- What the goroutines of a server may do: the loop what its ledger allows, a worker
its own instructions until it has returned its slot. -/
def discipline (s : Server) : Discipline Instr Instr.Reply Goroutine where
  call
    | .fetchLoop _, h, c => (ledger s.cap h).Allows c
    | .worker _, h, c => (hold h).released = false ∧ c.OfWorker
    | .routine _, _, _ => True
  fork
    | .fetchLoop _, h, j => (hold h).Starts j
    | .worker _, _, _ => False
    | .routine _, _, _ => True
  done
    | .fetchLoop _, h => (hold h).Idle
    | .worker _, h => (hold h).released = true
    | .routine _, _ => True

/-- **The goroutines keep to the discipline**, whatever they are answered. -/
theorem obeys_discipline (s : Server) : (machine s).Obeys (discipline s) := by
  intro j
  cases j with
  | fetchLoop rounds =>
    refine (keeps_fetchLoop rounds _ [] ⟨rfl, rfl⟩).weaken (fun _ _ h => h) (fun h j hj => ?_)
      fun h _ hidle => ?_
    · change (hold h).Starts j
      rw [← toHold_ledger s.cap]
      exact hj
    · change (hold h).Idle
      rw [← toHold_ledger s.cap]
      exact hidle
  | worker dt => exact holds_worker dt [] rfl
  | routine j =>
    exact Prog.follows_of_forall (I := fun _ => True) trivial (fun _ _ _ => trivial)
      (fun _ _ _ => trivial) (fun _ _ _ => trivial) fun _ _ _ => trivial

/-! ## The accounts of a server -/

/-- The workers that have not returned their slot. -/
def active (ws : List (Proc Instr Instr.Reply Goroutine)) : Nat :=
  ws.countP fun p => !(hold p.hist).released

/-- The ledger of the loop and the workers agree with the channel: each slot taken is a
worker's or the loop's, and what the loop takes for free is free. -/
structure Accounts (s : Server) (w : World) (l : Ledger)
    (ws : List (Proc Instr Instr.Reply Goroutine)) : Prop where
  fair : l.fair = true
  workers : ∀ p ∈ ws, ∃ dt, p.job = .worker dt
  claimed : w.claimed = w.started ++ l.pending
  slots : w.sem = active ws + l.held.toNat
  free : w.sem + l.free ≤ s.cap

namespace Accounts
variable {w w' : World} {l : Ledger}

theorem init (s : Server) : Accounts s {} {} [] where
  fair := rfl
  workers := fun _ hp => absurd hp List.not_mem_nil
  claimed := rfl
  slots := rfl
  free := Nat.zero_le _

theorem fair_see (ha : Accounts s w l ws) (he : FetchLoop.fair e = true) :
    (l.see s.cap e).fair = true :=
  Bool.and_eq_true_iff.mpr ⟨ha.fair, he⟩

/-- An event of the loop that leaves the channel, the record and the ledger as they
are. -/
theorem frame (ha : Accounts s w l ws) (he : FetchLoop.fair e = true)
    (hhold : l.toHold.see e = l.toHold) (hfree : Ledger.freeAfter s.cap l.free e = l.free)
    (hw : w' = w) :
    Accounts s w' (l.see s.cap e) ws := by
  subst hw
  refine ⟨ha.fair_see he, ha.workers, ?_, ?_, ?_⟩
  · rw [ha.claimed, Ledger.see, hhold]
  · rw [ha.slots, Ledger.see, hhold]
  · rw [Ledger.see, hfree]
    exact ha.free

/-- An instruction of the loop. -/
theorem exec_loop (ha : Accounts s w l ws) {c : Instr} {r : c.Reply} (hc : l.Allows c)
    (he : w.Exec s c r w') : Accounts s w' (l.see s.cap (.call c r)) ws := by
  have hslots := ha.slots
  have hfree := ha.free
  cases c with
  | ctxDone | ctxErr | pauseWait => exact ha.frame rfl rfl rfl he.2
  | now | pausedQueues | sleep => exact ha.frame rfl rfl rfl he
  | waitSlotFor | requeue => exact (hc.2 ha.fair).elim
  | trackInflight | untrackInflight | routine => exact hc.1.elim
  | acquire =>
    have hheld : l.held = false := hc.1.1
    rw [hheld] at hslots
    rcases he with ⟨rfl, hlt, rfl⟩ | ⟨rfl, -, rfl⟩
    · -- what was free in the round before is forgotten
      exact ⟨ha.fair_see rfl, ha.workers, ha.claimed, congrArg (· + 1) hslots, hlt⟩
    · exact ⟨ha.fair_see rfl, ha.workers, ha.claimed, hslots, hfree⟩
  | slotFor dt =>
    obtain ⟨rest, hheld, hpend⟩ := hc.1
    have hroom : l.pending.length ≤ l.free := hc.2 ha.fair
    rw [hpend, List.length_cons] at hroom
    rcases he with ⟨rfl, hlt, rfl⟩ | ⟨-, hfull, -⟩
    · rw [hheld] at hslots
      refine ⟨ha.fair_see rfl, ha.workers, ha.claimed, congrArg (· + 1) hslots, ?_⟩
      change w.sem + 1 + (l.free - 1) ≤ s.cap
      omega
    · -- the slot is known to be free
      omega
  | release =>
    obtain ⟨-, rfl⟩ := he
    have hheld : l.held = true := hc.1.1
    rw [hheld] at hslots
    change w.sem = active ws + 1 at hslots
    refine ⟨ha.fair_see rfl, ha.workers, ha.claimed, ?_, ?_⟩
    · change w.sem - 1 = active ws
      omega
    · change w.sem - 1 + l.free ≤ s.cap
      omega
  | semLen =>
    obtain ⟨rfl, rfl⟩ := he
    refine ⟨ha.fair_see rfl, ha.workers, ha.claimed, hslots, ?_⟩
    change w'.sem + (s.cap - w'.sem) ≤ s.cap
    omega
  | dequeueBatch block q count =>
    obtain ⟨hr, rfl⟩ := he
    refine ⟨ha.fair_see (decide_eq_true (length_claimed_le hr)), ha.workers, ?_, hslots, hfree⟩
    change w.claimed ++ r.claimed = w.started ++ (l.pending ++ r.claimed)
    rw [ha.claimed, List.append_assoc]

/-- The loop starts a worker, and hands it its slot. -/
theorem start (ha : Accounts s w l ws) {j : Goroutine} (hj : l.toHold.Starts j) :
    Accounts s (w.give j) (l.see s.cap (.fork j)) (ws ++ [⟨j, []⟩]) := by
  obtain ⟨dt, rest, rfl, hheld, hpend⟩ := hj
  have hslots := ha.slots
  rw [hheld] at hslots
  have hactive : active (ws ++ [⟨.worker dt, []⟩]) = active ws + 1 := by
    rw [active, List.countP_append]
    rfl
  refine ⟨ha.fair_see rfl, ?_, ?_, hslots.trans hactive.symm, ha.free⟩
  · intro p hp
    rcases List.mem_append.mp hp with hp | hp
    · exact ha.workers p hp
    · rw [List.mem_singleton.mp hp]
      exact ⟨dt, rfl⟩
  · change w.claimed = (w.started ++ [dt]) ++ l.pending.tail
    rw [ha.claimed, hpend, List.append_assoc]
    rfl

/-- An instruction of a worker. -/
theorem exec_worker (ha : Accounts s w l ws) {n : Nat} {p : Proc Instr Instr.Reply Goroutine}
    (hp : ws[n]? = some p) {c : Instr} {r : c.Reply} (hr : (hold p.hist).released = false)
    (hc : c.OfWorker) (he : w.Exec s c r w') :
    Accounts s w' l (ws.set n ⟨p.job, p.hist ++ [.call c r]⟩) := by
  obtain ⟨hlt, hn⟩ := List.getElem?_eq_some_iff.mp hp
  have hslots := ha.slots
  have hfree := ha.free
  have hworkers : ∀ p' ∈ ws.set n ⟨p.job, p.hist ++ [.call c r]⟩, ∃ dt, p'.job = .worker dt := by
    intro p' hp'
    rcases List.mem_or_eq_of_mem_set hp' with hp' | rfl
    · exact ha.workers p' hp'
    · exact ha.workers p (List.mem_of_getElem? hp)
  have hpos : 0 < active ws :=
    List.countP_pos_iff.mpr ⟨p, List.mem_of_getElem? hp, by rw [hr]; rfl⟩
  -- the worker stops being active when it releases its slot, and only then
  have hactive : active (ws.set n ⟨p.job, p.hist ++ [.call c r]⟩) =
      active ws - 1 + if ((hold p.hist).see (.call c r)).released then 0 else 1 := by
    rw [active, List.countP_set hlt, hn, hold_snoc, hr]
    cases ((hold p.hist).see (.call c r)).released <;> rfl
  have hother : ((hold p.hist).see (.call c r)).released = false → w'.sem = w.sem →
      w'.claimed = w.claimed → w'.started = w.started →
      Accounts s w' l (ws.set n ⟨p.job, p.hist ++ [.call c r]⟩) := by
    intro hrel hsem hcl hst
    rw [hrel] at hactive
    refine ⟨ha.fair, hworkers, ?_, ?_, ?_⟩
    · rw [hcl, hst]
      exact ha.claimed
    · rw [hsem, hactive, hslots]
      change _ = active ws - 1 + 1 + _
      omega
    · rw [hsem]
      exact hfree
  cases c with
  | trackInflight | untrackInflight | routine =>
    subst he
    exact hother hr rfl rfl rfl
  | release =>
    obtain ⟨-, rfl⟩ := he
    refine ⟨ha.fair, hworkers, ha.claimed, ?_, ?_⟩
    · change w.sem - 1 = _
      rw [hactive, hslots]
      change active ws + _ - 1 = active ws - 1 + 0 + _
      omega
    · change w.sem - 1 + _ ≤ _
      omega
  | _ => exact hc.elim

/-- The end of the context changes nothing. -/
theorem cancel (ha : Accounts s w l ws) : Accounts s { w with cancelled := true } l ws :=
  ⟨ha.fair, ha.workers, ha.claimed, ha.slots, ha.free⟩

end Accounts

/-- A server whose loop is its first goroutine, with its accounts in order. -/
def InOrder (s : Server) (rounds : Nat) (t : Trace Instr Instr.Reply Goroutine World) : Prop :=
  ∃ h ws, t.procs = ⟨.fetchLoop rounds, h⟩ :: ws ∧ Accounts s t.world (ledger s.cap h) ws

/-- **The accounts stay in order**, whoever moves. -/
theorem InOrder.act {rounds : Nat} {t t' : Trace Instr Instr.Reply Goroutine World}
    (ht : InOrder s rounds t) (hact : (machine s).Act (discipline s) t t') :
    InOrder s rounds t' := by
  obtain ⟨h, ws, hprocs, ha⟩ := ht
  cases hact with
  | @call w w' ps i p c r hp hc he =>
    cases hprocs
    cases i with
    | zero =>
      cases hp
      refine ⟨_, ws, rfl, ?_⟩
      rw [ledger_snoc]
      exact ha.exec_loop hc he
    | succ n =>
      obtain ⟨dt, hdt⟩ := ha.workers p (List.mem_of_getElem? hp)
      rw [hdt] at hc
      exact ⟨h, _, rfl, ha.exec_worker hp hc.1 hc.2 he⟩
  | @fork w ps i p j hp hf =>
    cases hprocs
    cases i with
    | zero =>
      cases hp
      refine ⟨_, _, rfl, ?_⟩
      rw [ledger_snoc]
      refine ha.start ?_
      rw [toHold_ledger]
      exact hf
    | succ n =>
      obtain ⟨dt, hdt⟩ := ha.workers p (List.mem_of_getElem? hp)
      rw [hdt] at hf
      exact hf.elim
  | spawn hj => exact hj.elim
  | env he =>
    cases he
    exact ⟨h, ws, hprocs, ha.cancel⟩

/-! ## What holds at every moment -/

/-- The goroutine has not come to its end. -/
def unfinished : Option (Thread Unit) → Bool
  | some (.call ..) | some (.fork ..) => true
  | some (.pure _) | none => false

/-- The number of running workers: all goroutines but the first are workers. -/
def running (d : Config Instr Instr.Reply Goroutine World) : Nat := d.procs.tail.countP unfinished

/-- What is left of the code of the loop. -/
def loopOf (d : Config Instr Instr.Reply Goroutine World) : Option (Thread Unit) :=
  d.procs.head?.join

/-- The loop is about to begin a round, or has returned. -/
def BetweenRounds (d : Config Instr Instr.Reply Goroutine World) : Prop :=
  (∃ k, loopOf d = some (.call .ctxDone k)) ∨ loopOf d = some (.pure ())

/-- The loop is about to dispatch the task: it starts the worker, with a slot that no
other worker has, or it takes a slot for it, of which one is free. -/
def Dispatches (cap : Nat) (d : Config Instr Instr.Reply Goroutine World) (dt : Dequeued) : Prop :=
  (∃ p, loopOf d = some (.fork (.worker dt) p) ∧ d.world.sem = running d + 1) ∨
    ∃ k, loopOf d = some (.call (.slotFor dt) k) ∧ d.world.sem < cap

/-- A worker runs until it returns its slot. -/
theorem unfinished_eq {q : Thread Unit} {a : Proc Instr Instr.Reply Goroutine} {dt : Dequeued}
    (hj : a.job = .worker dt) (hm : (discipline s).Matches (some q) a) :
    unfinished (some q) = !(hold a.hist).released := by
  have hq := hm q rfl
  rw [hj] at hq
  cases q with
  | pure u =>
    have hdone : (hold a.hist).released = true := hq
    rw [hdone]
    rfl
  | call c k =>
    rw [hq.1.1]
    rfl
  | fork j p => exact hq.1.elim

theorem running_eq_active {ps : List (Option (Thread Unit))}
    (hm : List.Forall₂ (discipline s).Matches ps ws) (hsome : ∀ p ∈ ps, p.isSome)
    (hworkers : ∀ p ∈ ws, ∃ dt, p.job = .worker dt) :
    ps.countP unfinished = active ws := by
  unfold active
  induction hm with
  | nil => rfl
  | @cons p a ps ws hd tl ih =>
    obtain ⟨q, rfl⟩ := Option.isSome_iff_exists.mp (hsome p List.mem_cons_self)
    obtain ⟨dt, hdt⟩ := hworkers a List.mem_cons_self
    rw [List.countP_cons, List.countP_cons, unfinished_eq hdt hd,
      ih (fun p hp => hsome p (List.mem_cons_of_mem _ hp))
        fun p hp => hworkers p (List.mem_cons_of_mem _ hp)]

/-- In every reachable configuration the loop follows its ledger, and the ledger agrees
with the channel and with the running workers. -/
theorem exists_ledger {rounds : Nat} (hr : (machine s).Reachable (boot s rounds) d) :
    ∃ (l : Ledger) (p : Thread Unit), loopOf d = some p ∧
      d.world.claimed = d.world.started ++ l.pending ∧
      d.world.sem = running d + l.held.toNat ∧ d.world.sem + l.free ≤ s.cap ∧
      l.fair = true ∧ (∀ u, p = .pure u → l.Idle) ∧ (∀ c k, p = .call c k → l.Allows c) ∧
      ∀ j q, p = .fork j q → l.Starts j := by
  have h0 : InOrder s rounds ⟨{}, [Goroutine.fetchLoop rounds].map fun j => ⟨j, []⟩⟩ :=
    ⟨[], [], rfl, .init s⟩
  obtain ⟨hs, ⟨h, ws, hprocs, ha⟩, hm⟩ :=
    Discipline.invariant (obeys_discipline s) h0 (fun _ _ ht hact => ht.act hact) hr
  have hsome := Machine.Reachable.isSome (M := machine s) id hr
  obtain ⟨w, ps⟩ := d
  cases hprocs
  cases hm with
  | @cons p _ ps _ hd tl =>
    obtain ⟨q, rfl⟩ := Option.isSome_iff_exists.mp (hsome p List.mem_cons_self)
    have hq := hd q rfl
    have hrunning : ps.countP unfinished = active ws :=
      running_eq_active tl (fun p hp => hsome p (List.mem_cons_of_mem _ hp)) ha.workers
    refine ⟨ledger s.cap h, q, rfl, ha.claimed, ?_, ha.free, ha.fair, ?_, ?_, ?_⟩
    · exact ha.slots.trans (congrArg (· + _) hrunning.symm)
    · rintro u rfl
      rw [toHold_ledger]
      exact hq
    · rintro c k rfl
      exact hq.1
    · rintro j p rfl
      rw [toHold_ledger]
      exact hq.1

/-- **No over-fetch.**  Whatever the loop and the workers have done so far: no more
workers run than the configured concurrency; each slot that is taken is that of one
running worker, but for one that the loop may hold, and between two rounds and after
its return the loop holds none; every claimed task has a worker by then; a claimed task
that has none yet is about to be dispatched without waiting; and the loop is never at
the point of waiting for the slot of a claimed task, or of returning one to the
stream. -/
theorem no_overfetch (cfg : ServerConfig) (consumer : String) (hc : 1 ≤ cfg.concurrency)
    (rounds : Nat) {d : Config Instr Instr.Reply Goroutine World}
    (hr : (machine (newServer cfg consumer)).Reachable (boot (newServer cfg consumer) rounds) d) :
    (running d : Int) ≤ cfg.concurrency ∧
      (running d ≤ d.world.sem ∧ d.world.sem ≤ running d + 1) ∧
      (BetweenRounds d → d.world.sem = running d ∧ d.world.claimed = d.world.started) ∧
      (∃ rest, d.world.claimed = d.world.started ++ rest) ∧
      (∀ dt rest, d.world.claimed = d.world.started ++ dt :: rest →
        Dispatches cfg.concurrency.toNat d dt) ∧
      ∀ dt, (∀ k, loopOf d ≠ some (.call (.waitSlotFor dt) k)) ∧
        ∀ k, loopOf d ≠ some (.call (.requeue dt) k) := by
  have hcap : (newServer cfg consumer).cap = cfg.concurrency.toNat := by
    unfold Server.cap newServer
    dsimp only
    rw [if_neg (by omega)]
  obtain ⟨l, p, hloop, hclaimed, hslots, hfree, hfair, hpure, hcall, hfork⟩ := exists_ledger hr
  rw [hcap] at hfree
  have hheld : l.held.toNat ≤ 1 := Bool.toNat_le l.held
  refine ⟨by omega, ⟨by omega, by omega⟩, ?_, ⟨_, hclaimed⟩, ?_, ?_⟩
  · intro hb
    have hidle : l.Idle := by
      rcases hb with ⟨k, hk⟩ | hk
      · exact (hcall .ctxDone k (Option.some.inj (hloop.symm.trans hk))).1
      · exact hpure () (Option.some.inj (hloop.symm.trans hk))
    rw [hidle.1] at hslots
    rw [hidle.2, List.append_nil] at hclaimed
    exact ⟨hslots, hclaimed⟩
  · intro dt rest hrest
    have hpend : l.pending = dt :: rest := List.append_cancel_left (hclaimed.symm.trans hrest)
    -- with a task pending, only its dispatch is allowed
    have hbusy : l.pending ≠ [] := by
      rw [hpend]
      exact List.cons_ne_nil _ _
    cases p with
    | pure u => exact absurd (hpure u rfl).2 hbusy
    | call c k =>
      obtain ⟨hallows, haffords⟩ := hcall c k rfl
      have haffords := haffords hfair
      cases c with
      | slotFor dt' =>
        obtain ⟨rest', -, hpend'⟩ := hallows
        cases hpend.symm.trans hpend'
        change l.pending.length ≤ l.free at haffords
        rw [hpend, List.length_cons] at haffords
        exact Or.inr ⟨k, hloop, by omega⟩
      | ctxDone | acquire | pauseWait | sleep => exact absurd hallows.2 hbusy
      | ctxErr | now | pausedQueues | semLen | release | dequeueBatch =>
        exact absurd hallows.2 hbusy
      | waitSlotFor | requeue => exact haffords.elim
      | trackInflight | untrackInflight | routine => exact hallows.elim
    | fork j q =>
      obtain ⟨dt', rest', rfl, hheld, hpend'⟩ := hfork j q rfl
      cases hpend.symm.trans hpend'
      rw [hheld] at hslots
      exact Or.inl ⟨q, hloop, hslots⟩
  · intro dt
    constructor
    · intro k hk
      exact (hcall (.waitSlotFor dt) k (Option.some.inj (hloop.symm.trans hk))).2 hfair
    · intro k hk
      exact (hcall (.requeue dt) k (Option.some.inj (hloop.symm.trans hk))).2 hfair

/-! A server of two slots that finds two tasks. -/

/-- The answers of a run in which a fetch finds `ts`; the workers do not move. -/
def answer (s : Server) (ts : List Dequeued) (c : Instr) (w : World) : Option (c.Reply × World) :=
  match c with
  | .ctxDone => some (w.cancelled, w)
  | .acquire => if w.sem < s.cap then some (true, { w with sem := w.sem + 1 }) else none
  | .slotFor _ => if w.sem < s.cap then some (true, { w with sem := w.sem + 1 }) else none
  | .semLen => some (w.sem, w)
  | .now => some (0, w)
  | .pausedQueues => some (some [], w)
  | .dequeueBatch _ _ count =>
    if ts ≠ [] ∧ (ts.length : Int) ≤ max count 1 ∧ ∀ t ∈ ts, t.2.state = .active then
      some (.tasks ts, { w with claimed := w.claimed ++ ts })
    else none
  | _ => none

def player (s : Server) :
    Player Instr Instr.Reply Goroutine World (List Dequeued) Empty where
  start := Goroutine.start s
  give := fun _ _ j w => w.give j
  answer := fun ts _ => answer s ts
  env := fun e => nomatch e

theorem player_sound (s : Server) : (player s).Sound (machine s) where
  start := rfl
  give := rfl
  answer := fun ts i c w a h => by
    change answer s ts c w = some a at h
    change w.Exec s c a.1 a.2
    cases c with
    | ctxDone | semLen =>
      cases h
      exact ⟨rfl, rfl⟩
    | now | pausedQueues =>
      cases h
      exact rfl
    | acquire | slotFor =>
      simp only [answer] at h
      split at h
      · rename_i hlt
        cases h
        exact Or.inl ⟨rfl, hlt, rfl⟩
      · cases h
    | dequeueBatch block q count =>
      simp only [answer] at h
      split at h
      · rename_i hok
        cases h
        exact ⟨yields_dequeueBatch _ _ hok.1 hok.2.1 hok.2.2, rfl⟩
      · cases h
    | _ => cases h
  env := fun e => nomatch e

def sampleConfig : ServerConfig := { queues := ⟨[("q", 1)], by decide⟩, concurrency := 2 }

/-- A task as `DequeueBatch` returns it. -/
def sampleDequeued (sid : Nat) (id : String) : Dequeued :=
  (sid, { id := id, kind := "mail", payload := [], queue := "q", state := .active, maxRetry := 3 })

/-- The code begins a round. -/
def beginsRound : Option (Thread Unit) → Bool
  | some (.call .ctxDone _) => true
  | _ => false

theorem betweenRounds_of_begins (h : beginsRound (loopOf d) = true) : BetweenRounds d := by
  unfold beginsRound at h
  split at h
  · rename_i k hk
    exact Or.inl ⟨k, hk⟩
  · cases h

/-- So many steps of the loop.  The first eight take its slot, read the paused queues
and the free slots, fetch, and start the first worker; two more start the second. -/
def sampleRun (n : Nat) : List (Choice (List Dequeued) Empty Goroutine) :=
  List.replicate n (.step 0 [sampleDequeued 1 "a", sampleDequeued 2 "b"])

/-- The second of two tasks is about to get its slot; then both slots are taken, and the
loop is between two rounds. -/
theorem both_tasks_dispatched :
    (∃ d, (machine (newServer sampleConfig "c")).Reachable (boot (newServer sampleConfig "c") 2) d ∧
      d.world.claimed = d.world.started ++ [sampleDequeued 2 "b"] ∧
      Dispatches 2 d (sampleDequeued 2 "b")) ∧
    ∃ d, (machine (newServer sampleConfig "c")).Reachable (boot (newServer sampleConfig "c") 2) d ∧
      running d = 2 ∧ d.world.sem = 2 ∧
      d.world.claimed = [sampleDequeued 1 "a", sampleDequeued 2 "b"] ∧
      d.world.started = d.world.claimed := by
  constructor
  · obtain ⟨d, hr, hd⟩ := (player_sound (newServer sampleConfig "c")).exists_config
      (sampleRun 8) trivial (boot (newServer sampleConfig "c") 2)
      (fun d => decide (d.world.claimed = d.world.started ++ [sampleDequeued 2 "b"]))
      (by decide +kernel)
    have hclaimed := of_decide_eq_true hd
    obtain ⟨-, -, -, -, hdispatch, -⟩ := no_overfetch sampleConfig "c" (by decide) 2 hr
    exact ⟨d, hr, hclaimed, hdispatch _ [] hclaimed⟩
  · obtain ⟨d, hr, hd⟩ := (player_sound (newServer sampleConfig "c")).exists_config
      (sampleRun 10) trivial (boot (newServer sampleConfig "c") 2)
      (fun d => decide (running d = 2 ∧
        d.world.claimed = [sampleDequeued 1 "a", sampleDequeued 2 "b"]) && beginsRound (loopOf d))
      (by decide +kernel)
    obtain ⟨hd, hloop⟩ := Bool.and_eq_true_iff.mp hd
    obtain ⟨hrunning, hclaimed⟩ := of_decide_eq_true hd
    obtain ⟨-, -, hrounds, -⟩ := no_overfetch sampleConfig "c" (by decide) 2 hr
    obtain ⟨hsem, hstarted⟩ := hrounds (betweenRounds_of_begins hloop)
    exact ⟨d, hr, hrunning, hsem.trans hrunning, hclaimed, hstarted.symm⟩

end ChronosGo.FetchLoop
