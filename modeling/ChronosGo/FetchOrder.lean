import ChronosGo.FetchOutline

/-! # The order in which the queues are asked

Each round of the fetch loop asks the queues that are not paused, one after the other,
and then blocks on the first of them.  Which queue comes first is decided by the picker or
by the weights alone, and which queues are paused by a set that is read once a second.
A `View` keeps what a loop has seen of all this, and each call of `DequeueBatch` is in
order as far as the view goes (`orderOutline`).  That is a fact about the code of the
loop; what it says about queues is read off the order of a round (`asked_of_ahead`).
-/
namespace ChronosGo.FetchLoop.Rounds
open Interleaving

variable {q : String} {rest : List String} {c : Instr}

/-! ## What a loop has seen -/

/-- The rounds begun, and of the last of them: how often the clock was read, the queues
that were asked and had nothing.  `clock` and `checked` are the two readings of
`refreshPaused`, the second kept from an earlier round if it was not taken; `read` is the
second reading at the time when `paused` was looked up, and `behind` says that a later
look-up failed.  `firsts` has the queue asked first in each round. -/
structure View where
  rounds : Nat := 0
  readings : Nat := 0
  clock : Int := zeroTime
  checked : Int := zeroTime
  read : Int := zeroTime
  behind : Bool := false
  paused : List String := []
  everPaused : Bool := false
  asked : List String := []
  firsts : List String := []
  /-- A batch without a task was seen; there is none, see `tasks_ne_nil`. -/
  hollow : Bool := false

variable {v : View}

namespace View

/-- With a slot, a round begins. -/
def enter (v : View) (taken : Bool) : View :=
  if taken then { v with rounds := v.rounds + 1, readings := 0, asked := [] } else v

/-- A reading of the clock. -/
def time (v : View) (t : Int) : View :=
  if v.readings = 0 then { v with readings := 1, clock := t }
  else { v with readings := 2, checked := t }

/-- A look-up of the paused queues. -/
def learn (v : View) : Option (List String) → View
  | none => { v with behind := true }
  | some names =>
    { v with paused := names, everPaused := v.everPaused || !names.isEmpty, read := v.checked
             behind := false }

/-- An answer of `DequeueBatch`. -/
def query (v : View) (q : String) (r : Fetched) : View :=
  { v with
    firsts := if v.asked = [] then v.firsts ++ [q] else v.firsts
    asked := if r.claimed = [] then v.asked ++ [q] else v.asked
    hollow := v.hollow || decide (r = .tasks []) }

def see (v : View) : (c : Instr) → c.Reply → View
  | .acquire, taken => v.enter taken
  | .now, t => v.time t
  | .pausedQueues, names => v.learn names
  | .dequeueBatch _ q _, r => v.query q r
  | _, _ => v

theorem see_now_first (h : v.readings = 0) (t : Int) :
    v.see .now t = { v with readings := 1, clock := t } := if_pos h

theorem see_now_second (h : v.readings = 1) (t : Int) :
    v.see .now t = { v with readings := 2, checked := t } := if_neg (by rw [h]; decide)

end View

section Order
variable (s : Server)

/-- The order of round `n`, the first being round `0`, before paused queues are left
out. -/
def orderAt (n : Nat) : List String := (s.nextOrder ((newWRRPicker s.cfg.queues).after n)).1

/-- The queues of the present round, in the order in which they are asked. -/
def roundOrder (v : View) : List String := keptOrder v.paused (orderAt s (v.rounds - 1))

/-- The calls of `DequeueBatch` that are in order: without blocking the next queue of the
round, and blocking the first queue once all were asked. -/
def View.Asks (v : View) (block : Int) (q : String) : Prop :=
  (block = -1 ∧ ∃ rest, roundOrder s v = v.asked ++ q :: rest) ∨
    (block = pollBlock ∧ roundOrder s v = v.asked ∧ ∃ rest, roundOrder s v = q :: rest)

/-- Only queues of the round are asked. -/
theorem View.Asks.mem {s : Server} {block : Int} (h : v.Asks s block q) :
    q ∈ roundOrder s v := by
  rcases h with ⟨-, rest, horder⟩ | ⟨-, -, rest, horder⟩
  · rw [horder]
    exact List.mem_append_right _ List.mem_cons_self
  · rw [horder]
    exact List.mem_cons_self

/-- The paused queues were looked up in this round, or less than an interval before it. -/
def View.Current (v : View) : Prop :=
  v.readings = 2 ∨ v.clock - v.checked < pauseCheckInterval

/-- The set is that of the last look-up that was due. -/
def View.Sound (v : View) : Prop := v.behind = false → v.read = v.checked

/-- The queues asked first are the first `n` picks; this is for a loop that goes by the
picker and has seen no paused queue. -/
def View.Tally (v : View) (n : Nat) : Prop :=
  s.cfg.strictPriority = false → v.everPaused = false → v.hollow = false →
    v.firsts = (newWRRPicker s.cfg.queues).window 0 n

/-- What a goroutine may do at its view. -/
def Allows (v : View) (c : Instr) : Prop :=
  (∃ n, v.rounds ≤ n + 1 ∧ n ≤ v.rounds ∧ v.Tally s n) ∧
    ∀ block q count, c = .dequeueBatch block q count →
      (v.hollow = false → v.Asks s block q) ∧ v.Current ∧ v.Sound

theorem orderAt_of_strict {s : Server} (h : s.cfg.strictPriority = true) (n : Nat) :
    orderAt s n = s.queuesByWeight := by
  simp [orderAt, Server.nextOrder, h]

theorem orderAt_of_picks {s : Server} (h : s.cfg.strictPriority = false) (n : Nat) :
    orderAt s n = (newWRRPicker s.cfg.queues).pickAt n ::
      s.queuesByWeight.filter (· ≠ (newWRRPicker s.cfg.queues).pickAt n) := by
  rw [orderAt, Server.nextOrder, if_neg (by rw [h]; decide)]
  rfl

end Order

/-! ## The loop asks in order -/

/-- From a view with `P`, the code does what is allowed and returns at a view with `Q`. -/
abbrev Keeps {α : Type} (s : Server) (P : View → Prop) (p : Thread α)
    (Q : α → View → Prop) : Prop :=
  Triple (Prog.seeCalls View.see) {} (Allows s) (fun _ _ => True) P p Q

/-- The loop's variables and the view agree. -/
structure Knows (s : Server) (st : LoopState) (v : View) : Prop where
  paused : v.paused = st.paused
  checked : v.checked = st.pausedChecked
  ever : v.everPaused = false → v.paused = []
  picker : s.cfg.strictPriority = false → st.picker = (newWRRPicker s.cfg.queues).after v.rounds

/-- Between two rounds, or at the end of one. -/
structure Rested (s : Server) (st : LoopState) (v : View) : Prop where
  knows : Knows s st v
  sound : v.Sound
  tally : v.Tally s v.rounds

/-- A round for which the picker was `picker` has begun and no queue was asked yet. -/
structure Begun (s : Server) (picker : WRRPicker) (v : View) : Prop where
  pos : 0 < v.rounds
  asked : v.asked = []
  order : (s.nextOrder picker).1 = orderAt s (v.rounds - 1)
  tally : v.Tally s (v.rounds - 1)

/-- In a round that asks the queues `order`, of which `rest` are left. -/
structure InRound (s : Server) (st : LoopState) (order rest : List String) (v : View) : Prop where
  knows : Knows s st v
  sound : v.Sound
  current : v.Current
  pos : 0 < v.rounds
  round : roundOrder s v = order
  asked : v.hollow = false → order = v.asked ++ rest
  tally : v.Tally s (if v.asked = [] then v.rounds - 1 else v.rounds)

section Steps
variable {s : Server} {st : LoopState} {order : List String}

/-- Every view of the loop counts its rounds. -/
theorem Rested.counts (h : Rested s st v) : ∃ n, v.rounds ≤ n + 1 ∧ n ≤ v.rounds ∧ v.Tally s n :=
  ⟨v.rounds, Nat.le_succ _, Nat.le_refl _, h.tally⟩

theorem Begun.counts {picker : WRRPicker} (h : Begun s picker v) :
    ∃ n, v.rounds ≤ n + 1 ∧ n ≤ v.rounds ∧ v.Tally s n :=
  ⟨v.rounds - 1, by omega, Nat.sub_le _ _, h.tally⟩

theorem InRound.counts (h : InRound s st order rest v) :
    ∃ n, v.rounds ≤ n + 1 ∧ n ≤ v.rounds ∧ v.Tally s n :=
  ⟨_, by split <;> omega, by split <;> omega, h.tally⟩

/-- Without pauses, the first queue of a round is the pick. -/
theorem InRound.head_order (h : InRound s st order rest v) (hs : s.cfg.strictPriority = false)
    (he : v.everPaused = false) :
    ∃ others, order = (newWRRPicker s.cfg.queues).pickAt (v.rounds - 1) :: others := by
  rw [← h.round, roundOrder, h.knows.ever he, keptOrder, if_pos rfl, orderAt_of_picks hs]
  exact ⟨_, rfl⟩

/-- When all queues were asked, the round is over as far as the count goes. -/
theorem InRound.rested (h : InRound s st order [] v) : Rested s st v := by
  refine ⟨h.knows, h.sound, fun hs he hh => ?_⟩
  obtain ⟨others, hothers⟩ := h.head_order hs he
  have hasked : v.asked ≠ [] := by
    intro hnil
    have horder := h.asked hh
    rw [hnil, hothers] at horder
    cases horder
  have htally := h.tally hs he hh
  rwa [if_neg hasked] at htally

/-- A query counts: the first of a round is of the pick. -/
theorem InRound.tally_query (h : InRound s st order (q :: rest) v) (r : Fetched) :
    (v.query q r).Tally s v.rounds := by
  intro hs he hh
  have hh' : v.hollow = false := (Bool.or_eq_false_iff.mp hh).1
  have htally := h.tally hs he hh'
  change (if v.asked = [] then v.firsts ++ [q] else v.firsts) = _
  by_cases hasked : v.asked = []
  · obtain ⟨others, hothers⟩ := h.head_order hs he
    have horder := h.asked hh'
    rw [hasked, hothers, List.nil_append, List.cons.injEq] at horder
    rw [if_pos hasked] at htally ⊢
    have hrounds : v.rounds = v.rounds - 1 + 1 := (Nat.sub_add_cancel h.pos).symm
    rw [htally, ← horder.1, hrounds, WRRPicker.window_succ, Nat.add_sub_cancel]
  · rw [if_neg hasked] at htally ⊢
    exact htally

theorem Knows.query (h : Knows s st v) (r : Fetched) : Knows s st (v.query q r) :=
  ⟨h.paused, h.checked, h.ever, h.picker⟩

/-- After a batch the round is over. -/
theorem InRound.rested_query (h : InRound s st order (q :: rest) v) (r : Fetched) :
    Rested s st (v.query q r) :=
  ⟨h.knows.query r, h.sound, h.tally_query r⟩

/-- Without a batch the next queue has its turn. -/
theorem InRound.next (h : InRound s st order (q :: rest) v) {r : Fetched} (hr : r.claimed = []) :
    InRound s st order rest (v.query q r) where
  knows := h.knows.query r
  sound := h.sound
  current := h.current
  pos := h.pos
  round := h.round
  asked := by
    intro hh
    rw [h.asked (Bool.or_eq_false_iff.mp hh).1, View.query, if_pos hr, List.append_assoc]
    rfl
  tally := by
    have hasked : (v.query q r).asked ≠ [] := by simp [View.query, hr]
    rw [if_neg hasked]
    exact h.tally_query r

/-- The query that blocks is not the first of its round. -/
theorem InRound.rested_await (h : InRound s st order [] v) (horder : order ≠ []) (r : Fetched) :
    Rested s st (v.query q r) := by
  refine ⟨h.knows.query r, h.sound, fun hs he hh => ?_⟩
  have hh' : v.hollow = false := (Bool.or_eq_false_iff.mp hh).1
  have hasked : v.asked ≠ [] := by
    intro hnil
    rw [h.asked hh', hnil] at horder
    exact horder rfl
  change (if v.asked = [] then v.firsts ++ [q] else v.firsts) = _
  rw [if_neg hasked]
  exact h.rested.tally hs he hh'

end Steps

section Loop
variable {s : Server} {st : LoopState}

/-- An instruction that shows nothing is always allowed. -/
theorem keeps_quiet {P : View → Prop}
    (hP : ∀ v, P v → ∃ n, v.rounds ≤ n + 1 ∧ n ≤ v.rounds ∧ v.Tally s n)
    (hc : ∀ block q count, c ≠ .dequeueBatch block q count) (hsee : ∀ v r, View.see v c r = v) :
    Keeps s P (exec c) fun _ => P := by
  refine .cmd (fun v hv => ⟨hP v hv, fun block q count h => absurd h (hc block q count)⟩) ?_
  intro v r hv
  rw [Prog.seeCalls_call, hsee]
  exact hv

theorem keeps_rested (hc : ∀ block q count, c ≠ .dequeueBatch block q count)
    (hsee : ∀ v r, View.see v c r = v) : Keeps s (Rested s st) (exec c) fun _ => Rested s st :=
  keeps_quiet (fun _ hv => hv.counts) hc hsee

theorem keeps_refreshPaused (picker : WRRPicker) :
    Keeps s (fun v => Knows s st v ∧ v.Sound ∧ Begun s picker v ∧ v.readings = 0) (refreshPaused st)
      fun st' v => Knows s st' v ∧ v.Sound ∧ Begun s picker v ∧ v.Current := by
  have hfirst : Keeps s (fun v => Knows s st v ∧ v.Sound ∧ Begun s picker v ∧ v.readings = 0)
      (exec .now) fun now v =>
        Knows s st v ∧ v.Sound ∧ Begun s picker v ∧ v.readings = 1 ∧ v.clock = now := by
    refine .cmd (fun v hv => ⟨hv.2.2.1.counts, by simp⟩) fun v now hv => ?_
    obtain ⟨hk, hsound, hb, hr⟩ := hv
    rw [Prog.seeCalls_call, View.see_now_first hr]
    exact ⟨⟨hk.1, hk.2, hk.3, hk.4⟩, hsound, ⟨hb.1, hb.2, hb.3, hb.4⟩, rfl, rfl⟩
  refine .bind hfirst fun now => .ite (fun hlt => ?_) fun _ => ?_
  · refine .pure fun v hv => ⟨hv.1, hv.2.1, hv.2.2.1, Or.inr ?_⟩
    rw [hv.2.2.2.2, hv.1.checked]
    exact hlt
  · have hsecond : Keeps s
        (fun v => Knows s st v ∧ v.Sound ∧ Begun s picker v ∧ v.readings = 1 ∧ v.clock = now)
        (exec .now) fun checked v =>
          Knows s { st with pausedChecked := checked } v ∧ Begun s picker v ∧ v.readings = 2 := by
      refine .cmd (fun v hv => ⟨hv.2.2.1.counts, by simp⟩) fun v checked hv => ?_
      obtain ⟨hk, -, hb, hr, -⟩ := hv
      rw [Prog.seeCalls_call, View.see_now_second hr]
      exact ⟨⟨hk.1, rfl, hk.3, hk.4⟩, ⟨hb.1, hb.2, hb.3, hb.4⟩, rfl⟩
    refine .bind hsecond fun checked => ?_
    have hlookup : Keeps s
        (fun v => Knows s { st with pausedChecked := checked } v ∧
          Begun s picker v ∧ v.readings = 2)
        (exec .pausedQueues) fun names v =>
          Knows s { st with pausedChecked := checked, paused := names.getD st.paused } v ∧ v.Sound ∧
            Begun s picker v ∧ v.Current := by
      refine .cmd (fun v hv => ⟨hv.2.1.counts, by simp⟩) fun v names hv => ?_
      obtain ⟨hk, hb, hr⟩ := hv
      cases names with
      | none =>
        exact ⟨⟨hk.1, hk.2, hk.3, hk.4⟩, fun h => Bool.noConfusion h, ⟨hb.1, hb.2, hb.3, hb.4⟩,
          Or.inl hr⟩
      | some names =>
        refine ⟨⟨rfl, hk.2, fun h => ?_, hk.4⟩, fun _ => rfl,
          ⟨hb.1, hb.2, hb.3, fun hs he => hb.4 hs (Bool.or_eq_false_iff.mp he).1⟩, Or.inl hr⟩
        have hempty := (Bool.or_eq_false_iff.mp h).2
        rw [Bool.not_eq_false', List.isEmpty_iff] at hempty
        exact hempty
    refine .bind hlookup fun names => ?_
    cases names with
    | none | some => exact .pure fun _ hv => hv

/-- One query that does not block. -/
theorem keeps_ask (batch : Int) (order rest : List String) (q : String) :
    Keeps s (InRound s st order (q :: rest)) (exec (.dequeueBatch (-1) q batch)) fun r v =>
      (r.claimed = [] → InRound s st order rest v) ∧ Rested s st v ∧
        (r = .tasks [] → v.hollow = true) := by
  refine .cmd (fun v hv => ⟨hv.counts, ?_⟩) fun v r hv =>
    ⟨hv.next, hv.rested_query r, fun hr => ?_⟩
  · rintro _ _ _ ⟨⟩
    exact ⟨fun hh => Or.inl ⟨rfl, rest, hv.round.trans (hv.asked hh)⟩, hv.current, hv.sound⟩
  · change (v.hollow || decide (r = .tasks [])) = true
    rw [hr, decide_eq_true rfl, Bool.or_true]

/-- The slot of a round is taken. -/
theorem Rested.enter (h : Rested s st v) :
    Knows s { st with picker := (s.nextOrder st.picker).2 } (v.enter true) ∧
      (v.enter true).Sound ∧ Begun s st.picker (v.enter true) ∧ (v.enter true).readings = 0 := by
  have hknows := h.knows
  refine ⟨⟨hknows.paused, hknows.checked, hknows.ever, fun hs => ?_⟩, h.sound,
    ⟨Nat.succ_pos _, rfl, ?_, h.tally⟩, rfl⟩
  · change (s.nextOrder st.picker).2 = (newWRRPicker s.cfg.queues).after (v.rounds + 1)
    rw [WRRPicker.after_succ, ← hknows.picker hs, Server.nextOrder, if_neg (by rw [hs]; decide)]
  · change _ = orderAt s v.rounds
    cases hs : s.cfg.strictPriority with
    | true => rw [orderAt_of_strict hs, Server.nextOrder, if_pos hs]
    | false => rw [orderAt, hknows.picker hs]

/-- The queues of a round, once the paused ones are known. -/
theorem InRound.start {st' : LoopState} (hknows : Knows s st' v) (hsound : v.Sound)
    (hbegun : Begun s st.picker v) (hcurrent : v.Current) :
    InRound s st' (roundOf s st st') (roundOf s st st') v where
  knows := hknows
  sound := hsound
  current := hcurrent
  pos := hbegun.pos
  round := by rw [roundOrder, hknows.paused, ← hbegun.order, roundOf]
  asked := fun _ => by rw [hbegun.asked, List.nil_append]
  tally := by
    rw [if_pos hbegun.asked]
    exact hbegun.tally

/-- A round in which all queues are paused asks none. -/
theorem Knows.rested (h : Knows s st v) (hsound : v.Sound) (hpaused : st.paused ≠ []) :
    Rested s st v :=
  ⟨h, hsound, fun _ he => absurd (h.paused.symm.trans (h.ever he)) hpaused⟩

/-- **The loop asks in order**: the outline. -/
def orderOutline (s : Server) :
    Outline s (Prog.seeCalls View.see) {} (Allows s) fun _ _ => True where
  Idle := Rested s
  Begun st v :=
    Knows s { st with picker := (s.nextOrder st.picker).2 } v ∧ v.Sound ∧ Begun s st.picker v ∧
      v.readings = 0
  Ready st st' v := Knows s st' v ∧ v.Sound ∧ Begun s st.picker v ∧ v.Current
  Asking st _ order rest := InRound s st order rest
  Holding := Rested s
  Carries st _ := Rested s st
  Rest st _ := Rested s st
  Short st _ := Rested s st
  ctxDone _ := keeps_rested (by simp) fun _ _ => rfl
  acquire st := by
    refine .cmd (fun v hv => ⟨hv.counts, by simp⟩) fun v taken hv => ?_
    cases taken with
    | true => exact hv.enter
    | false => exact hv
  refresh st := keeps_refreshPaused st.picker
  paused hv hpaused := hv.1.rested hv.2.1 hpaused
  pauseWait _ := keeps_rested (by simp) fun _ _ => rfl
  semLen _ _ := by
    refine (keeps_quiet (fun _ hv => hv.counts) (by simp) fun _ _ => rfl).mono (fun v hv => ?_)
      fun _ _ h => h
    exact InRound.start hv.1 hv.2.1 hv.2.2.1 hv.2.2.2
  ask st batch order rest q := by
    refine (keeps_ask batch order rest q).mono (fun _ hv => hv) fun r v hv => ?_
    match r with
    | .noTask => exact hv.1 rfl
    | .failed => exact ⟨hv.1 rfl, hv.2.1⟩
    | .tasks [] =>
      -- there is no such batch; the order is then not recorded any more
      have hnext := hv.1 rfl
      exact ⟨hnext.knows, hnext.sound, hnext.current, hnext.pos, hnext.round,
        fun hh => absurd (hv.2.2 rfl) (by rw [hh]; decide), hnext.tally⟩
    | .tasks (t :: ts) => exact hv.2.1
  ctxErr hv := ⟨⟨hv.counts, by simp⟩, fun _ => rfl⟩
  asked hv := hv.rested
  await st batch order hhead := by
    have horder : order ≠ [] := fun h => hhead (by rw [h]; rfl)
    refine .cmd (fun v hv => ⟨hv.counts, ?_⟩) fun v r hv => ?_
    · rintro _ _ _ ⟨⟩
      refine ⟨fun hh => Or.inr ⟨rfl, ?_, order.tail, ?_⟩, hv.current, hv.sound⟩
      · rw [hv.round, hv.asked hh, List.append_nil]
      · rw [hv.round]
        cases order with
        | nil => exact absurd rfl horder
        | cons q rest => rfl
    · split <;> exact hv.rested_await horder r
  release _ := keeps_rested (by simp) fun _ _ => rfl
  sleep _ := keeps_rested (by simp) fun _ _ => rfl
  start _ _ _ := .go (fun _ _ => trivial) fun _ hv => hv
  slotFor _ _ _ := (keeps_rested (by simp) fun _ _ => rfl).mono (fun _ hv => hv)
    fun taken _ hv => by
    cases taken <;> exact hv
  waitSlotFor _ _ _ := (keeps_rested (by simp) fun _ _ => rfl).mono (fun _ hv => hv)
    fun taken _ hv => by cases taken <;> exact hv
  requeue _ _ _ := keeps_rested (by simp) fun _ _ => rfl
  dispatched hv := hv
  requeued hv := hv

end Loop

/-! ## Every goroutine -/

/-- What the goroutines of a server may do.  A worker asks no queue. -/
def order (s : Server) : Discipline Instr Instr.Reply Goroutine where
  call := fun _ h c => Allows s (Trace.viewOf View.see {} h) c
  fork := fun _ _ _ => True
  done := fun _ _ => True

theorem allows_unseen {s : Server} (hc : ∀ block q count, c ≠ .dequeueBatch block q count) :
    Allows s {} c :=
  ⟨⟨0, Nat.zero_le _, Nat.le_refl _, fun _ _ _ => rfl⟩,
    fun block q count h => absurd h (hc block q count)⟩

/-- A goroutine that reads no clock and asks no queue stays at the first view. -/
theorem keeps_unseen {s : Server} (hc : ∀ block q count, c ≠ .dequeueBatch block q count)
    (hsee : ∀ v r, View.see v c r = v) :
    Keeps s (· = {}) (exec c) fun _ v => v = {} := by
  refine keeps_quiet ?_ hc hsee
  rintro _ rfl
  exact ⟨0, Nat.zero_le _, Nat.le_refl _, fun _ _ _ => rfl⟩

theorem keeps_run {s : Server} (p : Routine Unit) : Keeps s (· = {}) (run p) fun _ v => v = {} := by
  refine Triple.embed p ?_ (fun _ _ _ => trivial) (fun _ _ _ hv => hv) fun _ _ hv => hv
  rintro _ c rfl
  exact allows_unseen (by simp)

theorem keeps_worker {s : Server} (dt : Dequeued) :
    Keeps s (· = {}) (worker dt) fun _ v => v = {} := by
  refine .bind (keeps_unseen (by simp) fun _ _ => rfl) fun _ => .bind (keeps_run _) fun _ => ?_
  exact .bind (keeps_unseen (by simp) fun _ _ => rfl) fun _ =>
    keeps_unseen (by simp) fun _ _ => rfl

theorem rested_init (s : Server) : Rested s { picker := newWRRPicker s.cfg.queues } {} where
  knows := ⟨rfl, rfl, fun _ => rfl, fun _ => rfl⟩
  sound := fun _ => rfl
  tally := fun _ _ _ => rfl

/-! ## Which queue is ahead of which -/

section Ahead
variable (s : Server)

instance : Std.Total s.Before where
  total q q' := by
    unfold Server.Before
    dsimp only
    split <;> split
    · omega
    · omega
    · omega
    · exact Std.Total.total q q'

instance : IsTrans String s.Before where
  trans a b c hab hbc := by
    unfold Server.Before at *
    dsimp only at *
    split at hab <;> split at hbc <;> split
    all_goals first
      | omega
      | exact hab.trans hbc

theorem before_antisymm {q' : String} (h : s.Before q q') (h' : s.Before q' q) : q = q' := by
  unfold Server.Before at h h'
  dsimp only at h h'
  split at h <;> split at h'
  · omega
  · omega
  · omega
  · exact String.le_antisymm h h'

theorem pairwise_queuesByWeight : s.queuesByWeight.Pairwise s.Before :=
  List.pairwise_insertionSort s.Before s.queueNames

theorem mem_queuesByWeight : q ∈ s.queuesByWeight ↔ q ∈ s.queueNames :=
  (List.perm_insertionSort s.Before s.queueNames).mem_iff

theorem nodup_queuesByWeight : s.queuesByWeight.Nodup :=
  (List.perm_insertionSort s.Before s.queueNames).nodup_iff.mpr s.cfg.queues.nodup

/-- `q'` is asked before `q` in round `n`: it is the pick, or it has the larger weight, or
the smaller name. -/
def Ahead (n : Nat) (q' q : String) : Prop :=
  q' ≠ q ∧
    if s.cfg.strictPriority then s.Before q' q
    else q ≠ (newWRRPicker s.cfg.queues).pickAt n ∧
      (q' = (newWRRPicker s.cfg.queues).pickAt n ∨ s.Before q' q)

instance (n : Nat) (q' q : String) : Decidable (Ahead s n q' q) :=
  inferInstanceAs (Decidable (_ ∧ ite _ _ _))

/-- Nothing that is asked later is ahead. -/
theorem pairwise_orderAt (n : Nat) : (orderAt s n).Pairwise fun q q' => ¬ Ahead s n q' q := by
  cases hs : s.cfg.strictPriority with
  | true =>
    rw [orderAt_of_strict hs]
    refine (pairwise_queuesByWeight s).imp fun hbefore hahead => hahead.1 ?_
    have hback := hahead.2
    rw [if_pos hs] at hback
    exact before_antisymm s hback hbefore
  | false =>
    have hne : ¬ s.cfg.strictPriority = true := by rw [hs]; decide
    rw [orderAt_of_picks hs, List.pairwise_cons]
    constructor
    · intro q' _ hahead
      have hpick := hahead.2
      rw [if_neg hne] at hpick
      exact hpick.1 rfl
    · refine ((pairwise_queuesByWeight s).filter _).imp_of_mem fun {q q'} _ hq' hbefore hahead => ?_
      have hback := hahead.2
      rw [if_neg hne] at hback
      rcases hback.2 with hpick | hback
      · exact of_decide_eq_true (List.mem_filter.mp hq').2 hpick
      · exact hahead.1 (before_antisymm s hback hbefore)

variable {s}

/-- A pick is one of the queues. -/
theorem pickAt_mem (hq : s.cfg.queues.entries ≠ []) (n : Nat) :
    (newWRRPicker s.cfg.queues).pickAt n ∈ s.queueNames := by
  have hpos : 0 < s.cfg.queues.entries.length := List.length_pos_iff.mpr hq
  obtain ⟨bs, hbs⟩ := WRRPicker.exists_course (WRRPicker.sized_new s.cfg.queues) hpos
    (WRRPicker.counter_new s.cfg.queues _) n
  obtain ⟨b, hpick, -⟩ := WRRPicker.pick_round hbs.sized hpos
  have hlt : (b : Nat) < (newWRRPicker s.cfg.queues).names.length := by
    rw [(WRRPicker.sized_new s.cfg.queues).names]
    exact b.isLt
  rw [WRRPicker.pickAt, hpick, WRRPicker.name, hbs.names, List.getD_eq_getElem?_getD,
    List.getElem?_eq_getElem hlt, Option.getD_some]
  exact (WRRPicker.perm_names s.cfg.queues).mem_iff.mp (List.getElem_mem hlt)

theorem mem_orderAt (hq : s.cfg.queues.entries ≠ []) (n : Nat) :
    q ∈ orderAt s n ↔ q ∈ s.queueNames := by
  cases hs : s.cfg.strictPriority with
  | true => rw [orderAt_of_strict hs, mem_queuesByWeight]
  | false =>
    rw [orderAt_of_picks hs, List.mem_cons, List.mem_filter, mem_queuesByWeight, decide_eq_true_iff]
    constructor
    · rintro (rfl | hmem)
      · exact pickAt_mem hq n
      · exact hmem.1
    · intro hmem
      by_cases hpick : q = (newWRRPicker s.cfg.queues).pickAt n
      · exact Or.inl hpick
      · exact Or.inr ⟨hmem, hpick⟩

theorem nodup_orderAt (n : Nat) : (orderAt s n).Nodup := by
  cases hs : s.cfg.strictPriority with
  | true =>
    rw [orderAt_of_strict hs]
    exact nodup_queuesByWeight s
  | false =>
    rw [orderAt_of_picks hs, List.nodup_cons]
    refine ⟨fun hmem => ?_, (nodup_queuesByWeight s).filter _⟩
    exact of_decide_eq_true (List.mem_filter.mp hmem).2 rfl

theorem keptOrder_eq_filter (paused order : List String) :
    keptOrder paused order = order.filter (· ∉ paused) := by
  unfold keptOrder
  split
  · rename_i hnil
    rw [hnil, List.filter_eq_self.mpr]
    intro q _
    exact decide_eq_true List.not_mem_nil
  · rfl

theorem mem_roundOrder (hq : s.cfg.queues.entries ≠ []) :
    q ∈ roundOrder s v ↔ q ∈ s.queueNames ∧ q ∉ v.paused := by
  rw [roundOrder, keptOrder_eq_filter, List.mem_filter, mem_orderAt hq, decide_eq_true_iff]

theorem nodup_roundOrder (v : View) : (roundOrder s v).Nodup := by
  rw [roundOrder, keptOrder_eq_filter]
  exact (nodup_orderAt _).filter _

theorem pairwise_roundOrder (v : View) :
    (roundOrder s v).Pairwise fun q q' => ¬ Ahead s (v.rounds - 1) q' q := by
  rw [roundOrder, keptOrder_eq_filter]
  exact (pairwise_orderAt s _).filter _

/-- The next queue of a round: it was not asked yet, and what is ahead of it was. -/
theorem asked_of_ahead (hq : s.cfg.queues.entries ≠ [])
    (h : roundOrder s v = v.asked ++ q :: rest) :
    q ∉ v.asked ∧ ∀ q' ∈ s.queueNames, q' ∉ v.paused → Ahead s (v.rounds - 1) q' q →
      q' ∈ v.asked := by
  have hnodup := nodup_roundOrder (s := s) v
  have hpair := pairwise_roundOrder (s := s) v
  rw [h] at hnodup hpair
  constructor
  · intro hmem
    exact (List.nodup_append.mp hnodup).2.2 q hmem q List.mem_cons_self rfl
  · intro q' hname hpaused hahead
    have hmem : q' ∈ v.asked ++ q :: rest := h ▸ (mem_roundOrder hq).mpr ⟨hname, hpaused⟩
    rcases List.mem_append.mp hmem with hmem | hmem
    · exact hmem
    · rcases List.mem_cons.mp hmem with rfl | hmem
      · exact absurd rfl hahead.1
      · have hlater := (List.pairwise_append.mp hpair).2.1
        exact absurd hahead ((List.pairwise_cons.mp hlater).1 q' hmem)

end Ahead

end ChronosGo.FetchLoop.Rounds
