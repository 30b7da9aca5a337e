import ChronosGo.FetchSlots
import ChronosGo.Maintenance

/-! # How the goroutines of a server behave

Of the history of a goroutine only a little matters for the wait group, the channel `sem`
and the claimed tasks: its `Standing`.  The fetch loop hands each task that it has claimed
to a worker with a slot, or returns it to the stream, and a worker returns its slot once,
as in `FetchSlots`; every goroutine that the wait group counts ends with `wg.Done()`, and does
nothing between `wg.Add(1)` and the `go` statement that it is for (`obeys_conduct`).
-/
namespace ChronosGo.Lifecycle
open Interleaving
open FetchLoop (Dequeued Hold)

/-! ## The standing of a goroutine -/

abbrev History : Type := List (Event Instr Instr.Reply Job)

/-- What matters of the history of a goroutine: whether it is between `wg.Add(1)` and the
`go` statement, whether it has called `wg.Done()`, `Start` has returned, `s.cancel` was
called or `wg.Wait()` has returned, and what it holds. -/
structure Standing where
  adding : Bool := false
  done : Bool := false
  returned : Bool := false
  called : Bool := false
  waited : Bool := false
  hold : Hold := {}

def Standing.see (v : Standing) : Event Instr Instr.Reply Job → Standing
  | .call (.fetch c) r => { v with hold := v.hold.see (.call c r) }
  | .call .wgAdd _ => { v with adding := true }
  | .call .wgDone _ => { v with done := true }
  | .call (.started _) _ => { v with returned := true }
  | .call (.cancel _) _ => { v with called := true }
  | .call (.wgWait _) _ => { v with waited := true }
  | .call _ _ => v
  | .fork (.fetch j) => { v with adding := false, hold := v.hold.see (.fork j) }
  | .fork _ => { v with adding := false }

/-- The standing after a history. -/
def standing (h : History) : Standing := Prog.viewAfter Standing.see {} h

@[simp] theorem standing_snoc (h : History) (e : Event Instr Instr.Reply Job) :
    standing (h ++ [e]) = (standing h).see e := Prog.viewAfter_snoc _ _ _ _

/-- Neither about to start a goroutine nor at its end. -/
def Standing.Clear (v : Standing) : Prop := v.adding = false ∧ v.done = false

/-- The instructions of a goroutine. -/
inductive Works (v : Standing) : Job → Instr → Prop where
  | ensureGroup {rounds : Nat} {ticks : Loop → Nat} (h : v.returned = false) (q : String) :
      Works v (.start rounds ticks) (.ensureGroup q)
  | setCancel {rounds : Nat} {ticks : Loop → Nat} (h : v.returned = false) :
      Works v (.start rounds ticks) .setCancel
  | startAdd {rounds : Nat} {ticks : Loop → Nat} (h : v.returned = false) :
      Works v (.start rounds ticks) .wgAdd
  | started {rounds : Nat} {ticks : Loop → Nat} (h : v.returned = false) (ok : Bool) :
      Works v (.start rounds ticks) (.started ok)
  | cancel {call : Nat} : Works v (.shutdown call) (.cancel call)
  | awaitDone {call : Nat} : Works v (.shutdown call) (.awaitDone call)
  | wgWait {call : Nat} : Works v (.waiter call) (.wgWait call)
  | closeDone {call : Nat} (h : v.waited = true) : Works v (.waiter call) (.closeDone call)
  | fetch {n : Nat} {c : FetchLoop.Instr} (h : v.hold.Allows c) :
      Works v (.fetch (.fetchLoop n)) (.fetch c)
  | fetchDone {n : Nat} (h : v.hold.Idle) : Works v (.fetch (.fetchLoop n)) .wgDone
  | work {dt : Dequeued} {c : FetchLoop.Instr} (h : v.hold.released = false) (hc : c.OfWorker) :
      Works v (.fetch (.worker dt)) (.fetch c)
  | workDone {dt : Dequeued} (h : v.hold.released = true) : Works v (.fetch (.worker dt)) .wgDone
  | routine {r : ChronosGo.Job} {c : Cmd} : Works v (.fetch (.routine r)) (.fetch (.routine c))
  | routineDone {r : ChronosGo.Job} : Works v (.fetch (.routine r)) .wgDone
  | add {j : FetchLoop.Goroutine} : Works v (.fetch j) .wgAdd
  | loop {l : Loop} {n : Nat} {c : Instr} (h : c.OfLoop) : Works v (.loop l n) c
  | loopDone {l : Loop} {n : Nat} : Works v (.loop l n) .wgDone

/-- The goroutines that a goroutine starts. -/
inductive Launches (v : Standing) : Job → Job → Prop where
  | fetchLoop {rounds n : Nat} {ticks : Loop → Nat} (h : v.adding = true) :
      Launches v (.start rounds ticks) (.fetch (.fetchLoop n))
  | loop {rounds n : Nat} {ticks : Loop → Nat} {l : Loop} (h : v.adding = true) :
      Launches v (.start rounds ticks) (.loop l n)
  | waiter {call : Nat} (h : v.adding = false) (hc : v.called = true) :
      Launches v (.shutdown call) (.waiter call)
  | worker {n : Nat} {j : FetchLoop.Goroutine} (h : v.adding = true) (hs : v.hold.Starts j) :
      Launches v (.fetch (.fetchLoop n)) (.fetch j)
  | work {dt : Dequeued} {r : ChronosGo.Job} (h : v.adding = true) :
      Launches v (.fetch (.worker dt)) (.fetch (.routine r))
  | routine {r r' : ChronosGo.Job} (h : v.adding = true) :
      Launches v (.fetch (.routine r)) (.fetch (.routine r'))

/-- A goroutine that the wait group counts. -/
def Job.counted : Job → Bool
  | .fetch _ | .loop .. => true
  | .start .. | .shutdown _ | .waiter _ => false

/-- How a goroutine returns. -/
structure Standing.Ended (v : Standing) (j : Job) : Prop where
  adding : v.adding = false
  done : j.counted = true → v.done = true
  returned : ∀ rounds ticks, j = .start rounds ticks → v.returned = true

/-- What the goroutines of a server may do: nothing between `wg.Add(1)` and the `go`
statement, and nothing after `wg.Done()`, which is at the end of each that is counted. -/
def conduct : Discipline Instr Instr.Reply Job where
  call := fun j h c => (standing h).Clear ∧ Works (standing h) j c
  fork := fun j h j' => (standing h).done = false ∧ Launches (standing h) j j'
  done := fun j h => (standing h).Ended j

/-! ## The goroutines keep to it -/

section Conduct
variable {s : Server} {j : Job}
variable {rounds : Nat} {ticks : Loop → Nat}

abbrev Conducts {α : Type} (j : Job) (P : Standing → Prop) (p : Thread α)
    (Q : α → Standing → Prop) : Prop :=
  Triple Standing.see {} (fun v c => v.Clear ∧ Works v j c)
    (fun v j' => v.done = false ∧ Launches v j j') P p Q

/-- The part of a history that is of the fetch loop. -/
def fetchEvent : Event Instr Instr.Reply Job →
    Option (Event FetchLoop.Instr FetchLoop.Instr.Reply FetchLoop.Goroutine)
  | .call (.fetch c) r => some (.call c r)
  | .fork (.fetch j) => some (.fork j)
  | _ => none

theorem hold_eq (h : History) :
    (standing h).hold = Prog.viewAfter Hold.see {} (h.filterMap fetchEvent) := by
  induction h using List.reverseRecOn with
  | nil => rfl
  | append_singleton h e ih =>
    rw [standing_snoc, List.filterMap_append]
    cases e with
    | call c | fork c =>
      cases c with
      | fetch c =>
        change (standing h).hold.see _ = _
        rw [ih]
        exact (Prog.viewAfter_snoc _ _ _ _).symm
      | _ => exact ih.trans (congrArg _ (List.append_nil _).symm)

/-- **Lifting.**  What a part of the fetch loop keeps of its hold it keeps when each `go`
statement comes with its `wg.Add(1)`. -/
theorem conducts_lift {α : Type} {A : Hold → FetchLoop.Instr → Prop}
    {F : Hold → FetchLoop.Goroutine → Prop} {P : Hold → Prop} {p : FetchLoop.Thread α}
    {Q : α → Hold → Prop} (hp : Triple Hold.see {} A F P p Q)
    (hA : ∀ v c, A v.hold c → Works v j (.fetch c)) (hadd : ∀ v, Works v j .wgAdd)
    (hF : ∀ v j', v.adding = true → F v.hold j' → Launches v j (.fetch j')) :
    Conducts j (fun v => v.Clear ∧ P v.hold) (lift p) fun a v => v.Clear ∧ Q a v.hold := by
  rintro h ⟨hclear, hP⟩
  have hfollows := hp (h.filterMap fetchEvent) (hold_eq h ▸ hP)
  clear hP hp
  change (standing h).Clear at hclear
  induction p generalizing h with
  | pure a =>
    refine ⟨hclear, ?_⟩
    change Q a (standing h).hold
    rw [hold_eq]
    exact hfollows
  | call c k ih =>
    refine ⟨⟨hclear, hA _ c ?_⟩, fun r => ih r _ ?_ ?_⟩
    · change A (standing h).hold c
      rw [hold_eq]
      exact hfollows.1
    · rw [List.filterMap_append]
      exact hfollows.2 r
    · rw [standing_snoc]
      exact hclear
  | fork j' p ih =>
    have hstarts : F (standing h).hold j' := by
      rw [hold_eq]
      exact hfollows.1
    refine ⟨⟨hclear, hadd _⟩, fun _ => ⟨?_, ih _ ?_ ?_⟩⟩
    · change (standing (h ++ _)).done = false ∧ Launches (standing (h ++ _)) j _
      rw [standing_snoc]
      exact ⟨hclear.2, hF _ j' rfl hstarts⟩
    · rw [List.filterMap_append, List.filterMap_append, List.append_assoc]
      exact hfollows.2
    · rw [standing_snoc, standing_snoc]
      exact ⟨rfl, hclear.2⟩

/-- The last call of a goroutine that is counted. -/
theorem conducts_wgDone {P : Standing → Prop} (hP : ∀ v, P v → v.Clear)
    (hw : ∀ v, P v → Works v j .wgDone) :
    Conducts j P (exec .wgDone) fun _ v => v.adding = false ∧ v.done = true :=
  .cmd (fun v hv => ⟨hP v hv, hw v hv⟩) fun v _ hv => ⟨(hP v hv).1, rfl⟩

/-- The fetch loop does what its hold allows, which is a part of its ledger. -/
theorem holds_fetchLoop (s : Server) (rounds : Nat) (st : FetchLoop.LoopState) :
    Triple Hold.see {} Hold.Allows Hold.Starts Hold.Idle (FetchLoop.fetchLoop s rounds st)
      fun _ => Hold.Idle :=
  Triple.map (f := FetchLoop.Ledger.toHold) (FetchLoop.keeps_fetchLoop rounds st)
    (fun _ _ => rfl) (fun _ _ h => h.1) fun _ _ h => h

theorem conducts_fetchLoop (rounds : Nat) :
    Conducts (.fetch (.fetchLoop rounds)) (· = {}) (fetch s (.fetchLoop rounds))
      fun _ v => v.adding = false ∧ v.done = true := by
  refine .bind ((conducts_lift (j := .fetch (.fetchLoop rounds)) (holds_fetchLoop s rounds _)
    (fun _ _ hc => .fetch hc) (fun _ => .add) fun _ _ ha hj => .worker ha hj).mono ?_
      fun _ _ h => h) fun _ => ?_
  · rintro _ rfl
    exact ⟨⟨rfl, rfl⟩, rfl, rfl⟩
  · exact conducts_wgDone (fun v hv => hv.1) fun v hv => .fetchDone hv.2

theorem conducts_worker (dt : Dequeued) :
    Conducts (.fetch (.worker dt)) (· = {}) (fetch s (.worker dt))
      fun _ v => v.adding = false ∧ v.done = true := by
  refine .bind ((conducts_lift (j := .fetch (.worker dt)) (FetchLoop.holds_worker dt)
    (fun _ _ hc => .work hc.1 hc.2) (fun _ => .add) fun _ _ _ h => h.elim).mono ?_
      fun _ _ h => h) fun _ => ?_
  · rintro _ rfl
    exact ⟨⟨rfl, rfl⟩, rfl⟩
  · exact conducts_wgDone (fun v hv => hv.1) fun v hv => .workDone hv.2

theorem conducts_routine (r : ChronosGo.Job) :
    Conducts (.fetch (.routine r)) (· = {}) (fetch s (.routine r))
      fun _ v => v.adding = false ∧ v.done = true := by
  have hrun : Triple Hold.see {} (fun _ c => ∃ c', c = .routine c')
      (fun _ j => ∃ j', j = .routine j') (fun _ => True) (FetchLoop.run r.start) fun _ _ => True :=
    Triple.embed _ (fun _ c _ => ⟨c, rfl⟩) (fun _ j _ => ⟨j, rfl⟩) (fun _ _ _ hv => hv)
      fun _ _ hv => hv
  refine .bind ((conducts_lift (j := .fetch (.routine r)) hrun ?_ (fun _ => .add) ?_).mono ?_
    fun _ _ h => h) fun _ => conducts_wgDone (fun v hv => hv.1) fun _ _ => .routineDone
  · rintro v _ ⟨c', rfl⟩
    exact .routine
  · rintro v _ ha ⟨j', rfl⟩
    exact .routine ha
  · rintro _ rfl
    exact ⟨⟨rfl, rfl⟩, trivial⟩

/-- A loop with a ticker has its own instructions, which do not change its standing. -/
theorem conducts_loop (l : Loop) (ticks : Nat) :
    Conducts (.loop l ticks) (· = {}) (loop s l ticks)
      fun _ v => v.adding = false ∧ v.done = true := by
  have hticking : (ticking l (pass s l) ticks).Follows (fun _ c => c.OfLoop) (fun _ _ => False)
      (fun _ _ => True) [] :=
    (keeps_ticking l ticks [] (atSelect_init s l)).weaken (fun _ _ hc => hc.ofLoop) (fun _ _ h => h)
      fun _ _ _ => trivial
  have hclear : Conducts (.loop l ticks) Standing.Clear (ticking l (pass s l) ticks)
      fun _ => Standing.Clear := by
    refine Triple.of_commands hticking (fun v c hv hc => ⟨hv, .loop hc⟩) fun v c r hv hc => ?_
    cases c with
    | fetch | wgAdd | wgDone | started | cancel | wgWait => exact hc.elim
    | _ => exact hv
  refine .bind (hclear.mono ?_ fun _ _ h => h) fun _ =>
    conducts_wgDone (fun _ hv => hv) fun _ _ => .loopDone
  rintro _ rfl
  exact ⟨rfl, rfl⟩

/-! `Start` and `Shutdown`. -/

/-- `Start` has not returned. -/
def Standing.Starting (v : Standing) : Prop := v.Clear ∧ v.returned = false

/-- `Start` has returned. -/
def Standing.Up (v : Standing) : Prop := v.adding = false ∧ v.returned = true

theorem conducts_ensureGroups (qs : List String) :
    Conducts (.start rounds ticks) Standing.Starting (ensureGroups qs)
      fun _ => Standing.Starting := by
  induction qs with
  | nil => exact .pure fun _ hv => hv
  | cons q qs ih =>
    have hensure : Conducts (.start rounds ticks) Standing.Starting (exec (.ensureGroup q))
        fun _ => Standing.Starting :=
      .cmd (fun v hv => ⟨hv.1, .ensureGroup hv.2 q⟩) fun _ _ hv => hv
    exact .bind hensure fun ok => .ite (fun _ => ih) fun _ => .pure fun _ hv => hv

theorem conducts_launch
    (hj : ∀ v : Standing, v.adding = true → Launches v (.start rounds ticks) j) :
    Conducts (.start rounds ticks) Standing.Starting (launch j) fun _ => Standing.Starting := by
  have hadd : Conducts (.start rounds ticks) Standing.Starting (exec .wgAdd)
      fun _ v => v.adding = true ∧ v.done = false ∧ v.returned = false :=
    .cmd (fun _ hv => ⟨hv.1, .startAdd hv.2⟩) fun _ _ hv => ⟨rfl, hv.1.2, hv.2⟩
  refine .bind hadd fun _ => .go (fun v hv => ⟨hv.2.1, hj v hv.1⟩) fun _ hv => ?_
  cases j <;> exact ⟨⟨rfl, hv.2.1⟩, hv.2.2⟩

theorem conducts_started (ok : Bool) :
    Conducts (.start rounds ticks) Standing.Starting (exec (.started ok)) fun _ => Standing.Up :=
  .cmd (fun _ hv => ⟨hv.1, .started hv.2 ok⟩) fun _ _ hv => ⟨hv.1.1, rfl⟩

theorem conducts_start (rounds : Nat) (ticks : Loop → Nat) :
    Conducts (.start rounds ticks) Standing.Starting (start s rounds ticks)
      fun _ => Standing.Up := by
  have hset : Conducts (.start rounds ticks) Standing.Starting (exec .setCancel)
      fun _ => Standing.Starting :=
    .cmd (fun v hv => ⟨hv.1, .setCancel hv.2⟩) fun _ _ hv => hv
  have hloop : ∀ l : Loop, Conducts (.start rounds ticks) Standing.Starting
      (launch (.loop l (ticks l))) fun _ => Standing.Starting :=
    fun l => conducts_launch fun _ => .loop
  refine .ite (fun _ => conducts_started false) fun _ => ?_
  refine .bind (conducts_ensureGroups _) fun ok =>
    .ite (fun _ => ?_) fun _ => conducts_started false
  refine .bind hset fun _ => .bind (conducts_launch fun _ => .fetchLoop) fun _ => ?_
  refine .bind (hloop .forwarder) fun _ => .bind (hloop .recoverer) fun _ => ?_
  exact .bind (hloop .heartbeater) fun _ => .bind (hloop .janitor) fun _ => conducts_started true

theorem conducts_shutdown (call : Nat) :
    Conducts (.shutdown call) Standing.Clear (shutdown call) fun _ v => v.adding = false := by
  have hcancel : Conducts (.shutdown call) Standing.Clear (exec (.cancel call))
      fun _ v => v.Clear ∧ v.called = true :=
    .cmd (fun _ hv => ⟨hv, .cancel⟩) fun _ _ hv => ⟨hv, rfl⟩
  have hawait : Conducts (.shutdown call) Standing.Clear (exec (.awaitDone call))
      fun _ => Standing.Clear :=
    .cmd (fun _ hv => ⟨hv, .awaitDone⟩) fun _ _ hv => hv
  have hgo : Conducts (.shutdown call) (fun v => v.Clear ∧ v.called = true)
      (Prog.go (.waiter call)) fun _ => Standing.Clear :=
    .go (fun v hv => ⟨hv.1.2, .waiter hv.1.1 hv.2⟩) fun v hv => ⟨rfl, hv.1.2⟩
  refine .bind hcancel fun _ => .bind hgo fun _ => .bind hawait fun _ => ?_
  exact .pure fun _ hv => hv.1

theorem conducts_waiter (call : Nat) :
    Conducts (.waiter call) Standing.Clear (waiter call) fun _ v => v.adding = false := by
  have hwait : Conducts (.waiter call) Standing.Clear (exec (.wgWait call))
      fun _ v => v.Clear ∧ v.waited = true :=
    .cmd (fun _ hv => ⟨hv, .wgWait⟩) fun _ _ hv => ⟨hv, rfl⟩
  refine .bind hwait fun _ => ?_
  exact .cmd (fun _ hv => ⟨hv.1, .closeDone hv.2⟩) fun _ _ hv => hv.1.1

end Conduct

theorem follows_of_conducts {j : Job} {P : Standing → Prop} {p : Thread Unit}
    (hp : Conducts j P p fun _ v => v.Ended j) (h0 : P {}) :
    p.Follows (conduct.call j) (conduct.fork j) (fun h _ => conduct.done j h) [] := hp [] h0

/-- **The goroutines of a server keep to it**, whatever they are answered. -/
theorem obeys_conduct (s : Server) : (machine s).Obeys conduct := by
  have hcounted : ∀ {j : Job}, (∀ rounds ticks, j ≠ .start rounds ticks) →
      Conducts j (· = {}) (j.code s) (fun _ v => v.adding = false ∧ v.done = true) →
      Conducts j (· = {}) (j.code s) fun _ v => v.Ended j :=
    fun hne hp => hp.mono (fun _ h => h) fun _ _ hv =>
      ⟨hv.1, fun _ => hv.2, fun rounds ticks h => absurd h (hne rounds ticks)⟩
  intro j
  cases j with
  | start rounds ticks =>
    refine follows_of_conducts ((conducts_start rounds ticks).mono (fun _ h => h) fun _ v hv => ?_)
      ⟨⟨rfl, rfl⟩, rfl⟩
    exact ⟨hv.1, fun h => absurd h Bool.false_ne_true, fun _ _ _ => hv.2⟩
  | shutdown call =>
    refine follows_of_conducts ((conducts_shutdown call).mono (fun _ h => h) fun _ v hv => ?_)
      ⟨rfl, rfl⟩
    exact ⟨hv, fun h => absurd h Bool.false_ne_true, by simp⟩
  | waiter call =>
    refine follows_of_conducts ((conducts_waiter call).mono (fun _ h => h) fun _ v hv => ?_)
      ⟨rfl, rfl⟩
    exact ⟨hv, fun h => absurd h Bool.false_ne_true, by simp⟩
  | fetch j =>
    cases j with
    | fetchLoop rounds =>
      exact follows_of_conducts (hcounted (by simp) (conducts_fetchLoop rounds)) rfl
    | worker dt => exact follows_of_conducts (hcounted (by simp) (conducts_worker dt)) rfl
    | routine r => exact follows_of_conducts (hcounted (by simp) (conducts_routine r)) rfl
  | loop l ticks => exact follows_of_conducts (hcounted (by simp) (conducts_loop l ticks)) rfl

end ChronosGo.Lifecycle
