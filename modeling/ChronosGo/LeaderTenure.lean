import ChronosGo.Leadership
import Mathlib.Data.List.Nodup

/-! # What a scheduler does with its leadership

The goroutine of a scheduler acts on what it was told: it makes a pass only if the last
answer to an election made it leader, and it asks for leadership only after a look at
its context.  Here the program is replaced by its history, a `Seat` keeps what matters
of that, and `Seated` says how the seat and the fields of the scheduler agree while
`Shutdown` works on the same fields.
-/
namespace ChronosGo.Leadership
open Interleaving Lease
open Slot (ttlMillis)

variable {s : Scheduler} {ss : List Scheduler} {timely : World → Int → Prop}
  {turns : Scheduler → Nat}

/-- How far the goroutine has come: it has not registered yet, it is in its loop, it has
seen that its context is not cancelled, it has returned. -/
inductive Stage where
  | fresh
  | up
  | cleared
  | ended
deriving DecidableEq

/-- What the goroutine knows: the last answer to an election, what it stored in the flag,
and what it has read from the flag since the last wake-up. -/
structure Seat where
  stage : Stage := .fresh
  answer : Option Bool := none
  flag : Bool := false
  leads : Bool := false

def Seat.see (v : Seat) : (c : Instr) → c.Reply → Seat
  | .start _, _ => { v with stage := .up }
  | .select _, _ => { v with leads := false }
  | .ctxErr _, cancelled => { v with stage := if cancelled then .up else .cleared }
  | .acquireOrRenew _ _, r => { v with stage := .up, answer := r.or v.answer, leads := false }
  | .swapLeader _, _ => { v with flag := true }
  | .storeLeader _, _ => { v with flag := false }
  | .loadLeader _, b => { v with leads := b }
  | .wgDone _, _ => { v with stage := .ended }
  | _, _ => v

/-- The flag is what the last answer says. -/
def Seat.InSync (v : Seat) : Prop := v.flag = true ↔ v.answer = some true

abbrev History := List (Event Instr Instr.Reply Job)

/-- The seat after a history. -/
def seatOf (h : History) : Seat := Trace.viewOf Seat.see {} h

@[simp] theorem seatOf_call (h : History) (c : Instr) (r : c.Reply) :
    seatOf (h ++ [.call c r]) = (seatOf h).see c r :=
  Trace.viewOf_call _ _ _ _ _

/-- What a goroutine may do. -/
inductive Justified : Job → Seat → Instr → Prop
  | registry {s : Scheduler} {n : Nat} {v : Seat} {c : Registry.Cmd} (hv : v.stage ≠ .ended) :
      Justified (.run s n) v (.registry c)
  | start {s : Scheduler} {n : Nat} {v : Seat} (hv : v.stage = .fresh) :
      Justified (.run s n) v (.start s.id)
  | select {s : Scheduler} {n : Nat} {v : Seat} (hv : v.stage = .up) :
      Justified (.run s n) v (.select s.id)
  | ctxErr {s : Scheduler} {n : Nat} {v : Seat} (hv : v.stage = .up) :
      Justified (.run s n) v (.ctxErr s.id)
  | elect {s : Scheduler} {n : Nat} {v : Seat} (hv : v.stage = .cleared) :
      Justified (.run s n) v (.acquireOrRenew s.id s.leaderTTL)
  | lead {s : Scheduler} {n : Nat} {v : Seat} (hv : v.stage = .up) :
      Justified (.run s n) v (.swapLeader s.id)
  | follow {s : Scheduler} {n : Nat} {v : Seat} (hv : v.stage = .up) :
      Justified (.run s n) v (.storeLeader s.id)
  | load {s : Scheduler} {n : Nat} {v : Seat} (hv : v.stage = .up) (hsync : v.InSync) :
      Justified (.run s n) v (.loadLeader s.id)
  | pass {s : Scheduler} {n : Nat} {v : Seat} {c : ChronosGo.Scheduler.Cmd}
      (hv : v.stage = .up) (hl : v.leads = true) : Justified (.run s n) v (.pass s.id c)
  | wgDone {s : Scheduler} {n : Nat} {v : Seat} (hv : v.stage = .up) :
      Justified (.run s n) v (.wgDone s.id)
  | cancel {s : Scheduler} {v : Seat} : Justified (.shutdown s) v (.cancel s.id)
  | look {s : Scheduler} {v : Seat} : Justified (.shutdown s) v (.loadLeader s.id)
  | resign {s : Scheduler} {v : Seat} : Justified (.shutdown s) v (.resign s.id)
  | publish {s : Scheduler} {v : Seat} : Justified (.shutdown s) v (.publish s.id)
  | wait {s : Scheduler} {v : Seat} : Justified (.shutdown s) v (.wait s.id)
  | registryPart {j : Registry.Job} {v : Seat} {c : Instr} : Justified (.registry j) v c
  | passPart {id : String} {j : ChronosGo.Scheduler.Job} {v : Seat} {c : Instr} :
      Justified (.pass id j) v c

/-- The discipline of the goroutines; none of `run` and `Shutdown` starts another. -/
def protocol : Discipline Instr Instr.Reply Job where
  call := fun j h c => Justified j (seatOf h) c
  fork := fun j _ _ => (∀ s n, j ≠ .run s n) ∧ ∀ s, j ≠ .shutdown s
  done := fun _ _ => True

/-! ## The programs keep to it -/

variable {v : Seat}

section Obeyed
variable {n : Nat} {h : History}

abbrev Keeps {α : Type} (j : Job) (S : History → α → Prop) (h : History) (p : Thread α) : Prop :=
  p.Follows (protocol.call j) (protocol.fork j) S h

/-- The seat between two wake-ups. -/
def Idle (h : History) : Prop := (seatOf h).stage = .up ∧ (seatOf h).InSync

theorem keeps_tryElect (hi : Idle h) : Keeps (.run s n) (fun h' _ => Idle h') h s.tryElect := by
  obtain ⟨hup, hsync⟩ := hi
  refine ⟨.ctxErr hup, fun cancelled => ?_⟩
  cases cancelled with
  | true =>
    change Idle _
    simp only [Idle, seatOf_call]
    exact ⟨rfl, hsync⟩
  | false =>
    refine ⟨.elect (by rw [seatOf_call]; rfl), fun r => ?_⟩
    match r with
    | none =>
      change Idle _
      simp only [Idle, seatOf_call]
      exact ⟨rfl, hsync⟩
    | some true =>
      refine ⟨.lead (by rw [seatOf_call]; rfl), fun _ => ?_⟩
      change Idle _
      simp only [Idle, seatOf_call]
      exact ⟨rfl, Iff.intro (fun _ => rfl) fun _ => rfl⟩
    | some false =>
      refine ⟨.follow (by rw [seatOf_call]; rfl), fun _ => ?_⟩
      change Idle _
      simp only [Idle, seatOf_call]
      exact ⟨rfl, by simp [Seat.InSync, Seat.see]⟩

/-- Requests of the registry are always in order, and leave the seat as it is. -/
theorem keeps_registry {p : Registry.Routine Unit} (hv : v.stage ≠ .ended)
    (hp : Registry.Keeps [] p) (hh : seatOf h = v) :
    Keeps (.run s n) (fun h' _ => seatOf h' = v) h (registry p) := by
  refine Prog.Follows.embed hp hh (fun h c hh => ?_) (fun h c r hh => ?_)
  · exact .registry (by rw [hh]; exact hv)
  · rw [seatOf_call, hh]
    rfl

/-- A pass is in order while the scheduler has read that it leads. -/
theorem keeps_fireDue (hup : v.stage = .up) (hleads : v.leads = true) (hh : seatOf h = v) :
    Keeps (.run s n) (fun h' _ => seatOf h' = v) h s.fireDue := by
  have hpass : ChronosGo.Scheduler.Keeps ⟨s.leaderTTL, s.entries.map Entry.toScheduleEntry, 1⟩
      (fun _ _ => True) []
      (ChronosGo.Scheduler.fireDue s.leaderTTL (s.entries.map Entry.toScheduleEntry)) :=
    ⟨.now, fun now => ChronosGo.Scheduler.keeps_fireEntries (fun _ he => he) (by simp; rfl)⟩
  refine Prog.Follows.embed hpass hh (fun h c hh => ?_) (fun h c r hh => ?_)
  · exact .pass (by rw [hh]; exact hup) (by rw [hh]; exact hleads)
  · rw [seatOf_call, hh]
    rfl

theorem keeps_loop (turns : Nat) (hi : Idle h) :
    Keeps (.run s n) (fun _ _ => True) h (s.loop turns) := by
  induction turns generalizing h with
  | zero => trivial
  | succ turns ih =>
    obtain ⟨hup, hsync⟩ := hi
    refine ⟨.select hup, fun wake => ?_⟩
    have hidle : Idle (h ++ [.call (.select s.id) wake]) :=
      ⟨by simpa [Seat.see] using hup, by simpa [Seat.see, Seat.InSync] using hsync⟩
    -- parts that leave the seat as it is lead back to the loop
    have hsame : ∀ {p : Thread Unit} {h' : History}, Idle h' →
        Keeps (.run s n) (fun h'' _ => seatOf h'' = seatOf h') h' p →
        Keeps (.run s n) (fun h'' _ => Idle h'') h' p := by
      intro p h' hi hp
      refine hp.mono fun h'' _ heq => ?_
      rw [Idle, heq]
      exact hi
    have hnot : ∀ {h' : History}, Idle h' → (seatOf h').stage ≠ .ended := by
      intro h' hi
      rw [hi.1]
      decide
    match wake with
    | .done => exact ⟨.wgDone hidle.1, fun _ => trivial⟩
    | .renew =>
      refine (keeps_tryElect hidle).bind fun h₁ _ h₁i => ?_
      refine (hsame h₁i (keeps_registry (hnot h₁i) (Registry.keeps_touchSchedules _) rfl)).bind
        fun h₂ _ h₂i => ?_
      exact (hsame h₂i (keeps_registry (hnot h₂i) (Registry.keeps_pruneRegistry _) rfl)).bind
        fun h₃ _ h₃i => ih h₃i
    | .resign => exact (keeps_tryElect hidle).bind fun h₁ _ h₁i => ih h₁i
    | .tick =>
      refine ⟨.load hidle.1 hidle.2, fun b => ?_⟩
      have hidle' : Idle (h ++ [.call (.select s.id) .tick] ++ [.call (.loadLeader s.id) b]) := by
        rw [Idle, seatOf_call]
        exact hidle
      cases b with
      | true =>
        exact (hsame hidle' (keeps_fireDue hidle'.1 (by rw [seatOf_call]; rfl) rfl)).bind
          fun h₁ _ h₁i => ih h₁i
      | false => exact ih hidle'

theorem keeps_start (turns : Nat) : Keeps (.run s n) (fun _ _ => True) [] (s.start turns) := by
  refine (keeps_registry (v := {}) (by decide) (Registry.keeps_registerSchedules _) rfl).bind
    fun h₁ _ hh₁ => ?_
  refine (keeps_registry (v := {}) (by decide) (Registry.keeps_pruneRegistry _) hh₁).bind
    fun h₂ _ hh₂ => ?_
  refine ⟨.start (by rw [hh₂]), fun r => ?_⟩
  refine (keeps_tryElect ?_).bind fun h₃ _ h₃i => keeps_loop turns h₃i
  rw [Idle, seatOf_call, hh₂]
  exact ⟨rfl, by simp [Seat.InSync, Seat.see]⟩

theorem keeps_shutdown : Keeps (.shutdown s) (fun _ _ => True) [] s.shutdown := by
  refine ⟨.cancel, fun _ => ⟨.look, fun leads => ?_⟩⟩
  cases leads with
  | true =>
    refine ⟨.resign, fun r => ?_⟩
    match r with
    | none => exact ⟨.wait, fun _ => trivial⟩
    | some _ => exact ⟨.publish, fun _ => ⟨.wait, fun _ => trivial⟩⟩
  | false => exact ⟨.wait, fun _ => trivial⟩

end Obeyed

theorem machine_obeys (timely : World → Int → Prop) : (machine timely).Obeys protocol := by
  intro j
  cases j with
  | run s turns => exact keeps_start turns
  | shutdown s => exact keeps_shutdown
  | registry j =>
    exact Prog.follows_of_forall (I := fun _ => True) trivial (fun _ _ _ => .registryPart)
      (fun _ _ _ => ⟨by simp, by simp⟩) (fun _ _ _ => trivial)
      fun _ _ _ => trivial
  | pass id j =>
    exact Prog.follows_of_forall (I := fun _ => True) trivial (fun _ _ _ => .passPart)
      (fun _ _ _ => ⟨by simp, by simp⟩) (fun _ _ _ => trivial)
      fun _ _ _ => trivial

/-! ## Seats and fields -/

/-- `Shutdown` has returned without an error, after `Start`. -/
def HasStopped : List Deed → Prop
  | [] => False
  | d :: l => HasStopped l ∨ (d = .stopped ∧ Deed.started ∈ l)

/-- A scheduler asks for leadership only before it has stopped, and makes passes only
then and as the leader. -/
def Deed.InOrder (l : List Deed) : Deed → Prop
  | .election _ _ _ _ => ¬ HasStopped l
  | .pass => ¬ HasStopped l ∧ lastAnswer l = some true
  | _ => True

/-- The fields of a scheduler agree with what its goroutine knows. -/
structure Seated (f : Fields) (v : Seat) : Prop where
  flag : f.isLeader = v.flag
  answer : lastAnswer f.log = v.answer
  leads : v.leads = true → v.answer = some true
  cancelled : Deed.cancellation ∈ f.log → f.cancelled = true
  /-- An election that a look at the context has cleared counts already. -/
  late : lateElections f.log +
    (if v.stage = .cleared ∧ Deed.cancellation ∈ f.log then 1 else 0) ≤ 1
  wg : f.wg = if v.stage = .up ∨ v.stage = .cleared then 1 else 0
  started : Deed.started ∈ f.log → v.stage ≠ .fresh
  stopped : HasStopped f.log → v.stage = .ended
  inOrder : ∀ l₂ d l₁, f.log = l₂ ++ d :: l₁ → d.InOrder l₁

theorem lateElections_eq_zero {l : List Deed} (h : Deed.cancellation ∉ l) :
    lateElections l = 0 := by
  induction l with
  | nil => rfl
  | cons d l ih =>
    have hl : Deed.cancellation ∉ l := fun hd => h (List.mem_cons_of_mem d hd)
    simp [lateElections, ih hl, hl]

/-- The elections after a cancellation are late. -/
theorem count_le_lateElections (l₂ l₁ : List Deed) :
    (l₂.filter Deed.isElection).length ≤ lateElections (l₂ ++ .cancellation :: l₁) := by
  induction l₂ with
  | nil => exact Nat.zero_le _
  | cons d l₂ ih =>
    have hmem : Deed.cancellation ∈ l₂ ++ .cancellation :: l₁ := by simp
    rw [List.cons_append, lateElections, List.filter_cons]
    by_cases hd : d.isElection = true
    · rw [if_pos hd, if_pos ⟨hd, hmem⟩]
      simpa using ih
    · rw [if_neg hd]
      omega

section Seated
variable {f : Fields}

theorem seated_init : Seated {} {} where
  flag := rfl
  answer := rfl
  leads := fun h => absurd h (by decide)
  cancelled := fun h => absurd h List.not_mem_nil
  late := by decide
  wg := by decide
  started := fun h => absurd h List.not_mem_nil
  stopped := False.elim
  inOrder := fun l₂ d l₁ h => by
    have hlen := congrArg List.length h
    simp at hlen

/-- A new deed is in order if it is so after the older ones. -/
theorem inOrder_record (h : ∀ l₂ d l₁, f.log = l₂ ++ d :: l₁ → d.InOrder l₁) {d : Deed}
    (hd : d.InOrder f.log) : ∀ l₂ e l₁, (f.record d).log = l₂ ++ e :: l₁ → e.InOrder l₁ := by
  intro l₂ e l₁ heq
  cases l₂ with
  | nil =>
    obtain ⟨rfl, rfl⟩ := List.cons.inj heq
    exact hd
  | cons e' l₂ =>
    obtain ⟨-, heq⟩ := List.cons.inj heq
    exact h l₂ e l₁ heq

section
variable (h : Seated f v)
include h

theorem Seated.not_stopped (hv : v.stage ≠ .ended) : ¬ HasStopped f.log :=
  fun hs => hv (h.stopped hs)

/-- The context is cancelled, by `Shutdown` or by the caller of `Start`. -/
theorem Seated.cancelRun :
    Seated ({ f with cancelled := true }.record .cancellation) v where
  flag := h.flag
  answer := h.answer
  leads := h.leads
  cancelled := fun _ => rfl
  late := by
    have hlate := h.late
    change lateElections f.log + 0 + _ ≤ 1
    by_cases hmem : Deed.cancellation ∈ f.log
    · simpa [Fields.record, hmem] using hlate
    · rw [lateElections_eq_zero hmem]
      split <;> omega
  wg := h.wg
  started := fun hm => h.started (by simpa [Fields.record] using hm)
  stopped := fun hs => h.stopped (by simpa [Fields.record, HasStopped] using hs)
  inOrder := inOrder_record (f := { f with cancelled := true }) h.inOrder trivial

/-- A deed that is neither an election nor a cancellation nor a start. -/
theorem Seated.record {d : Deed} (hd : d.InOrder f.log) (hel : d.isElection = false)
    (hnew : d ≠ .cancellation ∧ d ≠ .started)
    (hanswer : lastAnswer (d :: f.log) = lastAnswer f.log)
    (hstop : d = .stopped → Deed.started ∈ f.log → v.stage = .ended) : Seated (f.record d) v where
  flag := h.flag
  answer := hanswer.trans h.answer
  leads := h.leads
  cancelled := fun hm => h.cancelled (by simpa [Fields.record, hnew.1.symm] using hm)
  late := by simpa [Fields.record, lateElections, hel, hnew.1.symm] using h.late
  wg := h.wg
  started := fun hm => h.started (by simpa [Fields.record, hnew.2.symm] using hm)
  stopped := fun hs => by
    rcases hs with hs | ⟨rfl, hs⟩
    · exact h.stopped hs
    · exact hstop rfl hs
  inOrder := inOrder_record h.inOrder hd

theorem Seated.resign : Seated (f.record .resignation) v :=
  h.record trivial rfl (by decide) rfl (by simp)

/-- `Shutdown` returns when the wait group is empty. -/
theorem Seated.stop (hwg : f.wg = 0) : Seated (f.record .stopped) v := by
  refine h.record trivial rfl (by decide) rfl fun _ hs => ?_
  have hfresh := h.started hs
  have hempty := h.wg
  rw [hwg] at hempty
  cases hv : v.stage <;> simp [hv] at hempty hfresh ⊢

/-- A request of a pass. -/
theorem Seated.pass (hv : v.stage = .up) (hl : v.leads = true) :
    Seated (f.record .pass) v :=
  h.record ⟨h.not_stopped (by simp [hv]), h.answer.trans (h.leads hl)⟩ rfl (by decide) rfl (by simp)

/-- An election of the goroutine itself. -/
theorem Seated.elect (hv : v.stage = .cleared) (time ttl : Int) (won : Bool) (r : Option Bool)
    (hr : r = none ∨ r = some won) :
    Seated (f.record (.election time ttl won r.isSome))
      { v with stage := .up, answer := r.or v.answer, leads := false } where
  flag := h.flag
  answer := by
    rcases hr with rfl | rfl
    · exact h.answer
    · rfl
  leads := by simp
  cancelled := fun hm => h.cancelled (by simpa [Fields.record] using hm)
  late := by
    have hlate := h.late
    rw [hv] at hlate
    simpa [Fields.record, lateElections, Deed.isElection] using hlate
  wg := by
    have hwg := h.wg
    rw [hv] at hwg
    exact hwg
  started := fun _ => by simp
  stopped := fun hs => absurd (by simpa [Fields.record, HasStopped] using hs)
    (h.not_stopped (by simp [hv]))
  inOrder := inOrder_record h.inOrder (h.not_stopped (by simp [hv]))

theorem Seated.start (hv : v.stage = .fresh) :
    Seated ({ f with started := true, wg := f.wg + 1 }.record .started)
      { v with stage := .up } where
  flag := h.flag
  answer := h.answer
  leads := h.leads
  cancelled := fun hm => h.cancelled (by simpa [Fields.record] using hm)
  late := by
    have hlate := h.late
    rw [hv] at hlate
    simpa [Fields.record, lateElections, Deed.isElection] using hlate
  wg := by
    have hwg := h.wg
    rw [hv] at hwg
    change f.wg + 1 = 1
    rw [hwg]
    rfl
  started := fun _ => by simp
  stopped := fun hs => absurd (by simpa [Fields.record, HasStopped] using hs)
    (h.not_stopped (by simp [hv]))
  inOrder := inOrder_record (f := { f with started := true, wg := f.wg + 1 }) h.inOrder trivial

/-- A look at the context. -/
theorem Seated.ctxErr (hv : v.stage = .up) :
    Seated f { v with stage := if f.cancelled then .up else .cleared } where
  flag := h.flag
  answer := h.answer
  leads := h.leads
  cancelled := h.cancelled
  late := by
    have hlate := h.late
    by_cases hmem : Deed.cancellation ∈ f.log
    · rw [hv] at hlate
      rw [h.cancelled hmem]
      exact hlate
    · simp [lateElections_eq_zero hmem, hmem]
  wg := by
    have hwg := h.wg
    rw [hv] at hwg
    cases f.cancelled <;> exact hwg
  started := fun _ => by split <;> simp
  stopped := fun hs => absurd hs (h.not_stopped (by simp [hv]))
  inOrder := h.inOrder

theorem Seated.wgDone (hv : v.stage = .up) :
    Seated { f with wg := f.wg - 1 } { v with stage := .ended } where
  flag := h.flag
  answer := h.answer
  leads := h.leads
  cancelled := h.cancelled
  late := by
    have hlate := h.late
    rw [hv] at hlate
    exact hlate
  wg := by
    have hwg := h.wg
    rw [hv] at hwg
    change f.wg - 1 = 0
    rw [hwg]
    rfl
  started := fun _ => by simp
  stopped := fun _ => rfl
  inOrder := h.inOrder

/-- The flag is stored. -/
theorem Seated.store (b : Bool) :
    Seated { f with isLeader := b } { v with flag := b } :=
  ⟨rfl, h.answer, h.leads, h.cancelled, h.late, h.wg, h.started, h.stopped, h.inOrder⟩

/-- The flag is read, while it is what the last answer says. -/
theorem Seated.load (hsync : v.InSync) :
    Seated f { v with leads := f.isLeader } :=
  ⟨h.flag, h.answer, fun hl => hsync.mp (h.flag.symm.trans hl), h.cancelled, h.late, h.wg,
    h.started, h.stopped, h.inOrder⟩

end

end Seated

section Step
variable {w w' : World} {n : Nat} {c : Instr} {r : c.Reply}

@[simp] theorem fields_modify_self (w : World) (id : String) (f : Fields → Fields) :
    (w.modify id f).fields id = f (w.fields id) := by
  simp [World.modify]

theorem fields_modify_of_ne {id id' : String} (hne : id' ≠ id) (w : World) (f : Fields → Fields) :
    (w.modify id f).fields id' = w.fields id' := by
  simp [World.modify, Function.update_of_ne hne]

/-- A goroutine touches the fields of its own scheduler only. -/
theorem fields_exec_of_ne {j : Job} (hj : (∃ n, j = .run s n) ∨ j = .shutdown s)
    (hc : Justified j v c) (he : w.Exec c r w') {id : String} (hne : id ≠ s.id) :
    w'.fields id = w.fields id := by
  have hmodify := fields_modify_of_ne hne w
  rcases hj with ⟨n, rfl⟩ | rfl
  · cases hc with
    | registry => rw [he]
    | start | follow | pass | wgDone =>
      rw [he]
      exact hmodify _
    | select | ctxErr | load => rw [he.2]
    | lead =>
      rw [he.2]
      exact hmodify _
    | elect =>
      rcases he with ⟨-, rfl⟩ | ⟨-, rfl | rfl⟩
      · exact fields_modify_of_ne hne _ _
      · exact fields_modify_of_ne hne _ _
      · rfl
  · cases hc with
    | cancel =>
      rw [he]
      split
      · exact hmodify _
      · rfl
    | look => rw [he.2]
    | resign =>
      rcases he with rfl | ⟨-, rfl⟩
      · exact fields_modify_of_ne hne _ _
      · rfl
    | publish => rw [he]
    | wait =>
      rcases he with ⟨-, -, rfl⟩ | ⟨-, rfl⟩
      · exact hmodify _
      · rfl

/-- What the goroutine of a scheduler does, step by step. -/
theorem seated_run (h : Seated (w.fields s.id) v) (hc : Justified (.run s n) v c)
    (he : w.Exec c r w') : Seated (w'.fields s.id) (v.see c r) := by
  cases hc with
  | registry =>
    rw [he]
    exact h
  | start hv =>
    rw [he, fields_modify_self]
    exact h.start hv
  | select =>
    rw [he.2]
    exact ⟨h.flag, h.answer, by simp [Seat.see], h.cancelled, h.late, h.wg, h.started, h.stopped,
      h.inOrder⟩
  | ctxErr hv =>
    obtain ⟨rfl, rfl⟩ := he
    exact h.ctxErr hv
  | elect hv =>
    rcases he with ⟨rfl, rfl⟩ | ⟨rfl, rfl | rfl⟩
    · rw [World.elect, fields_modify_self]
      exact h.elect hv _ _ _ _ (Or.inr rfl)
    · rw [World.elect, fields_modify_self]
      exact h.elect hv _ _ _ none (Or.inl rfl)
    · -- the request has not been executed: the election that was cleared does not come
      refine ⟨h.flag, h.answer, by simp [Seat.see], h.cancelled, ?_, ?_, fun _ => by
        simp [Seat.see], fun hs => ?_, h.inOrder⟩
      · have hlate := h.late
        change lateElections _ + 0 ≤ 1
        omega
      · have hwg := h.wg
        rw [hv] at hwg
        exact hwg
      · have hended := h.stopped hs
        rw [hv] at hended
        cases hended
  | lead =>
    rw [he.2, fields_modify_self]
    exact h.store true
  | follow =>
    rw [he, fields_modify_self]
    exact h.store false
  | load _ hsync =>
    obtain ⟨rfl, rfl⟩ := he
    exact h.load hsync
  | pass hv hl =>
    rw [he, fields_modify_self]
    exact h.pass hv hl
  | wgDone hv =>
    rw [he, fields_modify_self]
    exact h.wgDone hv

/-- What `Shutdown` does to the fields, as the other goroutine has it. -/
theorem seated_shutdown {v' : Seat} (h : Seated (w.fields s.id) v)
    (hc : Justified (.shutdown s) v' c) (he : w.Exec c r w') : Seated (w'.fields s.id) v := by
  cases hc with
  | cancel =>
    rw [he]
    split
    · rw [World.cancelRun, fields_modify_self]
      exact h.cancelRun
    · exact h
  | look =>
    rw [he.2]
    exact h
  | resign =>
    rcases he with rfl | ⟨-, rfl⟩
    · rw [World.resign, fields_modify_self]
      exact h.resign
    · exact h
  | publish =>
    rw [he]
    exact h
  | wait =>
    rcases he with ⟨-, hwg, rfl⟩ | ⟨-, rfl⟩
    · rw [fields_modify_self]
      exact h.stop hwg
    · exact h

end Step

/-! ## Whole runs -/

/-- The goroutines of schedulers with names of their own. -/
structure Distinct (js : List Job) : Prop where
  kind : ∀ j ∈ js, (∃ s n, j = .run s n) ∨ ∃ s, j = .shutdown s
  own : ∀ (i i' : Nat) (s s' : Scheduler) (n n' : Nat), js[i]? = some (Job.run s n) →
    js[i']? = some (Job.run s' n') → s.id = s'.id → i = i'

theorem distinct_jobs (hss : (ss.map Scheduler.id).Nodup) (turns : Scheduler → Nat) :
    Distinct (jobs ss turns) where
  kind := fun j hj => by
    rcases List.mem_append.mp hj with hj | hj
    · obtain ⟨s, -, rfl⟩ := List.mem_map.mp hj
      exact Or.inl ⟨s, turns s, rfl⟩
    · obtain ⟨s, -, rfl⟩ := List.mem_map.mp hj
      exact Or.inr ⟨s, rfl⟩
  own := fun i i' s s' n n' hi hi' hid => by
    have hrun : ∀ {i : Nat} {s : Scheduler} {n : Nat},
        (ss.map (fun s => Job.run s (turns s)) ++ ss.map Job.shutdown)[i]? = some (.run s n) →
        (ss.map Scheduler.id)[i]? = some s.id := by
      intro i s n h
      rcases Nat.lt_or_ge i (ss.map fun s => Job.run s (turns s)).length with hlt | hge
      · rw [List.getElem?_append_left hlt, List.getElem?_map] at h
        obtain ⟨s', hs', heq⟩ := Option.map_eq_some_iff.mp h
        cases heq
        rw [List.getElem?_map, hs']
        rfl
      · rw [List.getElem?_append_right hge, List.getElem?_map] at h
        obtain ⟨s', -, heq⟩ := Option.map_eq_some_iff.mp h
        cases heq
    have hi := hrun hi
    have hi' := hrun hi'
    rw [← hid] at hi'
    obtain ⟨hlt, hget⟩ := List.getElem?_eq_some_iff.mp hi
    obtain ⟨hlt', hget'⟩ := List.getElem?_eq_some_iff.mp hi'
    exact hss.getElem_inj_iff.mp (hget.trans hget'.symm)

/-- The goroutines are those that were started, and every scheduler has its seat. -/
structure Inv (js : List Job) (t : Trace Instr Instr.Reply Job World) : Prop where
  jobs : t.procs.map Proc.job = js
  seats : ∀ (i : Nat) (s : Scheduler) (n : Nat) (h : History), t.procs[i]? = some ⟨.run s n, h⟩ →
    Seated (t.world.fields s.id) (seatOf h)

section Runs
variable {js : List Job}

theorem inv_init (js : List Job) : Inv js ⟨{}, js.map fun j => ⟨j, []⟩⟩ where
  jobs := by simp [Function.comp_def]
  seats := fun i s n h hp => by
    rw [List.getElem?_map] at hp
    obtain ⟨j, -, heq⟩ := Option.map_eq_some_iff.mp hp
    cases heq
    exact seated_init

theorem inv_act (hjs : Distinct js) {a b : Trace Instr Instr.Reply Job World} (h : Inv js a)
    (hab : (machine timely).Act protocol a b) : Inv js b := by
  have hjob : ∀ {i : Nat} {p : Proc Instr Instr.Reply Job}, a.procs[i]? = some p →
      js[i]? = some p.job := by
    intro i p hp
    rw [← h.jobs, List.getElem?_map, hp]
    rfl
  cases hab with
  | @call w w' ps i p c r hp hc he =>
    have hkind := hjs.kind p.job (List.mem_of_getElem? (hjob hp))
    have hlt : i < ps.length := (List.getElem?_eq_some_iff.mp hp).1
    refine ⟨?_, fun i' s' n' h' hp' => ?_⟩
    · obtain ⟨-, rfl⟩ := List.getElem?_eq_some_iff.mp hp
      refine Eq.trans ?_ h.jobs
      change (ps.set i _).map Proc.job = ps.map Proc.job
      rw [List.map_set, ← List.map_set (a := ps[i]), List.set_getElem_self]
    by_cases hi : i' = i
    · -- the goroutine that has moved
      subst hi
      rw [List.getElem?_set_self hlt] at hp'
      obtain ⟨job, hist⟩ := p
      obtain ⟨rfl, rfl⟩ := Proc.mk.inj (Option.some.inj hp')
      rw [seatOf_call]
      exact seated_run (h.seats i' s' n' hist hp) hc he
    · rw [List.getElem?_set_ne (Ne.symm hi)] at hp'
      have hseat := h.seats i' s' n' h' hp'
      rcases hkind with ⟨s, n, hrun⟩ | ⟨s, hshut⟩
      · -- another one's `run`: it has another name
        have hne : s'.id ≠ s.id := fun hid => hi
          (hjs.own i' i s' s n' n (hjob hp') (hrun ▸ hjob hp) hid)
        rwa [fields_exec_of_ne (Or.inl ⟨n, hrun⟩) hc he hne]
      · -- a `Shutdown`, of this scheduler or of another one
        by_cases hid : s'.id = s.id
        · rw [hid] at hseat ⊢
          rw [hshut] at hc
          exact seated_shutdown hseat hc he
        · rwa [fields_exec_of_ne (Or.inr hshut) hc he hid]
  | @fork w ps i p j hp hf =>
    rcases hjs.kind p.job (List.mem_of_getElem? (hjob hp)) with ⟨s, n, hrun⟩ | ⟨s, hshut⟩
    · exact absurd hrun (hf.1 s n)
    · exact absurd hshut (hf.2 s)
  | spawn hj => exact hj.elim
  | @env w w' ps he =>
    refine ⟨h.jobs, fun i s n hist hp => ?_⟩
    have hseat := h.seats i s n hist hp
    rcases he with ⟨t, -, -, rfl⟩ | ⟨id, rfl⟩
    · exact hseat
    · change Seated ((w.cancelRun id).fields s.id) _
      by_cases hid : s.id = id
      · rw [World.cancelRun, hid, fields_modify_self]
        rw [hid] at hseat
        exact hseat.cancelRun
      · rw [World.cancelRun, fields_modify_of_ne hid]
        exact hseat

/-- In every state that can be reached, the fields of every scheduler agree with what its
goroutine knows. -/
theorem exists_seated (hss : (ss.map Scheduler.id).Nodup) {d : Config Instr Instr.Reply Job World}
    (hr : (machine timely).Reachable (boot timely ss turns) d) (hs : s ∈ ss) :
    ∃ v, Seated (d.world.fields s.id) v := by
  have hjs := distinct_jobs hss turns
  obtain ⟨ps, hinv, -⟩ := Discipline.invariant (machine_obeys timely) (inv_init _)
    (fun _ _ => inv_act hjs) hr
  have hmem : Job.run s (turns s) ∈ ps.map Proc.job := by
    rw [hinv.jobs]
    exact List.mem_append_left _ (List.mem_map_of_mem hs)
  obtain ⟨⟨job, hist⟩, hp, rfl⟩ := List.mem_map.mp hmem
  obtain ⟨i, hi⟩ := List.getElem?_of_mem hp
  exact ⟨seatOf hist, hinv.seats i s (turns s) hist hi⟩

end Runs

theorem hasStopped_append (l₂ l₁ : List Deed) (h : Deed.started ∈ l₁) :
    HasStopped (l₂ ++ .stopped :: l₁) := by
  induction l₂ with
  | nil => exact Or.inr ⟨rfl, h⟩
  | cons d l₂ ih => exact Or.inl ih

/-- A resignation ends the term until the next election. -/
theorem term_append_resignation {l₂ : List Deed} (h : ∀ d ∈ l₂, d.isElection = false)
    (l₁ : List Deed) : term (l₂ ++ .resignation :: l₁) = none := by
  induction l₂ with
  | nil => rfl
  | cons d l₂ ih =>
    have hd := h d List.mem_cons_self
    have hl := ih fun e he => h e (List.mem_cons_of_mem d he)
    cases d with
    | election => cases hd
    | resignation => rfl
    | started | cancellation | pass | stopped => exact hl

section Results
variable {d : Config Instr Instr.Reply Job World}

/-- **Passes are made by leaders.**  A scheduler makes a request of a pass only if the
last election that was answered made it leader. -/
theorem passes_follow_won_election (hss : (ss.map Scheduler.id).Nodup)
    (hr : (machine timely).Reachable (boot timely ss turns) d) (hs : s ∈ ss) (l₂ l₁ : List Deed)
    (hlog : (d.world.fields s.id).log = l₂ ++ .pass :: l₁) : lastAnswer l₁ = some true := by
  obtain ⟨v, hv⟩ := exists_seated hss hr hs
  exact (hv.inOrder l₂ .pass l₁ hlog).2

end Results

/-- `Shutdown` cancels and resigns between the look at the context and the election of a
renewal. -/
def lateRenewal : List (Choice Wake Int Job) :=
  sampleStart 0 ++ [.step 0 .renew, .step 0 .tick, .step 1 .tick, .step 1 .tick, .step 1 .tick,
    .step 1 .tick, .step 0 .tick]

/-- `Shutdown` from its beginning to its end. -/
def cleanShutdown : List (Choice Wake Int Job) :=
  sampleStart 0 ++ [.step 1 .tick, .step 1 .tick, .step 1 .tick, .step 1 .tick, .step 0 .done,
    .step 0 .tick, .step 1 .tick]

/-- A tick of a leader. -/
def firstPass : List (Choice Wake Int Job) :=
  sampleStart 0 ++ [.step 0 .tick, .step 0 .tick, .step 0 .tick]

/-- A scheduler that has been elected makes its first request of a pass. -/
theorem elected_scheduler_passes :
    ∃ d, (machine fun _ _ => True).Reachable
        (boot (fun _ _ => True) [sampleScheduler "a"] fun _ => 2) d ∧
      (d.world.fields "a").log = [] ++ .pass :: [.election 0 (5 * second) true true, .started] ∧
      lastAnswer [.election 0 (5 * second) true true, .started] = some true := by
  have hsound := player_sound (fun _ _ => true) (fun _ _ => True) fun _ _ _ => trivial
  obtain ⟨d, hr, hd⟩ := hsound.exists_reachable firstPass trivial
    (boot (fun _ _ => True) [sampleScheduler "a"] fun _ => 2)
    (fun w => decide ((w.fields "a").log =
      [] ++ .pass :: [.election 0 (5 * second) true true, .started])) (by decide +kernel)
  have hlog := of_decide_eq_true hd
  exact ⟨d, hr, hlog, passes_follow_won_election (by decide) hr List.mem_cons_self _ _ hlog⟩

end ChronosGo.Leadership
