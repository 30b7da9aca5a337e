import ChronosGo.FetchSlots
import ChronosGo.Lifecycle

/-! # The maintenance loops

At each tick the forwarder, the recoverer and the janitor go through all queues.  A
request that fails is logged and the next queue has its turn; only the end of the context
stops a pass.  So whenever a loop is back at its `select`, its last pass has reached every
queue (`passes_cover_queues`), and what the recoverer has dead-lettered and swept was told
to the hook and to the metrics once each (`recoverer_tells_once`).
-/
namespace ChronosGo.Lifecycle
open Interleaving

variable {s : Server} {msgs : List TaskMessage} {sweeps : List (String × Nat × Nat)} {v : Log}
  {P : Log → Prop} {c : Instr} {reached : List String} {ts : List FetchLoop.Dequeued}

/-- The pass that has ended has reached every queue of the server; completed tasks were
trimmed where archived ones were trimmed without an error. -/
def Covered (s : Server) : Loop → Log → Prop
  | .forwarder, v => v.forwardedRetry = s.queueNames ∧ v.forwardedScheduled = s.queueNames
  | .recoverer, v => v.recovered = s.queueNames
  | .heartbeater, _ => True
  | .janitor, v => v.trimmedArchived = s.queueNames ∧ v.trimmedCompleted = v.trimmed

/-- Of `all` that there is to tell, `rest` is still to be told; nothing is told where nobody
listens. -/
def Owed {α : Type} (set : Bool) (told all rest : List α) : Prop :=
  if set then all = told ++ rest else told = []

namespace Owed
variable {α : Type} {set : Bool} {told all rest : List α}

theorem isPrefix (h : Owed set told all rest) : told <+: all := by
  unfold Owed at h
  split at h
  · exact ⟨rest, h.symm⟩
  · rw [h]
    exact List.nil_prefix

/-- There is more to tell. -/
theorem add (h : Owed set told all []) (new : List α) : Owed set told (all ++ new) new := by
  unfold Owed at *
  split at h
  · rw [if_pos ‹_›, h, List.append_nil]
  · rw [if_neg ‹_›]
    exact h

/-- The next one is told. -/
theorem tell {a : α} (hset : set = true) (h : Owed set told all (a :: rest)) :
    Owed set (told ++ [a]) all rest := by
  unfold Owed at *
  rw [if_pos hset] at *
  rw [h, List.append_assoc]
  rfl

/-- Where nobody listens nothing is owed. -/
theorem skip (hset : ¬ set = true) (h : Owed set told all rest) (rest' : List α) :
    Owed set told all rest' := by
  unfold Owed at *
  rw [if_neg hset] at *
  exact h

theorem eq_of_nil (h : Owed set told all []) : told = if set then all else [] := by
  unfold Owed at h
  split at h
  · rw [if_pos ‹_›, h, List.append_nil]
  · rw [if_neg ‹_›]
    exact h

end Owed

/-- What is still to be told to the hook and to the metrics. -/
structure Owes (s : Server) (msgs : List TaskMessage) (sweeps : List (String × Nat × Nat))
    (v : Log) : Prop where
  hook : Owed s.cfg.onDeadLetter v.notified v.deadLettered msgs
  metrics : Owed s.cfg.recoveryMetrics v.reported v.sweeps sweeps

/-- The hook and the metrics, where there are any, know of everything. -/
abbrev Told (s : Server) (v : Log) : Prop := Owes s [] [] v

/-- What they know is the beginning of it. -/
structure Telling (v : Log) : Prop where
  hook : v.notified <+: v.deadLettered
  metrics : v.reported <+: v.sweeps

theorem Owes.telling (h : Owes s msgs sweeps v) : Telling v := ⟨h.hook.isPrefix, h.metrics.isPrefix⟩

/-- The instructions of the loops with a ticker. -/
def Instr.OfLoop : Instr → Prop
  | .tick _ | .ctxErr | .now | .forwardRetry .. | .forwardScheduled .. | .recover ..
  | .onDeadLetter _ | .observeRecovered .. | .trimArchived .. | .trimCompleted .. | .inflight
  | .extendLease .. | .renewUnique .. => True
  | .fetch _ | .ensureGroup _ | .setCancel | .wgAdd | .wgDone | .started _ | .cancel _
  | .wgWait _ | .closeDone _ | .awaitDone _ => False

/-- At its `select` a loop has covered the queues and told everything. -/
structure AtSelect (s : Server) (l : Loop) (v : Log) : Prop where
  covered : v.passes = 0 ∨ Covered s l v
  told : Told s v

/-- What a loop may do. -/
structure Allows (s : Server) (v : Log) (c : Instr) : Prop where
  select : ∀ l, c = .tick l → AtSelect s l v
  telling : Telling v
  ofLoop : c.OfLoop

/-! ## The passes -/

abbrev Keeps {α : Type} (s : Server) (P : Log → Prop) (p : Thread α) (Q : α → Log → Prop) : Prop :=
  Triple (Prog.seeCalls Log.see) {} (Allows s) (fun _ _ => False) P p Q

/-- A request of a pass. -/
theorem keeps_cmd {Q : c.Reply → Log → Prop} (hP : ∀ v, P v → Telling v) (hc : c.OfLoop)
    (htick : ∀ l, c ≠ .tick l) (hsee : ∀ v r, P v → Q r (v.see c r)) : Keeps s P (exec c) Q :=
  .cmd (fun v hv => ⟨fun l h => absurd h (htick l), hP v hv, hc⟩) hsee

/-- An instruction that is not logged. -/
theorem keeps_quiet (hP : ∀ v, P v → Telling v) (hc : c.OfLoop) (htick : ∀ l, c ≠ .tick l)
    (hsee : ∀ v r, Log.see v c r = v) :
    Keeps s P (exec c) fun _ => P :=
  keeps_cmd hP hc htick fun v r hv => (hsee v r).symm ▸ hv

theorem keeps_proceed {α : Type} (hP : ∀ v, P v → Telling v) (r : Option α) :
    Keeps s P (proceed r) fun _ => P := by
  cases r with
  | some a => exact .pure fun _ hv => hv
  | none =>
    refine .bind (keeps_quiet hP trivial (by simp) fun _ _ => rfl) fun done => ?_
    exact .pure fun _ hv => hv

/-- The part for one queue leads from the queues before it to those with it, or to the
end of the loop. -/
def Onward (s : Server) (I : Log → Prop) (goesOn : Bool) (v : Log) : Prop :=
  Told s v ∧ (goesOn = true → I v)

theorem keeps_eachQueue {body : String → Thread Bool} {I : List String → Log → Prop}
    (hI : ∀ reached v, I reached v → Told s v)
    (hbody : ∀ reached q, Keeps s (I reached) (body q) (Onward s (I (reached ++ [q]))))
    (qs reached : List String) :
    Keeps s (I reached) (eachQueue body qs) (Onward s (I (reached ++ qs))) := by
  induction qs generalizing reached with
  | nil =>
    rw [List.append_nil]
    exact .pure fun v hv => ⟨hI _ v hv, fun _ => hv⟩
  | cons q qs ih =>
    refine .bind (hbody reached q) fun goesOn => ?_
    cases goesOn with
    | true =>
      have hrest := ih (reached ++ [q])
      rw [List.append_assoc] at hrest
      exact hrest.mono (fun v hv => hv.2 rfl) fun _ _ h => h
    | false => exact .pure fun v hv => ⟨hv.1, fun h => absurd h Bool.false_ne_true⟩

/-- The forwarder has asked the queues for due retries, and for due scheduled tasks. -/
structure Forwarded (s : Server) (retry scheduled : List String) (v : Log) : Prop where
  told : Told s v
  retry : v.forwardedRetry = retry
  scheduled : v.forwardedScheduled = scheduled

theorem Forwarded.telling {retry scheduled : List String} (h : Forwarded s retry scheduled v) :
    Telling v := h.told.telling

theorem keeps_forwardRetry (reached : List String) (q : String) (now : Int) (max : Nat) :
    Keeps s (Forwarded s reached reached) (exec (.forwardRetry q now max))
      fun _ => Forwarded s (reached ++ [q]) reached :=
  keeps_cmd (fun _ hv => hv.telling) trivial (by simp) fun _ _ hv =>
    ⟨⟨hv.told.hook, hv.told.metrics⟩, congrArg (· ++ [q]) hv.retry, hv.scheduled⟩

theorem keeps_forwardScheduled (reached : List String) (q : String) (now : Int) (max : Nat) :
    Keeps s (Forwarded s (reached ++ [q]) reached) (exec (.forwardScheduled q now max))
      fun _ => Forwarded s (reached ++ [q]) (reached ++ [q]) :=
  keeps_cmd (fun _ hv => hv.telling) trivial (by simp) fun _ _ hv =>
    ⟨⟨hv.told.hook, hv.told.metrics⟩, hv.retry, congrArg (· ++ [q]) hv.scheduled⟩

/-- After the last request of a queue. -/
theorem keeps_proceed_onward {α : Type} {I : Log → Prop} (hI : ∀ v, I v → Told s v)
    (r : Option α) : Keeps s I (proceed r) (Onward s I) :=
  (keeps_proceed (fun v hv => (hI v hv).telling) r).mono (fun _ hv => hv)
    fun _ v hv => ⟨hI v hv, fun _ => hv⟩

theorem keeps_forwardQueue (reached : List String) (q : String) :
    Keeps s (Forwarded s reached reached) (forwardQueue q)
      (Onward s (Forwarded s (reached ++ [q]) (reached ++ [q]))) := by
  refine .bind (keeps_quiet (fun _ hv => hv.telling) trivial (by simp) fun _ _ => rfl) fun now => ?_
  refine .bind (keeps_forwardRetry reached q now _) fun moved => ?_
  refine .bind (keeps_proceed (fun _ hv => hv.telling) moved) fun goesOn =>
    .ite (fun _ => ?_) fun _ => .pure fun v hv => ⟨hv.told, fun h => absurd h Bool.false_ne_true⟩
  refine .bind (keeps_quiet (fun _ hv => hv.telling) trivial (by simp) fun _ _ => rfl) fun now => ?_
  refine .bind (keeps_forwardScheduled reached q now _) fun moved => ?_
  exact keeps_proceed_onward (fun _ hv => hv.told) moved

/-- The recoverer has swept the queues. -/
structure Swept (s : Server) (reached : List String) (v : Log) : Prop where
  told : Told s v
  recovered : v.recovered = reached

theorem Swept.telling (h : Swept s reached v) : Telling v :=
  h.told.telling

/-- Between a sweep and the end of its reports. -/
structure Reporting (s : Server) (reached : List String) (msgs : List TaskMessage)
    (sweeps : List (String × Nat × Nat)) (v : Log) : Prop where
  owes : Owes s msgs sweeps v
  recovered : v.recovered = reached

theorem Reporting.telling (h : Reporting s reached msgs sweeps v) :
    Telling v := h.owes.telling

/-- After the answer to a sweep. -/
def SweptBy (s : Server) (reached : List String) (q : String) :
    Option (Nat × List TaskMessage) → Log → Prop
  | none => Swept s (reached ++ [q])
  | some (n, msgs) => Reporting s (reached ++ [q]) msgs [(q, n, msgs.length)]

theorem keeps_recover (reached : List String) (q consumer : String) (minIdle : Int) (max : Nat) :
    Keeps s (Swept s reached) (exec (.recover q consumer minIdle max)) (SweptBy s reached q) := by
  refine keeps_cmd (fun _ hv => hv.telling) trivial (by simp) fun v r hv => ?_
  have hreached : v.recovered ++ [q] = reached ++ [q] := congrArg (· ++ [q]) hv.recovered
  rcases r with _ | ⟨n, msgs⟩
  · exact ⟨⟨hv.told.hook, hv.told.metrics⟩, hreached⟩
  · exact ⟨⟨hv.told.hook.add msgs, hv.told.metrics.add _⟩, hreached⟩

theorem keeps_notifyAll (hset : s.cfg.onDeadLetter = true) (msgs : List TaskMessage) :
    Keeps s (Reporting s reached msgs sweeps) (notifyAll msgs)
      fun _ => Reporting s reached [] sweeps := by
  induction msgs with
  | nil => exact .pure fun _ hv => hv
  | cons msg msgs ih =>
    refine .bind (keeps_cmd (fun _ hv => hv.telling) trivial (by simp) fun v _ hv => ?_) fun _ => ih
    exact ⟨⟨hv.owes.hook.tell hset, hv.owes.metrics⟩, hv.recovered⟩

theorem keeps_hook (msgs : List TaskMessage) :
    Keeps s (Reporting s reached msgs sweeps) (whenSet s.cfg.onDeadLetter (notifyAll msgs))
      fun _ => Reporting s reached [] sweeps := by
  refine .ite (fun hset => keeps_notifyAll hset msgs) fun hset => .pure fun v hv => ?_
  exact ⟨⟨hv.owes.hook.skip hset [], hv.owes.metrics⟩, hv.recovered⟩

theorem keeps_metrics (q : String) (n m : Nat) :
    Keeps s (Reporting s reached [] [(q, n, m)])
      (whenSet s.cfg.recoveryMetrics (exec (.observeRecovered q n m)))
      fun _ => Swept s reached := by
  refine .ite (fun hset => ?_) fun hset => .pure fun v hv => ?_
  · refine keeps_cmd (fun _ hv => hv.telling) trivial (by simp) fun v _ hv => ?_
    exact ⟨⟨hv.owes.hook, hv.owes.metrics.tell hset⟩, hv.recovered⟩
  · exact ⟨⟨hv.owes.hook, hv.owes.metrics.skip hset []⟩, hv.recovered⟩

theorem keeps_recoverQueue (reached : List String) (q : String) :
    Keeps s (Swept s reached) (recoverQueue s q) (Onward s (Swept s (reached ++ [q]))) := by
  refine .bind (keeps_recover reached q _ _ _) fun r => ?_
  rcases r with _ | ⟨n, msgs⟩
  · exact keeps_proceed_onward (fun _ hv => hv.told) _
  · refine .bind (keeps_hook msgs) fun _ => .bind (keeps_metrics q n msgs.length) fun _ => ?_
    exact .pure fun v hv => ⟨hv.told, fun _ => hv⟩

/-- The janitor has trimmed the archived tasks of the queues, and the completed ones. -/
structure Trimmed (s : Server) (reached : List String) (v : Log) : Prop where
  told : Told s v
  archived : v.trimmedArchived = reached
  completed : v.trimmedCompleted = v.trimmed

theorem Trimmed.telling (h : Trimmed s reached v) :
    Telling v := h.told.telling

/-- After the answer to the first request for a queue. -/
structure TrimmedBy (s : Server) (reached : List String) (q : String) (ok : Bool) (v : Log) :
    Prop where
  told : Told s v
  archived : v.trimmedArchived = reached ++ [q]
  completed : v.trimmed = if ok then v.trimmedCompleted ++ [q] else v.trimmedCompleted

theorem keeps_trimArchived (reached : List String) (q : String) (cutoff maxSize : Int)
    (batch : Nat) :
    Keeps s (Trimmed s reached) (exec (.trimArchived q cutoff maxSize batch))
      fun r => TrimmedBy s reached q r.isSome := by
  refine keeps_cmd (fun _ hv => hv.telling) trivial (by simp) fun v r hv =>
    ⟨⟨hv.told.hook, hv.told.metrics⟩, congrArg (· ++ [q]) hv.archived, ?_⟩
  change (if r.isSome then v.trimmed ++ [q] else v.trimmed) = _
  rw [← hv.completed]
  rfl

theorem keeps_trimQueue (cutoff : Int) (reached : List String) (q : String) :
    Keeps s (Trimmed s reached) (trimQueue s cutoff q) (Onward s (Trimmed s (reached ++ [q]))) := by
  refine .bind (keeps_trimArchived reached q _ _ _) fun r => ?_
  cases r with
  | none =>
    refine (keeps_proceed_onward (I := Trimmed s (reached ++ [q])) (fun _ hv => hv.told) _).mono
      (fun v hv => ⟨hv.told, hv.archived, hv.completed.symm⟩) fun _ _ h => h
  | some n =>
    refine .bind (keeps_quiet (fun _ hv => hv.told.telling) trivial (by simp) fun _ _ => rfl)
      fun now => ?_
    refine .bind (keeps_cmd (fun _ hv => hv.told.telling) trivial (by simp) fun v r hv => ?_)
      fun trimmed => keeps_proceed_onward (fun _ hv => Trimmed.told hv) trimmed
    exact ⟨⟨hv.told.hook, hv.told.metrics⟩, hv.archived, hv.completed.symm⟩

/-- The heartbeat is not logged. -/
theorem keeps_beat (renewTTL : Int) : Keeps s (Told s) (beat s renewTTL) fun _ => Told s := by
  have hquiet : ∀ {c : Instr}, c.OfLoop → (∀ l, c ≠ .tick l) → (∀ v r, Log.see v c r = v) →
      Keeps s (Told s) (exec c) fun _ => Told s := keeps_quiet fun _ hv => hv.telling
  have hextend : ∀ (es : List InflightEntry) (qs : List String), Keeps s (Told s)
      (extendAll (fun q ids => do let _ ← exec (.extendLease q s.consumer ids); return ()) es qs)
      fun _ => Told s := by
    intro es qs
    induction qs with
    | nil => exact .pure fun _ hv => hv
    | cons q qs ih =>
      exact .bind (.bind (hquiet trivial (by simp) fun _ _ => rfl) fun _ => .pure fun _ hv => hv)
        fun _ => ih
  refine .bind (hquiet trivial (by simp) fun _ _ => rfl) fun es => .bind (hextend es _) fun _ => ?_
  refine .ite (fun _ => .pure fun _ hv => hv) fun _ => ?_
  exact .bind (hquiet trivial (by simp) fun _ _ => rfl) fun _ => .pure fun _ hv => hv

/-- A pass begins with nothing reached. -/
structure Begun (s : Server) (v : Log) : Prop where
  told : Told s v
  forwardedRetry : v.forwardedRetry = []
  forwardedScheduled : v.forwardedScheduled = []
  recovered : v.recovered = []
  trimmedArchived : v.trimmedArchived = []
  completed : v.trimmedCompleted = v.trimmed

theorem keeps_pass (l : Loop) : Keeps s (Begun s) (pass s l) (Onward s (AtSelect s l)) := by
  cases l with
  | forwarder =>
    refine (keeps_eachQueue (fun _ _ hv => hv.told) keeps_forwardQueue s.queueNames []).mono
      (fun v hv => ⟨hv.told, hv.forwardedRetry, hv.forwardedScheduled⟩) fun _ v hv => ?_
    exact ⟨hv.1, fun h => ⟨Or.inr ⟨(hv.2 h).retry, (hv.2 h).scheduled⟩, (hv.2 h).told⟩⟩
  | recoverer =>
    refine (keeps_eachQueue (fun _ _ hv => hv.told) keeps_recoverQueue s.queueNames []).mono
      (fun v hv => ⟨hv.told, hv.recovered⟩) fun _ v hv => ?_
    exact ⟨hv.1, fun h => ⟨Or.inr (hv.2 h).recovered, (hv.2 h).told⟩⟩
  | heartbeater =>
    refine .bind ((keeps_beat _).mono (fun v hv => hv.told) fun _ _ h => h) fun _ => ?_
    exact .pure fun v hv => ⟨hv, fun _ => ⟨Or.inr trivial, hv⟩⟩
  | janitor =>
    refine .bind (keeps_quiet (fun _ hv => hv.told.telling) trivial (by simp) fun _ _ => rfl)
      fun now => ?_
    refine (keeps_eachQueue (fun _ _ hv => hv.told) (keeps_trimQueue _) s.queueNames []).mono
      (fun v hv => ⟨hv.told, hv.trimmedArchived, hv.completed⟩) fun _ v hv => ?_
    exact ⟨hv.1, fun h => ⟨Or.inr ⟨(hv.2 h).archived, (hv.2 h).completed⟩, (hv.2 h).told⟩⟩

/-- What a tick shows. -/
def Ticked (s : Server) (ticked : Bool) (v : Log) : Prop :=
  Told s v ∧ (ticked = true → Begun s v)

theorem keeps_tick (l : Loop) : Keeps s (AtSelect s l) (exec (.tick l)) (Ticked s) := by
  refine .cmd (fun v hv => ⟨?_, hv.told.telling, trivial⟩) fun v ticked hv => ?_
  · rintro _ ⟨⟩
    exact hv
  · cases ticked with
    | true =>
      have htold : Told s (v.see (.tick l) true) := ⟨hv.told.hook, hv.told.metrics⟩
      exact ⟨htold, fun _ => ⟨htold, rfl, rfl, rfl, rfl, rfl⟩⟩
    | false => exact ⟨hv.told, fun h => absurd h Bool.false_ne_true⟩

/-- **A loop covers the queues in every pass**, whatever its requests are answered. -/
theorem keeps_ticking (l : Loop) (ticks : Nat) :
    Keeps s (AtSelect s l) (ticking l (pass s l) ticks) fun _ => Told s := by
  induction ticks with
  | zero => exact .pure fun _ hv => hv.told
  | succ ticks ih =>
    refine .bind (keeps_tick l) fun ticked => ?_
    cases ticked with
    | false => exact .pure fun _ hv => hv.1
    | true =>
      refine .bind ((keeps_pass l).mono (fun v hv => hv.2 rfl) fun _ _ h => h) fun goesOn => ?_
      cases goesOn with
      | true => exact ih.mono (fun v hv => hv.2 rfl) fun _ _ h => h
      | false => exact .pure fun _ hv => hv.1

theorem atSelect_init (s : Server) (l : Loop) : AtSelect s l {} where
  covered := Or.inl rfl
  told := by
    constructor
    · unfold Owed
      split <;> rfl
    · unfold Owed
      split <;> rfl

/-! ## Every goroutine -/

/-- What a goroutine may do, as far as its log goes. -/
structure InTurn (s : Server) (v : Log) (c : Instr) : Prop where
  select : ∀ l, c = .tick l → AtSelect s l v
  telling : Telling v
  done : c = .wgDone → Told s v

def rules (s : Server) : Discipline Instr Instr.Reply Job where
  call := fun _ h c => InTurn s (Trace.viewOf Log.see {} h) c
  fork := fun _ h _ => Told s (Trace.viewOf Log.see {} h)
  done := fun _ h => Told s (Trace.viewOf Log.see {} h)

/-- Of an empty log there is nothing to tell. -/
theorem told_init (s : Server) : Told s {} := (atSelect_init s .janitor).told

/-- A goroutine without a ticker logs nothing. -/
abbrev Unlogged {α : Type} (s : Server) (p : Thread α) : Prop :=
  Triple (Prog.seeCalls Log.see) {} (InTurn s) (fun v _ => Told s v) (· = {}) p fun _ v => v = {}

theorem unlogged_cmd (htick : ∀ l, c ≠ .tick l) (hsee : ∀ v r, Log.see v c r = v) :
    Unlogged s (exec c) := by
  refine .cmd ?_ ?_
  · rintro _ rfl
    exact ⟨fun l h => absurd h (htick l), (told_init s).telling, fun _ => told_init s⟩
  · rintro _ r rfl
    exact hsee {} r

theorem unlogged_go (j : Job) : Unlogged s (Prog.go j) := by
  refine .go ?_ fun _ hv => hv
  rintro _ rfl
  exact told_init s

theorem unlogged_lift {α : Type} (p : FetchLoop.Thread α) : Unlogged s (lift p) := by
  induction p with
  | pure a => exact .pure fun _ hv => hv
  | call c k ih => exact .bind (unlogged_cmd (by simp) fun _ _ => rfl) fun r => ih r
  | fork j p ih =>
    exact .bind (unlogged_cmd (by simp) fun _ _ => rfl) fun _ => .bind (unlogged_go _) fun _ => ih

theorem unlogged_ensureGroups (qs : List String) : Unlogged s (ensureGroups qs) := by
  induction qs with
  | nil => exact .pure fun _ hv => hv
  | cons q qs ih =>
    refine .bind (unlogged_cmd (by simp) fun _ _ => rfl) fun ok => ?_
    exact .ite (fun _ => ih) fun _ => .pure fun _ hv => hv

theorem unlogged_launch (j : Job) : Unlogged s (launch j) :=
  .bind (unlogged_cmd (by simp) fun _ _ => rfl) fun _ => unlogged_go j

theorem unlogged_start (rounds : Nat) (ticks : Loop → Nat) : Unlogged s (start s rounds ticks) := by
  refine .ite (fun _ => unlogged_cmd (by simp) fun _ _ => rfl) fun _ => ?_
  refine .bind (unlogged_ensureGroups _) fun ok => .ite (fun _ => ?_) fun _ =>
    unlogged_cmd (by simp) fun _ _ => rfl
  refine .bind (unlogged_cmd (by simp) fun _ _ => rfl) fun _ => ?_
  refine .bind (unlogged_launch _) fun _ => .bind (unlogged_launch _) fun _ => ?_
  refine .bind (unlogged_launch _) fun _ => .bind (unlogged_launch _) fun _ => ?_
  exact .bind (unlogged_launch _) fun _ => unlogged_cmd (by simp) fun _ _ => rfl

theorem obeys_rules (s : Server) : (machine s).Obeys (rules s) := by
  have hother : ∀ {p : Thread Unit} {j : Job}, Unlogged s p →
      p.Follows ((rules s).call j) ((rules s).fork j) (fun h _ => (rules s).done j h) [] :=
    fun hp => (hp.mono (fun _ h => h) fun _ _ hv => hv ▸ told_init s) [] rfl
  intro j
  cases j with
  | start rounds ticks => exact hother (unlogged_start rounds ticks)
  | shutdown call =>
    refine hother (.bind (unlogged_cmd (by simp) fun _ _ => rfl) fun _ => ?_)
    refine .bind (unlogged_go _) fun _ => ?_
    exact .bind (unlogged_cmd (by simp) fun _ _ => rfl) fun _ => .pure fun _ hv => hv
  | waiter call =>
    exact hother (.bind (unlogged_cmd (by simp) fun _ _ => rfl) fun _ =>
      unlogged_cmd (by simp) fun _ _ => rfl)
  | fetch j =>
    exact hother (.bind (unlogged_lift _) fun _ => unlogged_cmd (by simp) fun _ _ => rfl)
  | loop l ticks =>
    have hticking := keeps_ticking (s := s) l ticks [] (atSelect_init s l)
    refine Prog.Follows.bind (hticking.weaken (fun h c hc => ?_) (fun _ _ h => h.elim)
      fun _ _ h => h) fun h _ htold => ⟨⟨by simp, htold.telling, fun _ => htold⟩, fun _ => ?_⟩
    · refine ⟨hc.select, hc.telling, fun hdone => ?_⟩
      rw [hdone] at hc
      exact hc.ofLoop.elim
    · change Told s (Trace.viewOf Log.see {} (h ++ _))
      rw [Trace.viewOf_call]
      exact htold

/-- Only the record has the logs. -/
theorem World.Exec.log_eq {w w' : World} {r : c.Reply} (h : w.Exec s c r w') : w'.log = w.log := by
  cases c with
  | fetch c =>
    obtain ⟨b, -, rfl⟩ := h
    rfl
  | setCancel | wgAdd | started | closeDone =>
    cases h
    rfl
  | wgDone | awaitDone | wgWait =>
    obtain ⟨-, rfl⟩ := h
    rfl
  | tick | ctxErr | inflight => exact congrArg World.log h.2
  | cancel =>
    obtain rfl := h
    unfold World.cancelBy
    split <;> rfl
  | ensureGroup | now | forwardRetry | forwardScheduled | recover | onDeadLetter | observeRecovered
  | trimArchived | trimCompleted | extendLease | renewUnique => exact congrArg World.log h

section Results
variable {rounds : Nat} {ticks : Loop → Nat} {d : Config Instr Instr.Reply Job World} {i : Nat}

/-- A loop with a ticker is at its `select`, or has left it for good; other goroutines may
be anywhere. -/
def AtRest : Thread Unit → Prop
  | .call c _ => (∃ l, c = .tick l) ∨ c = .wgDone
  | .pure _ => True
  | .fork .. => False

/-- Every goroutine is in order as far as its log goes. -/
theorem rules_of_reachable (hr : (machine s).Reachable (boot s rounds ticks) d) {p : Thread Unit}
    (hp : d.procs[i]? = some (some p)) :
    Telling (d.world.log i) ∧ (AtRest p → Told s (d.world.log i)) ∧
      ∀ l k, p = .call (.tick l) k → AtSelect s l (d.world.log i) := by
  have hact : ∀ t t', Trace.Tied Log.see {} World.log t → (machine s).Act (rules s) t t' →
      Trace.Tied Log.see {} World.log t' := by
    intro t t' hI hact
    refine hI.act hact ?_ (fun _ _ j w => ?_) fun w w' hw => ?_
    · rintro i c r ⟨w₁, hw₁, hw⟩
      rw [hw]
      change Function.update w₁.log i ((w₁.log i).see c r) = _
      rw [hw₁.log_eq]
    · cases j <;> rfl
    · cases hw
      rfl
  obtain ⟨hs, htied, hm⟩ := Discipline.invariant (obeys_rules s)
    (Trace.Tied.init _ _ fun _ => rfl) hact hr
  obtain ⟨a, ha, hfollows⟩ := Discipline.matches_getElem hm hp
  have hlog := htied i
  rw [Trace.histOf_eq ha] at hlog
  rw [hlog]
  have hnow := hfollows p rfl
  cases p with
  | pure => exact ⟨Owes.telling hnow, fun _ => hnow, fun _ _ h => nomatch h⟩
  | fork => exact ⟨Owes.telling hnow.1, fun h => h.elim, fun _ _ h => nomatch h⟩
  | call c k =>
    refine ⟨hnow.1.telling, fun hrest => ?_, fun l _ h => ?_⟩
    · rcases hrest with ⟨l, rfl⟩ | rfl
      · exact (hnow.1.select l rfl).told
      · exact hnow.1.done rfl
    · cases h
      exact hnow.1.select l rfl

/-- **Every pass reaches every queue.**  Whenever a loop is back at its `select`, its last
pass has asked each queue of the server in turn, although requests for some of them may
have failed: the forwarder for due retries and for due scheduled tasks, the recoverer for
a sweep, the janitor to trim the archived tasks, and the completed ones where that worked. -/
theorem passes_cover_queues (hr : (machine s).Reachable (boot s rounds ticks) d) {l : Loop}
    {k : Bool → Thread Unit} (hp : d.procs[i]? = some (some (.call (.tick l) k)))
    (hpass : (d.world.log i).passes ≠ 0) : Covered s l (d.world.log i) :=
  ((rules_of_reachable hr hp).2.2 l k rfl).covered.resolve_left hpass

/-- **The recoverer tells once.**  At any time the tasks that `OnDeadLetter` was called
with, and the sweeps that the metrics were told of, are the first of those that sweeps
have dead-lettered and of the sweeps that succeeded, in order; whenever the loop is at its
`select`, and when it has ended, they are all of them, if there is a hook and if there are
metrics for it. -/
theorem recoverer_tells_once (hr : (machine s).Reachable (boot s rounds ticks) d)
    {p : Thread Unit} (hp : d.procs[i]? = some (some p)) :
    (d.world.log i).notified <+: (d.world.log i).deadLettered ∧
      (d.world.log i).reported <+: (d.world.log i).sweeps ∧
      (AtRest p →
        ((d.world.log i).notified =
            if s.cfg.onDeadLetter then (d.world.log i).deadLettered else []) ∧
          (d.world.log i).reported =
            if s.cfg.recoveryMetrics then (d.world.log i).sweeps else []) := by
  obtain ⟨htelling, htold, -⟩ := rules_of_reachable hr hp
  refine ⟨htelling.hook, htelling.metrics, fun hrest => ?_⟩
  exact ⟨(htold hrest).hook.eq_of_nil, (htold hrest).metrics.eq_of_nil⟩

end Results

/-! A server whose forwarder and janitor have errors at one queue. -/

/-- The answers to a worker: its handler fails for good, and so does Redis. -/
def routineReply : (c : Cmd) → c.Reply
  | .now => (0 : Int)
  | .retryDelay .. => (0 : Int)
  | .ctxDone => false
  | .handle _ => Outcome.fail "gone" true
  | .redis _ => none

/-- The answers to the fetch loop, which finds `ts`, and to a worker. -/
def fetchAnswer (s : Server) (ts : List FetchLoop.Dequeued) (c : FetchLoop.Instr)
    (b : FetchLoop.World) : Option (c.Reply × FetchLoop.World) :=
  match c with
  | .release => if 0 < b.sem then some ((), { b with sem := b.sem - 1 }) else none
  | .trackInflight id e => some ((), { b with inflight := b.inflight.insert id e })
  | .untrackInflight id => some ((), { b with inflight := b.inflight.erase id })
  | .routine c => some (routineReply c, b)
  | c => FetchLoop.answer s ts c b

/-- The answers of a run in which the tasks `ts` are found and dead-lettered, and the
queue `bad` is forwarded and trimmed with errors. -/
def answer (s : Server) (bad : String) (ts : List FetchLoop.Dequeued) (c : Instr) (w : World) :
    Option (c.Reply × World) :=
  match c with
  | .fetch c => (fetchAnswer s ts c w.base).map fun a =>
      (a.1, { w with base := a.2, requeued := w.requeued ++ requeuedBy c })
  | .setCancel => some ((), { w with canCancel := true })
  | .wgAdd => some ((), { w with wg := w.wg + 1 })
  | .wgDone => if 0 < w.wg then some ((), { w with wg := w.wg - 1 }) else none
  | .started _ => some ((), { w with returned := true })
  | .tick _ => some (!w.base.cancelled, w)
  | .ctxErr => some (w.base.cancelled, w)
  | .inflight => some (w.base.inflight.entries.map (fun e => e.2), w)
  | .cancel call => some ((), w.cancelBy call)
  | .wgWait _ => if w.wg = 0 then some ((), { w with quiet := w.quiet || w.returned }) else none
  | .closeDone call => some ((), { w with closed := Function.update w.closed call true })
  | .awaitDone call =>
    if w.closed call = true then
      some (true, { w with result := Function.update w.result call (some true) })
    else none
  | .ensureGroup _ => some (true, w)
  | .now => some (0, w)
  | .forwardRetry q _ _ | .forwardScheduled q _ _
  | .trimArchived q _ _ _ | .trimCompleted q _ _ _ =>
    some (if q = bad then none else some 0, w)
  | .recover .. => some (some (1, ts.map Prod.snd), w)
  | .onDeadLetter _ | .observeRecovered .. => some ((), w)
  | .extendLease .. | .renewUnique .. => some (true, w)

def player (s : Server) (bad : String) :
    Player Instr Instr.Reply Job World (List FetchLoop.Dequeued) Empty where
  start := Job.code s
  give := fun _ _ j w => w.give j
  answer := fun ts i c w => (answer s bad ts c w).map fun a => (a.1, a.2.note i c a.1)
  env := fun e => nomatch e

theorem exec_fetchAnswer {c : FetchLoop.Instr} {b : FetchLoop.World}
    {a : c.Reply × FetchLoop.World} (h : fetchAnswer s ts c b = some a) :
    b.Exec s c a.1 a.2 := by
  cases c with
  | release =>
    simp only [fetchAnswer] at h
    split at h
    · rename_i hpos
      cases h
      exact ⟨hpos, rfl⟩
    · cases h
  | trackInflight | untrackInflight | routine =>
    cases h
    rfl
  | _ => exact (FetchLoop.player_sound s).answer ts 0 _ b a h

theorem exec_answer {bad : String} {w : World} {a : c.Reply × World}
    (h : answer s bad ts c w = some a) : w.Exec s c a.1 a.2 := by
  cases c with
  | fetch c =>
    obtain ⟨b, hb, rfl⟩ := Option.map_eq_some_iff.mp h
    exact ⟨b.2, exec_fetchAnswer hb, rfl⟩
  | wgDone | wgWait =>
    simp only [answer] at h
    split at h
    · rename_i hok
      cases h
      exact ⟨hok, rfl⟩
    · cases h
  | awaitDone =>
    simp only [answer] at h
    split at h
    · rename_i hok
      cases h
      exact ⟨fun _ => hok, rfl⟩
    · cases h
  | tick =>
    cases h
    exact ⟨fun hno => by simpa using hno, rfl⟩
  | ctxErr | inflight =>
    cases h
    exact ⟨rfl, rfl⟩
  | _ =>
    cases h
    rfl

theorem player_sound (s : Server) (bad : String) : (player s bad).Sound (machine s) where
  start := rfl
  give := rfl
  answer := by
    intro ts i c w a h
    obtain ⟨b, hb, rfl⟩ := Option.map_eq_some_iff.mp h
    exact ⟨b.2, exec_answer hb, rfl⟩
  env := fun e => nomatch e

/-- So many steps of a goroutine. -/
def steps (i n : Nat) (ts : List FetchLoop.Dequeued) :
    List (Choice (List FetchLoop.Dequeued) Empty Job) :=
  List.replicate n (.step i ts)

/-- The loop that is at its `select`. -/
def selects : Option (Option (Thread Unit)) → Option Loop
  | some (some (.call (.tick l) _)) => some l
  | _ => none

theorem exists_of_selects {p : Option (Option (Thread Unit))} {l : Loop}
    (h : selects p = some l) : ∃ k, p = some (some (.call (.tick l) k)) := by
  unfold selects at h
  split at h
  · cases h
    exact ⟨_, rfl⟩
  · cases h

def twoQueues : Server :=
  newServer
    { queues := ⟨[("a", 3), ("b", 1)], by decide⟩
      concurrency := 1
      onDeadLetter := true } "c"

/-- `Start`, and a pass of each loop with a ticker. -/
def onePass : List (Choice (List FetchLoop.Dequeued) Empty Job) :=
  steps 0 14 [] ++ steps 2 11 [] ++ steps 3 5 [FetchLoop.sampleDequeued 1 "t"] ++ steps 5 7 []

/-- The queue that fails does not keep the loops from the others, nor from the rest of
their work for it. -/
theorem pass_over_failing_queue :
    ∃ d, (machine twoQueues).Reachable (boot twoQueues 1 fun _ => 2) d ∧
      Covered twoQueues .forwarder (d.world.log 2) ∧ Covered twoQueues .recoverer (d.world.log 3) ∧
      Covered twoQueues .janitor (d.world.log 5) := by
  obtain ⟨d, hr, hd⟩ := (player_sound twoQueues "b").exists_config onePass trivial
    (boot twoQueues 1 fun _ => 2)
    (fun d => decide (selects d.procs[2]? = some .forwarder ∧ (d.world.log 2).passes = 1 ∧
      selects d.procs[3]? = some .recoverer ∧ (d.world.log 3).passes = 1 ∧
      selects d.procs[5]? = some .janitor ∧ (d.world.log 5).passes = 1))
    (by decide +kernel)
  obtain ⟨hforwarder, hf, hrecoverer, hc, hjanitor, hj⟩ := of_decide_eq_true hd
  obtain ⟨_, hforwarder⟩ := exists_of_selects hforwarder
  obtain ⟨_, hrecoverer⟩ := exists_of_selects hrecoverer
  obtain ⟨_, hjanitor⟩ := exists_of_selects hjanitor
  exact ⟨d, hr, passes_cover_queues hr hforwarder (by rw [hf]; decide),
    passes_cover_queues hr hrecoverer (by rw [hc]; decide),
    passes_cover_queues hr hjanitor (by rw [hj]; decide)⟩

/-- Two sweeps with one dead-lettered task each; without metrics nothing is reported. -/
theorem both_sweeps_told :
    ∃ d, (machine twoQueues).Reachable (boot twoQueues 1 fun _ => 2) d ∧
      (d.world.log 3).deadLettered.length = 2 ∧
      (d.world.log 3).notified = (d.world.log 3).deadLettered ∧ (d.world.log 3).reported = [] := by
  obtain ⟨d, hr, hd⟩ := (player_sound twoQueues "b").exists_config onePass trivial
    (boot twoQueues 1 fun _ => 2)
    (fun d => decide (selects d.procs[3]? = some .recoverer ∧
      (d.world.log 3).deadLettered.length = 2))
    (by decide +kernel)
  obtain ⟨hrecoverer, hlength⟩ := of_decide_eq_true hd
  obtain ⟨_, hrecoverer⟩ := exists_of_selects hrecoverer
  obtain ⟨-, -, htold⟩ := recoverer_tells_once hr hrecoverer
  obtain ⟨hnotified, hreported⟩ := htold (Or.inl ⟨.recoverer, rfl⟩)
  exact ⟨d, hr, hlength, hnotified, hreported⟩

end ChronosGo.Lifecycle
