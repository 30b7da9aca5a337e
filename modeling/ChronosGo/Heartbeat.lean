import ChronosGo.ServerConfig
import Mathlib.Data.List.AList
import Mathlib.Logic.Relation

/-! # The heartbeat and the tasks in flight

A server notes every task it runs in its `inflight` map, and the heartbeat renews
the lease and the unique lock of what the map holds (`server.go`).  The map is
keyed by the task's identifier, while a delivery is a queue and a stream entry: two
workers whose tasks share an identifier share one entry, and the first to finish
deletes it (`shared_id_not_refreshed`).

The machine below is one server: the loop that fetches and dispatches, and the
worker goroutines, step by step.  If a worker only registers an identifier that is
not in the map, every registered worker is covered by every heartbeat until it has
finished (`beat_covers_running`).
-/
namespace ChronosGo.Heartbeat

/-- A delivered task. -/
structure Dequeued where
  streamID : Nat
  msg : TaskMessage

/-- How far a worker is: started, registered by `trackInflight` and running
`process`, back from it, unregistered, and gone with its slot returned. -/
inductive Phase where
  | started
  | running
  | finished
  | untracked
  | gone
deriving DecidableEq, Repr

/-- A worker goroutine and its arguments. -/
structure Worker where
  qname : String
  sid : Nat
  m : TaskMessage
  phase : Phase := .started
deriving DecidableEq

/-- What the worker registers. -/
def Worker.entry (w : Worker) : InflightEntry := ⟨w.sid, w.qname, w.m.uniqueKey⟩

/-- The worker has an entry in the map, or had: it has registered and not yet
unregistered. -/
def Worker.Tracked (w : Worker) : Prop := w.phase = .running ∨ w.phase = .finished

/-- A server: the semaphore and its capacity, the map, what is left of the batch
that is being dispatched, whether the loop holds a slot for its next task, and the
workers started so far. -/
structure Server where
  concurrency : Nat
  sem : Nat := 0
  inflight : AList (fun _ : String => InflightEntry) := ∅
  batch : List Dequeued := []
  slot : Bool := false
  workers : List Worker := []

namespace Server

def trackInflight (s : Server) (id : String) (e : InflightEntry) : Server :=
  { s with inflight := s.inflight.insert id e }

def untrackInflight (s : Server) (id : String) : Server :=
  { s with inflight := s.inflight.erase id }

/-- What the map holds, in the order in which it is iterated. -/
def notes (s : Server) : List InflightEntry := s.inflight.entries.map fun e => e.2

/-- What `beat` refreshes: the stream entries of each queue, and the locks. -/
structure Beat where
  byQueue : String → List Nat
  uniqueKeys : List String

/-- `beat`: one pass over the map. -/
def beat (s : Server) : Beat where
  byQueue := idsOf s.notes
  uniqueKeys := (uniqueKeys s.notes).map Prod.snd

/-! ## The steps of a server -/

/-- A step of the fetch loop, or of the worker `i`. -/
inductive Act where
  | fetch (tasks : List Dequeued)
  | acquire
  | dispatch
  | stop
  | track (i : Nat)
  | finish (i : Nat)
  | untrack (i : Nat)
  | release (i : Nat)

/-- The worker `i` goes from one phase to the next, and `f` happens. -/
def advance (s : Server) (i : Nat) (src dst : Phase) (f : Worker → Server → Server) :
    Option Server :=
  match s.workers[i]? with
  | none => none
  | some w =>
    if w.phase = src then
      some (f w { s with workers := s.workers.set i { w with phase := dst } })
    else none

/-- One step; `none` if it cannot be made. -/
def act (s : Server) : Act → Option Server
  -- a slot is taken first, and the batch is no larger than the slots that are free
  | .fetch tasks =>
    if s.batch = [] ∧ s.sem < s.concurrency ∧ tasks ≠ [] ∧
        tasks.length ≤ min (1 + (s.concurrency - (s.sem + 1))) maxFetchBatch then
      some { s with sem := s.sem + 1, batch := tasks, slot := true }
    else none
  -- every later task of the batch waits for a slot of its own
  | .acquire =>
    if s.batch ≠ [] ∧ s.slot = false ∧ s.sem < s.concurrency then
      some { s with sem := s.sem + 1, slot := true }
    else none
  | .dispatch =>
    match s.batch with
    | [] => none
    | dt :: rest =>
      if s.slot then
        some { s with
          batch := rest
          slot := false
          workers := s.workers ++ [⟨dt.msg.queue, dt.streamID, dt.msg, .started⟩] }
      else none
  -- a shutdown requeues the rest of the batch
  | .stop => if s.slot = false then some { s with batch := [] } else none
  | .track i => s.advance i .started .running fun w s => s.trackInflight w.m.id w.entry
  | .finish i => s.advance i .running .finished fun _ s => s
  | .untrack i => s.advance i .finished .untracked fun w s => s.untrackInflight w.m.id
  | .release i => s.advance i .untracked .gone fun _ s => { s with sem := s.sem - 1 }

/-- One step that `ok` allows. -/
def Step (ok : Server → Act → Prop) (s s' : Server) : Prop := ∃ a, ok s a ∧ s.act a = some s'

/-- The states a server reaches from its start. -/
def Reaches (ok : Server → Act → Prop) (concurrency : Nat) (s : Server) : Prop :=
  Relation.ReflTransGen (Step ok) { concurrency } s

/-- A worker registers an identifier that the map does not hold. -/
def Free (s : Server) : Act → Prop
  | .track i => ∀ w ∈ s.workers[i]?, s.inflight.lookup w.m.id = none
  | _ => True

instance (s : Server) : DecidablePred s.Free
  | .track i => inferInstanceAs (Decidable (∀ w ∈ s.workers[i]?, s.inflight.lookup w.m.id = none))
  | .fetch _ | .acquire | .dispatch | .stop | .finish _ | .untrack _ | .release _ => .isTrue trivial

/-! ## What the map holds -/

/-- Every registered worker has its own entry, and no other worker shares it. -/
structure Covered (s : Server) : Prop where
  entry : ∀ (i : Nat) w, s.workers[i]? = some w → w.Tracked →
    s.inflight.lookup w.m.id = some w.entry
  alone : ∀ (i j : Nat) v w, s.workers[i]? = some v → s.workers[j]? = some w → v.Tracked →
    w.Tracked → v.m.id = w.m.id → i = j

variable {s s' : Server}
variable {i : Nat} {f : Worker → Server → Server} {ok : Server → Act → Prop}

/-- What a step of a worker does. -/
theorem advance_eq_some {src dst : Phase} (h : s.advance i src dst f = some s') :
    ∃ w, s.workers[i]? = some w ∧ w.phase = src ∧
      s' = f w { s with workers := s.workers.set i { w with phase := dst } } := by
  unfold advance at h
  split at h
  · cases h
  · rename_i w hw
    split at h
    · rename_i hphase
      exact ⟨w, hw, hphase, (Option.some.inj h).symm⟩
    · cases h

/-- A worker after worker `i` has moved on. -/
theorem getElem?_set_cases {ws : List Worker} {j : Nat} {w v : Worker}
    (hv : (ws.set i w)[j]? = some v) : j ≠ i ∧ ws[j]? = some v ∨ j = i ∧ v = w := by
  by_cases hij : j = i
  · subst hij
    rw [List.getElem?_set_self'] at hv
    obtain ⟨u, -, hu⟩ := Option.map_eq_some_iff.mp hv
    exact .inr ⟨rfl, hu.symm⟩
  · rw [List.getElem?_set_ne (Ne.symm hij)] at hv
    exact .inl ⟨hij, hv⟩

/-- A step that leaves the map alone and registers nobody keeps the cover. -/
theorem Covered.of_tracked (h : s.Covered) (hmap : s'.inflight = s.inflight)
    (hold : ∀ (j : Nat) v, s'.workers[j]? = some v → v.Tracked →
      ∃ u, s.workers[j]? = some u ∧ u.Tracked ∧ u.m = v.m ∧ u.entry = v.entry) : s'.Covered := by
  refine ⟨fun i w hw ht => ?_, fun i j v w hv hw htv htw hid => ?_⟩
  · obtain ⟨u, hu, hut, hm, he⟩ := hold i w hw ht
    rw [hmap, ← hm, ← he]
    exact h.entry i u hu hut
  · obtain ⟨a, ha, hat, hma, -⟩ := hold i v hv htv
    obtain ⟨b, hb, hbt, hmb, -⟩ := hold j w hw htw
    exact h.alone i j a b ha hb hat hbt (by rw [hma, hmb, hid])

theorem Covered.dispatch (h : s.Covered) (hs : s.act .dispatch = some s') : s'.Covered := by
  simp only [act] at hs
  split at hs
  · cases hs
  · split at hs
    · obtain rfl := Option.some.inj hs
      refine h.of_tracked rfl fun j v hv ht => ?_
      rw [List.getElem?_append] at hv
      split at hv
      · exact ⟨v, hv, ht, rfl, rfl⟩
      · -- the new worker has not registered
        have hstarted : v.phase = .started := by
          rw [List.getElem?_singleton] at hv
          split at hv
          · rw [← Option.some.inj hv]
          · cases hv
        rcases ht with ht | ht <;> cases hstarted.symm.trans ht
    · cases hs

theorem Covered.track (h : s.Covered) (hfree : s.Free (.track i))
    (hs : s.advance i .started .running (fun w s => s.trackInflight w.m.id w.entry) = some s') :
    s'.Covered := by
  obtain ⟨w, hw, hphase, rfl⟩ := advance_eq_some hs
  have hnone := hfree w hw
  -- nobody else is registered under this identifier
  have hother : ∀ (j : Nat) v, s.workers[j]? = some v → v.Tracked → v.m.id ≠ w.m.id := by
    intro j v hv ht hid
    have hlookup := h.entry j v hv ht
    rw [hid, hnone] at hlookup
    cases hlookup
  refine ⟨fun j v hv ht => ?_, fun j k u v hu hv htu htv hid => ?_⟩
  · rcases getElem?_set_cases hv with ⟨-, hv⟩ | ⟨-, rfl⟩
    · rw [trackInflight, AList.lookup_insert_ne (hother j v hv ht)]
      exact h.entry j v hv ht
    · exact AList.lookup_insert _
  · rcases getElem?_set_cases hu with ⟨-, hu⟩ | ⟨rfl, rfl⟩
    · rcases getElem?_set_cases hv with ⟨-, hv⟩ | ⟨-, rfl⟩
      · exact h.alone j k u v hu hv htu htv hid
      · exact absurd hid (hother j u hu htu)
    · rcases getElem?_set_cases hv with ⟨-, hv⟩ | ⟨rfl, -⟩
      · exact absurd hid.symm (hother k v hv htv)
      · rfl

theorem Covered.untrack (h : s.Covered)
    (hs : s.advance i .finished .untracked (fun w s => s.untrackInflight w.m.id) = some s') :
    s'.Covered := by
  obtain ⟨w, hw, hphase, rfl⟩ := advance_eq_some hs
  -- the workers still registered are others, with other identifiers
  have hold : ∀ (j : Nat) v, (s.workers.set i { w with phase := .untracked })[j]? = some v →
      v.Tracked → s.workers[j]? = some v ∧ v.m.id ≠ w.m.id := by
    intro j v hv ht
    rcases getElem?_set_cases hv with ⟨hji, hv⟩ | ⟨-, rfl⟩
    · exact ⟨hv, fun hid => hji (h.alone j i v w hv hw ht (.inr hphase) hid)⟩
    · rcases ht with ht | ht <;> cases ht
  refine ⟨fun j v hv ht => ?_, fun j k u v hu hv htu htv hid => ?_⟩
  · obtain ⟨hv, hne⟩ := hold j v hv ht
    rw [untrackInflight, AList.lookup_erase_ne hne]
    exact h.entry j v hv ht
  · exact h.alone j k u v (hold j u hu htu).1 (hold k v hv htv).1 htu htv hid

/-- The phases of a worker that do not touch the map. -/
theorem Covered.advance (h : s.Covered) {src dst : Phase} (hs : s.advance i src dst f = some s')
    (hf : ∀ w t, (f w t).inflight = t.inflight ∧ (f w t).workers = t.workers)
    (hdst : dst = .running ∨ dst = .finished → src = .running ∨ src = .finished) :
    s'.Covered := by
  obtain ⟨w, hw, hphase, rfl⟩ := advance_eq_some hs
  obtain ⟨hmap, hworkers⟩ := hf w { s with workers := s.workers.set i { w with phase := dst } }
  refine h.of_tracked hmap fun j v hv ht => ?_
  rw [hworkers] at hv
  rcases getElem?_set_cases hv with ⟨-, hv⟩ | ⟨rfl, rfl⟩
  · exact ⟨v, hv, ht, rfl, rfl⟩
  · subst hphase
    exact ⟨w, hw, hdst ht, rfl, rfl⟩

/-- **Step lemma.** -/
theorem Covered.step (h : s.Covered) (hs : Step Free s s') : s'.Covered := by
  obtain ⟨a, hfree, hs⟩ := hs
  cases a with
  | fetch _ | acquire | stop =>
    obtain ⟨-, hs⟩ := Option.ite_none_right_eq_some.mp hs
    obtain rfl := Option.some.inj hs
    exact h.of_tracked rfl fun j v hv ht => ⟨v, hv, ht, rfl, rfl⟩
  | dispatch => exact h.dispatch hs
  | track i => exact h.track hfree hs
  | untrack i => exact h.untrack hs
  | finish i =>
    simp only [act] at hs
    exact h.advance hs (fun _ _ => ⟨rfl, rfl⟩) (fun _ => .inl rfl)
  | release i =>
    simp only [act] at hs
    exact h.advance hs (fun _ _ => ⟨rfl, rfl⟩) (fun hdst => by rcases hdst with h | h <;> cases h)

/-- **Run lemma.** -/
theorem covered_of_reaches {concurrency : Nat} (hr : Reaches Free concurrency s) : s.Covered := by
  induction hr with
  | refl => exact ⟨fun i w hw => by simp at hw, fun i j v w hv => by simp at hv⟩
  | tail _ hstep ih => exact ih.step hstep

/-- What the map holds is refreshed. -/
theorem mem_beat {id : String} {e : InflightEntry} (h : s.inflight.lookup id = some e) :
    e.streamID ∈ s.beat.byQueue e.queue ∧ (e.uniqueKey ≠ "" → e.uniqueKey ∈ s.beat.uniqueKeys) := by
  have hmem : e ∈ s.notes := List.mem_map.mpr ⟨⟨id, e⟩, AList.mem_lookup_iff.mp h, rfl⟩
  refine ⟨mem_idsOf hmem, fun hkey => ?_⟩
  exact List.mem_map.mpr ⟨_, mem_uniqueKeys hmem hkey, rfl⟩

/-- **The heartbeat covers every running task.**  In every run in which a worker
only registers an identifier the map does not hold: at every moment, `beat`
refreshes the stream entry of every worker that has registered and not yet returned
from `process`, and its unique lock if it has one. -/
theorem beat_covers_running {concurrency : Nat} (hr : Reaches Free concurrency s) {w : Worker}
    (hw : w ∈ s.workers) (hrun : w.phase = .running) :
    w.sid ∈ s.beat.byQueue w.qname ∧
      (w.m.uniqueKey ≠ "" → w.m.uniqueKey ∈ s.beat.uniqueKeys) := by
  obtain ⟨i, hi⟩ := List.mem_iff_getElem?.mp hw
  have hlookup := (covered_of_reaches hr).entry i w hi (.inl hrun)
  exact mem_beat hlookup

/-! ## Runs of a server with two slots -/

/-- The state after some steps, each of which is allowed. -/
def play (ok : Server → Act → Prop) [∀ s, DecidablePred (ok s)] (s : Server) :
    List Act → Option Server
  | [] => some s
  | a :: as => if ok s a then (s.act a).bind fun s => play ok s as else none

theorem play_sound [∀ s, DecidablePred (ok s)] {as : List Act} (h : play ok s as = some s') :
    Relation.ReflTransGen (Step ok) s s' := by
  induction as generalizing s with
  | nil =>
    obtain rfl := Option.some.inj h
    exact .refl
  | cons a as ih =>
    obtain ⟨hok, h⟩ := Option.ite_none_right_eq_some.mp h
    obtain ⟨t, ht, h⟩ := Option.bind_eq_some_iff.mp h
    exact (ih h).head ⟨a, hok, ht⟩

theorem exists_reaches [∀ s, DecidablePred (ok s)] {n : Nat} (as : List Act) {P : Server → Prop}
    [DecidablePred P] (h : (play ok { concurrency := n } as).any (fun s => decide (P s)) = true) :
    ∃ s, Reaches ok n s ∧ P s := by
  obtain ⟨s, hs, hp⟩ := (Option.any_eq_true ..).mp h
  exact ⟨s, play_sound hs, of_decide_eq_true hp⟩

/-- A delivery of a unique task. -/
def sampleDelivery (queue id : String) (sid : Nat) : Dequeued :=
  ⟨sid, { id := id, kind := "mail", payload := [], queue := queue, maxRetry := 3,
          uniqueKey := queue ++ ":unique" }⟩

/-- Two tasks are fetched, one after the other, and their workers registered; then
the first worker finishes. -/
def sampleActs (first second : Dequeued) : List Act :=
  [.fetch [first], .dispatch, .track 0, .fetch [second], .dispatch, .track 1, .finish 0,
    .untrack 0]

/-- The worker `i` runs the task of a delivery. -/
def Runs (s : Server) (i : Nat) (dt : Dequeued) : Prop :=
  s.workers[i]? = some ⟨dt.msg.queue, dt.streamID, dt.msg, .running⟩

instance (s : Server) (i : Nat) (dt : Dequeued) : Decidable (s.Runs i dt) :=
  inferInstanceAs (Decidable (_ = _))

theorem second_worker_covered :
    ∃ s, Reaches Free 2 s ∧ s.Runs 1 (sampleDelivery "b" "y" 4) ∧
      4 ∈ s.beat.byQueue "b" ∧ "b:unique" ∈ s.beat.uniqueKeys := by
  obtain ⟨s, hr, hw⟩ : ∃ s, Reaches Free 2 s ∧ s.Runs 1 (sampleDelivery "b" "y" 4) :=
    exists_reaches (sampleActs (sampleDelivery "a" "x" 7) (sampleDelivery "b" "y" 4))
      (by decide +kernel)
  obtain ⟨hlease, hkey⟩ := beat_covers_running hr (List.mem_of_getElem? hw) rfl
  exact ⟨s, hr, hw, hlease, hkey (by decide)⟩

/-- Two tasks of one identifier on two queues: the worker that finishes first takes
the other's entry with it, and the heartbeat refreshes nothing. -/
theorem shared_id_not_refreshed :
    ∃ s, Reaches (fun _ _ => True) 2 s ∧ s.Runs 1 (sampleDelivery "b" "x" 4) ∧
      s.beat.byQueue "b" = [] ∧ s.beat.uniqueKeys = [] :=
  exists_reaches (sampleActs (sampleDelivery "a" "x" 7) (sampleDelivery "b" "x" 4))
    (by decide +kernel)

end Server
end ChronosGo.Heartbeat
