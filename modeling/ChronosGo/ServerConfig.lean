import ChronosGo.Interleaving
import ChronosGo.Task
import ChronosGo.WRRPicker

/-! # A server and its heartbeat

What the machines of a server have in common (`server.go`): the configuration with its
defaults, the order in which a round asks the queues, what is noted of a task in flight,
and a beat, whose steps are instructions of the machine that runs it.
-/
namespace ChronosGo
open Interleaving

/-! ## The configuration -/

/-- The fields of `ServerConfig` that the goroutines read; of the hook and the metrics it
matters whether they are there. -/
structure ServerConfig where
  queues : QueueWeights
  strictPriority : Bool := false
  concurrency : Int := 0
  onDeadLetter : Bool := false
  recoveryMetrics : Bool := false
  recoverMinIdle : Int := 0
  heartbeatInterval : Int := 0
  archivedRetention : Int := 0
  maxArchived : Int := 0
  maxCompleted : Int := 0

/-- A server, with its name as a consumer of the streams. -/
structure Server where
  cfg : ServerConfig
  consumer : String

/-- The interval of the heartbeat, which is cut to a third of `RecoverMinIdle` if it is not
shorter than that, and is a millisecond at least. -/
def clampHeartbeat (interval idle : Int) : Int :=
  let interval := if interval ≤ 0 ∨ idle ≤ interval then idle.tdiv 3 else interval
  if interval < 1000000 then 1000000 else interval

/-- `newServer`. -/
def newServer (cfg : ServerConfig) (consumer : String) : Server :=
  let idle := if cfg.recoverMinIdle ≤ 0 then 30 * second else cfg.recoverMinIdle
  { cfg :=
      { cfg with
        concurrency := if cfg.concurrency ≤ 0 then 1 else cfg.concurrency
        recoverMinIdle := idle
        heartbeatInterval := clampHeartbeat cfg.heartbeatInterval idle
        archivedRetention :=
          if cfg.archivedRetention ≤ 0 then 7 * 24 * 3600 * second else cfg.archivedRetention
        maxArchived := if cfg.maxArchived = 0 then 10000 else cfg.maxArchived
        maxCompleted := if cfg.maxCompleted = 0 then 10000 else cfg.maxCompleted }
    consumer := consumer }

/-- `maxFetchBatch`. -/
def maxFetchBatch : Nat := 128

namespace Server
variable (s : Server)

/-- `cap(s.sem)`. -/
def cap : Nat := s.cfg.concurrency.toNat

/-- `queueNames`. -/
def queueNames : List String := s.cfg.queues.entries.map Prod.fst

/-- The order of `queuesByWeight`: larger weights first, then by name. -/
def Before (q q' : String) : Prop :=
  let wi := normalizeWeight (s.cfg.queues.get q)
  let wj := normalizeWeight (s.cfg.queues.get q')
  if wi ≠ wj then wi > wj else q ≤ q'

instance : DecidableRel s.Before := fun _ _ => inferInstanceAs (Decidable (ite _ _ _))

/-- `queuesByWeight`. -/
def queuesByWeight : List String := s.queueNames.insertionSort s.Before

/-- The order in which a round asks the queues, and the picker after it. -/
def nextOrder (picker : WRRPicker) : List String × WRRPicker :=
  if s.cfg.strictPriority then (s.queuesByWeight, picker)
  else
    let (primary, picker) := picker.pick
    (primary :: s.queuesByWeight.filter (· ≠ primary), picker)

/-- The size of a batch when `len(s.sem)` is `len`. -/
def batchSize (len : Nat) : Int :=
  let batch := 1 + ((s.cap : Int) - len)
  let batch := if batch < 1 then 1 else batch
  if batch > maxFetchBatch then maxFetchBatch else batch

end Server

/-! ## A beat -/

/-- `inflightEntry`: what is noted of a task in flight. -/
structure InflightEntry where
  streamID : Nat
  queue : String
  uniqueKey : String
deriving DecidableEq

/-- The stream entries of a queue among what is noted. -/
def idsOf (es : List InflightEntry) (q : String) : List Nat :=
  (es.filter fun e => e.queue = q).map InflightEntry.streamID

/-- The locks among what is noted, with the queues that their keys name. -/
def uniqueKeys (es : List InflightEntry) : List (String × String) :=
  (es.filter fun e => e.uniqueKey ≠ "").map fun e => (e.queue, e.uniqueKey)

theorem mem_idsOf {es : List InflightEntry} {e : InflightEntry} (h : e ∈ es) :
    e.streamID ∈ idsOf es e.queue :=
  List.mem_map.mpr ⟨e, List.mem_filter.mpr ⟨h, decide_eq_true rfl⟩, rfl⟩

theorem mem_uniqueKeys {es : List InflightEntry} {e : InflightEntry} (h : e ∈ es)
    (hkey : e.uniqueKey ≠ "") : (e.queue, e.uniqueKey) ∈ uniqueKeys es :=
  List.mem_map.mpr ⟨e, List.mem_filter.mpr ⟨h, decide_eq_true hkey⟩, rfl⟩

section Beat
variable {C : Type} {R : C → Type} {J : Type}

/-- `ExtendLease` for one queue after the other. -/
def extendAll (extendLease : String → List Nat → Prog C R J Unit) (es : List InflightEntry) :
    List String → Prog C R J Unit
  | [] => return ()
  | q :: qs => do
    extendLease q (idsOf es q)
    extendAll extendLease es qs

/-- `beat`, over the instructions of a machine: a look at what is noted, then a request for
each queue and one for the locks, if there are any.  Errors are logged. -/
def beat (inflight : Prog C R J (List InflightEntry))
    (extendLease : String → List Nat → Prog C R J Unit)
    (renewUnique : List (String × String) → Prog C R J Unit) : Prog C R J Unit := do
  let es ← inflight
  extendAll extendLease es (es.map InflightEntry.queue).dedup
  if uniqueKeys es = [] then return () else renewUnique (uniqueKeys es)

end Beat

end ChronosGo
