import ChronosGo.Interleaving
import ChronosGo.RedisData
import ChronosGo.Task
import Mathlib.Data.List.Perm.Basic
import Mathlib.Logic.Function.Basic

/-! # The registry of schedules

Every scheduler instance writes its schedules to a global hash when it starts,
refreshes them while it runs, and removes entries that nobody has refreshed for a
minute, with their last fired times (`internal/rdb/registry.go`, `scheduler.go`).
Staleness is decided on what `HGETALL` returned; the removal is a later `HDEL`, and
then one `DEL` for each schedule.

An entry that is registered or refreshed in between is removed although it is fresh
(`fresh_entry_removed`).  Nothing else goes wrong: a removal that finds the entries
as they were read removes stale ones only (`removed_entries_stale`).
-/
namespace ChronosGo.Registry
open Interleaving Redis

/-- A value of the registry hash. -/
structure ScheduleMeta where
  kind : String
  queue : String
  spec : String
  registeredAt : Int := 0
  lastSeen : Int := 0
deriving DecidableEq

/-- A value as it is stored; `none` is one that does not decode. -/
abbrev Raw : Type := Option ScheduleMeta

/-- A registered schedule of an instance. -/
structure ScheduleEntry where
  id : String
  kind : String
  queue : String
  spec : String

def staleAfter : Int := 60 * second

/-- The requests of the registry, and looks at the clock. -/
inductive Cmd where
  | now
  | hSet (pairs : List (String × ScheduleMeta))
  | hMGet (ids : List String)
  | hGetAll
  | hDel (fields : List String)
  | delLastFired (id : String)

/-- `none` is an error. -/
@[reducible] def Cmd.Reply : Cmd → Type
  | .now => Int
  | .hSet _ => Option Unit
  | .hMGet _ => Option (List (Option Raw))
  | .hGetAll => Option (List (String × Raw))
  | .hDel _ => Option Unit
  | .delLastFired _ => Option Unit

/-- An instance: its schedules, and how often it renews them. -/
structure Job where
  entries : List ScheduleEntry
  renewals : Nat

abbrev Routine := Prog Cmd Cmd.Reply Job

/-! ## The routines -/

def registerSchedules (metas : List ScheduleEntry) : Routine Unit :=
  if metas = [] then return ()
  else do
    let now ← (Prog.cmd Cmd.now : Routine Int)
    let _ ← (Prog.cmd (Cmd.hSet (metas.map fun m =>
      (m.id, ⟨m.kind, m.queue, m.spec, unix now, unix now⟩))) : Routine (Option Unit))
    return ()

/-- The values that `TouchSchedules` writes back; those it cannot decode are skipped. -/
def touched (now : Int) (ids : List String) (vals : List (Option Raw)) :
    List (String × ScheduleMeta) :=
  (ids.zip vals).filterMap fun p => match p.2 with
    | some (some m) => some (p.1, { m with lastSeen := unix now })
    | _ => none

def touchSchedules (ids : List String) : Routine Unit :=
  if ids = [] then return ()
  else do
    match ← (Prog.cmd (Cmd.hMGet ids) : Routine (Option (List (Option Raw)))) with
    | none => return ()
    | some vals =>
      let now ← (Prog.cmd Cmd.now : Routine Int)
      if touched now ids vals = [] then return ()
      else
        let _ ← (Prog.cmd (Cmd.hSet (touched now ids vals)) : Routine (Option Unit))
        return ()

/-- The entry is a stale one. -/
def Stale (cutoff : Int) : Option Raw → Prop
  | some (some m) => m.lastSeen < cutoff
  | _ => False

instance (cutoff : Int) : (e : Option Raw) → Decidable (Stale cutoff e)
  | some (some m) => inferInstanceAs (Decidable (m.lastSeen < cutoff))
  | some none => isFalse id
  | none => isFalse id

/-- The entries to prune: stale ones that the caller does not register. -/
def pruned (keepIDs : List String) (cutoff : Int) (all : List (String × Raw)) : List String :=
  (all.map Prod.fst).filter fun id => id ∉ keepIDs ∧ Stale cutoff (hget all id)

def delAll : List String → Routine Unit
  | [] => return ()
  | f :: fields => do
    let _ ← (Prog.cmd (Cmd.delLastFired f) : Routine (Option Unit))
    delAll fields

def pruneSchedules (keepIDs : List String) (staleBefore : Int) : Routine Unit := do
  match ← (Prog.cmd Cmd.hGetAll : Routine (Option (List (String × Raw)))) with
  | none => return ()
  | some all =>
    if pruned keepIDs (unix staleBefore) all = [] then return ()
    else
      match ← (Prog.cmd (Cmd.hDel (pruned keepIDs (unix staleBefore) all)) :
          Routine (Option Unit)) with
      | none => return ()
      | some _ => delAll (pruned keepIDs (unix staleBefore) all)

def pruneRegistry (entries : List ScheduleEntry) : Routine Unit := do
  let now ← (Prog.cmd Cmd.now : Routine Int)
  pruneSchedules (entries.map ScheduleEntry.id) (now - staleAfter)

/-- The registry's part of `run`. -/
def renew (entries : List ScheduleEntry) : Nat → Routine Unit
  | 0 => return ()
  | n + 1 => do
    touchSchedules (entries.map ScheduleEntry.id)
    pruneRegistry entries
    renew entries n

/-- `Start`, and then `run`. -/
def Job.start (j : Job) : Routine Unit := do
  registerSchedules j.entries
  pruneRegistry j.entries
  renew j.entries j.renewals

/-! ## The store -/

/-- What a process works with: its last look at the clock, and the entries it last
read. -/
structure View where
  now : Int := 0
  all : List (String × Raw) := []

def View.see (v : View) : (c : Cmd) → c.Reply → View
  | .now, t => { v with now := t }
  | .hGetAll, some all => { v with all := all }
  | _, _ => v

/-- The cutoff of the prune a process is in. -/
def View.staleBefore (v : View) : Int := v.now - staleAfter

/-- What a prune has removed, a registry entry or a last fired time: the entry of the
schedule as it was then, and the cutoff. -/
structure Removal where
  id : String
  entry : Option Raw
  staleBefore : Int

structure Store where
  schedules : List (String × Raw)
  /-- In whole seconds. -/
  lastFired : String → Option Int
  now : Int
  view : Nat → View
  /-- Newest first. -/
  removals : List Removal

namespace Store

/-- A store before any instance runs; entries of earlier instances may be there. -/
def init (schedules : List (String × Raw)) (lastFired : String → Option Int) : Store :=
  ⟨schedules, lastFired, 0, fun _ => {}, []⟩

/-- A removal by process `i`. -/
def removal (w : Store) (i : Nat) (id : String) : Removal :=
  ⟨id, hget w.schedules id, (w.view i).staleBefore⟩

/-- What a command of process `i` does. -/
def perform (w : Store) (i : Nat) : Cmd → Store
  | .hSet pairs =>
    { w with schedules := pairs.foldl (fun h p => hset h p.1 (some p.2)) w.schedules }
  | .hDel fields =>
    { w with
      schedules := w.schedules.filter fun e => e.1 ∉ fields
      removals := fields.map (w.removal i) ++ w.removals }
  | .delLastFired id =>
    { w with
      lastFired := Function.update w.lastFired id none
      removals := w.removal i id :: w.removals }
  | _ => w

/-- The answers to a command that succeeds.  `HGETALL` returns the fields in any
order. -/
def Answers (w : Store) : (c : Cmd) → c.Reply → Prop
  | .now, t => t = w.now
  | .hMGet ids, r => r = some (ids.map (hget w.schedules))
  | .hGetAll, r => ∃ all, all.Perm w.schedules ∧ r = some all
  | .hSet _, r | .hDel _, r | .delLastFired _, r => r = some ()

/-- A process has been answered. -/
def see (w : Store) (i : Nat) (c : Cmd) (r : c.Reply) : Store :=
  { w with view := Function.update w.view i ((w.view i).see c r) }

end Store

/-- The answer of a command that fails; a look at the clock does not. -/
def Cmd.failed : (c : Cmd) → Option c.Reply
  | .now => none
  | .hSet _ | .hMGet _ | .hGetAll | .hDel _ | .delLastFired _ => some none

/-- What a run may contain: the commands a process may execute in a store.  Any
instance may be started at any time; commands may fail before or after their effect,
and processes may stop at any command. -/
structure Regime where
  allow : Nat → Cmd → Store → Prop

namespace Regime
variable (g : Regime)

/-- The execution of one command by process `i`. -/
def exec (i : Nat) (c : Cmd) (w : Store) (r : c.Reply) (w' : Store) : Prop :=
  (g.allow i c w ∧ w' = (w.perform i c).see i c r ∧ (w.Answers c r ∨ c.failed = some r)) ∨
    (c.failed = some r ∧ w' = w.see i c r)

/-- All runs of a regime. -/
def machine : Machine Cmd Cmd.Reply Job Store where
  start := Job.start
  spawn := fun _ => True
  exec := g.exec
  give := fun _ _ _ w => w
  env := fun w w' => ∃ t, w.now ≤ t ∧ w' = { w with now := t }
  crash := True

end Regime

/-! ## The discipline of an instance -/

/-- The view that a history gives. -/
abbrev viewOf (h : List (Event Cmd Cmd.Reply Job)) : View := Trace.viewOf View.see {} h

/-- Only what was read as stale is removed. -/
def Justified (h : List (Event Cmd Cmd.Reply Job)) : Cmd → Prop
  | .hDel fields =>
    ∀ f ∈ fields, Stale (unix (viewOf h).staleBefore) (hget (viewOf h).all f)
  | _ => True

/-- The discipline of all instances. -/
def protocol : Discipline Cmd Cmd.Reply Job where
  call := fun _ => Justified
  fork := fun _ _ _ => False
  done := fun _ _ => True

section Obeyed
variable {h : List (Event Cmd Cmd.Reply Job)}

/-- The program keeps to the discipline, from history `h` on. -/
abbrev Keeps (h : List (Event Cmd Cmd.Reply Job)) (p : Routine Unit) : Prop :=
  p.Follows Justified (fun _ _ => False) (fun _ _ => True) h

theorem keeps_registerSchedules (metas : List ScheduleEntry) :
    Keeps h (registerSchedules metas) := by
  unfold registerSchedules
  split
  · trivial
  · exact ⟨trivial, fun _ => ⟨trivial, fun _ => trivial⟩⟩

theorem keeps_touchSchedules (ids : List String) : Keeps h (touchSchedules ids) := by
  unfold touchSchedules
  split
  · trivial
  · refine ⟨trivial, fun r => ?_⟩
    match r with
    | none => trivial
    | some vals =>
      refine ⟨trivial, fun now => ?_⟩
      dsimp only [Prog.bind]
      split
      · trivial
      · exact ⟨trivial, fun _ => trivial⟩

theorem keeps_delAll (fields : List String) : Keeps h (delAll fields) := by
  induction fields generalizing h with
  | nil => trivial
  | cons f fields ih => exact ⟨trivial, fun _ => ih⟩

theorem stale_of_mem_pruned {keepIDs : List String} {cutoff : Int} {all : List (String × Raw)}
    {f : String} (hf : f ∈ pruned keepIDs cutoff all) : Stale cutoff (hget all f) :=
  (of_decide_eq_true (List.mem_filter.mp hf).2).2

theorem keeps_pruneSchedules (keepIDs : List String) :
    Keeps h (pruneSchedules keepIDs (viewOf h).staleBefore) := by
  refine ⟨trivial, fun r => ?_⟩
  match r with
  | none => trivial
  | some all =>
    dsimp only [Prog.bind]
    split
    · trivial
    · refine ⟨fun f hf => ?_, fun r => ?_⟩
      · rw [viewOf, Trace.viewOf_call]
        exact stale_of_mem_pruned hf
      · match r with
        | none => trivial
        | some _ => exact keeps_delAll _

theorem keeps_pruneRegistry (entries : List ScheduleEntry) : Keeps h (pruneRegistry entries) := by
  refine ⟨trivial, fun now => ?_⟩
  have hview : (viewOf (h ++ [.call .now now])).staleBefore = now - staleAfter := by
    rw [viewOf, Trace.viewOf_call]
    rfl
  have hprune := keeps_pruneSchedules (h := h ++ [.call .now now])
    (entries.map ScheduleEntry.id)
  rw [hview] at hprune
  exact hprune

theorem keeps_renew (entries : List ScheduleEntry) (n : Nat) : Keeps h (renew entries n) := by
  induction n generalizing h with
  | zero => trivial
  | succ n ih =>
    refine (keeps_touchSchedules _).bind fun _ _ _ => ?_
    exact (keeps_pruneRegistry entries).bind fun _ _ _ => ih

end Obeyed

/-- **Every instance keeps to the protocol.** -/
theorem obeys_protocol (g : Regime) : g.machine.Obeys protocol := by
  intro j
  refine (keeps_registerSchedules j.entries).bind fun _ _ _ => ?_
  exact (keeps_pruneRegistry j.entries).bind fun _ _ _ => keeps_renew j.entries j.renewals

/-! ## Removals -/

/-- All runs. -/
def anyRun : Regime := ⟨fun _ _ _ => True⟩

/-- Runs in which nothing was written between the read of a prune and its removals: an
entry is removed as it was read, or is already gone; a last fired time is deleted when
the schedule has not been registered again. -/
def undisturbed : Regime where
  allow := fun i c w =>
    match c with
    | .hDel fields =>
      ∀ f ∈ fields, hget w.schedules f = none ∨ hget w.schedules f = hget (w.view i).all f
    | .delLastFired id => hget w.schedules id = none
    | _ => True

/-- The entry that was removed, if there was one, was stale. -/
def Removal.Sound (r : Removal) : Prop :=
  ∀ m, r.entry = some (some m) → m.lastSeen < unix r.staleBefore

section Step
variable {g : Regime} {i : Nat} {c : Cmd} {w w' : Store} {r : c.Reply}

theorem view_perform (w : Store) (i : Nat) (c : Cmd) : (w.perform i c).view = w.view := by
  cases c <;> rfl

/-- A command changes only the view of its process, as its answer says. -/
theorem view_exec (he : g.exec i c w r w') :
    w'.view = Function.update w.view i ((w.view i).see c r) := by
  rcases he with ⟨-, rfl, -⟩ | ⟨-, rfl⟩
  · simp [Store.see, view_perform]
  · rfl

/-- What a command has removed. -/
theorem removals_exec (he : g.exec i c w r w') {x : Removal} (hx : x ∈ w'.removals) :
    x ∈ w.removals ∨ g.allow i c w ∧ ∃ id, x = w.removal i id ∧
      ((∃ fields, c = .hDel fields ∧ id ∈ fields) ∨ c = .delLastFired id) := by
  rcases he with ⟨ha, rfl, -⟩ | ⟨-, rfl⟩
  · cases c with
    | hDel fields =>
      rcases List.mem_append.mp hx with hx | hx
      · obtain ⟨id, hid, rfl⟩ := List.mem_map.mp hx
        exact Or.inr ⟨ha, id, rfl, Or.inl ⟨fields, rfl, hid⟩⟩
      · exact Or.inl hx
    | delLastFired id =>
      rcases List.mem_cons.mp hx with rfl | hx
      · exact Or.inr ⟨ha, id, rfl, Or.inr rfl⟩
      · exact Or.inl hx
    | now | hSet | hMGet | hGetAll => exact Or.inl hx
  · exact Or.inl hx

/-- An undisturbed command removes nothing that is fresh. -/
theorem sound_exec {h : List (Event Cmd Cmd.Reply Job)} (hv : w.view i = viewOf h)
    (hj : Justified h c) (he : undisturbed.exec i c w r w') (hold : ∀ x ∈ w.removals, x.Sound) :
    ∀ x ∈ w'.removals, x.Sound := by
  intro x hx
  rcases removals_exec he hx with hx | ⟨ha, id, rfl, ⟨fields, rfl, hid⟩ | rfl⟩
  · exact hold x hx
  · intro m hm
    have hm' : hget w.schedules id = some (some m) := hm
    have hstale := hj id hid
    rcases ha id hid with hnone | hsame
    · cases hnone.symm.trans hm'
    · rw [← hv, ← hsame, hm'] at hstale
      exact hstale
  · intro m hm
    have hm' : hget w.schedules id = some (some m) := hm
    cases Eq.trans (Eq.symm ha) hm'

end Step

/-- **Pruning spares live schedules** as long as it is undisturbed: whatever instances
start, run and stop, a prune removes the entry or the last fired time of a schedule only
if its entry is gone or was not seen since the cutoff. -/
theorem removed_entries_stale {schedules : List (String × Raw)} {lastFired : String → Option Int}
    {js : List Job} {d : Config Cmd Cmd.Reply Job Store}
    (hr : undisturbed.machine.Reaches (Store.init schedules lastFired) js d) :
    ∀ r ∈ d.world.removals, ∀ m, r.entry = some (some m) → m.lastSeen < unix r.staleBefore := by
  have hstep : ∀ s t : Trace Cmd Cmd.Reply Job Store,
      Trace.Tied View.see {} Store.view s ∧ (∀ r ∈ s.world.removals, r.Sound) →
      undisturbed.machine.Act protocol s t →
      Trace.Tied View.see {} Store.view t ∧ ∀ r ∈ t.world.removals, r.Sound := by
    rintro s t ⟨htied, hsound⟩ ha
    refine ⟨htied.act ha (fun i c r he => view_exec he) (fun _ _ _ _ => rfl) ?_, ?_⟩
    · rintro w w' ⟨now, -, rfl⟩
      rfl
    · cases ha with
      | @call w w' ps i p c r hp hc he =>
        have hv := htied i
        rw [Trace.histOf_eq hp] at hv
        exact sound_exec hv hc he hsound
      | fork _ hf => exact hf.elim
      | spawn => exact hsound
      | env he =>
        obtain ⟨now, -, rfl⟩ := he
        exact hsound
  obtain ⟨ps, ⟨-, hinv⟩, -⟩ := Discipline.invariant (obeys_protocol undisturbed)
    ⟨Trace.Tied.init _ js fun _ => rfl, fun _ hr => absurd hr List.not_mem_nil⟩ hstep hr
  exact hinv

/-! ## Replaying a run -/

/-- The answer to a command of process `i` that passes the check `allowed`. -/
def answer (allowed : Nat → Cmd → Store → Bool) (i : Nat) (c : Cmd) (w : Store) :
    Option (c.Reply × Store) :=
  let r : c.Reply := match c with
    | .now => w.now
    | .hMGet ids => some (ids.map (hget w.schedules))
    | .hGetAll => some w.schedules
    | .hSet _ | .hDel _ | .delLastFired _ => some ()
  if allowed i c w then some (r, (w.perform i c).see i c r) else none

def player (allowed : Nat → Cmd → Store → Bool) : Player Cmd Cmd.Reply Job Store Unit Int where
  start := Job.start
  give := fun _ _ _ w => w
  answer := fun _ => answer allowed
  env := fun t w => if w.now ≤ t then some { w with now := t } else none

theorem player_sound {g : Regime} {allowed : Nat → Cmd → Store → Bool}
    (hallow : ∀ i c w, allowed i c w = true → g.allow i c w) :
    (player allowed).Sound g.machine where
  start := rfl
  give := rfl
  answer := fun _ i c w a h => by
    simp only [player, answer] at h
    split at h
    · rename_i hok
      cases h
      refine Or.inl ⟨hallow i c w hok, rfl, Or.inl ?_⟩
      cases c with
      | hGetAll => exact ⟨w.schedules, .refl _, rfl⟩
      | now | hSet | hMGet | hDel | delLastFired => rfl
    · cases h
  env := fun t w w' h => by
    simp only [player] at h
    split at h
    · rename_i hle
      cases h
      exact ⟨t, hle, rfl⟩
    · cases h

/-- One step of a process. -/
abbrev go (i : Nat) : Choice Unit Int Job := .step i ()

/-- A schedule that an earlier instance has registered. -/
def sampleEntry : ScheduleEntry := ⟨"mail:@daily", "mail", "default", "@daily"⟩

/-- The store that the earlier instance has left. -/
def sampleStore : Store :=
  Store.init [("mail:@daily", some ⟨"mail", "default", "@daily", 0, 0⟩)] fun _ => some 0

/-- An instance that does not register the schedule removes it a hundred seconds
later. -/
theorem stale_entry_removed : ∃ d : Config Cmd Cmd.Reply Job Store,
    undisturbed.machine.Reaches sampleStore [⟨[], 0⟩] d ∧
      d.world.removals.length = 2 ∧
      ∀ r ∈ d.world.removals, ∀ m, r.entry = some (some m) → m.lastSeen < unix r.staleBefore := by
  have hsound : (player fun i c w => match c with
      | .hDel fields => decide (∀ f ∈ fields, hget w.schedules f = hget (w.view i).all f)
      | .delLastFired id => decide (hget w.schedules id = none)
      | _ => true).Sound undisturbed.machine := by
    refine player_sound fun i c w h => ?_
    cases c with
    | hDel fields => exact fun f hf => Or.inr (of_decide_eq_true h f hf)
    | delLastFired id => exact of_decide_eq_true (p := hget w.schedules id = none) h
    | now | hSet | hMGet | hGetAll => trivial
  obtain ⟨d, hr, hw⟩ := hsound.exists_reaches [.env (100 * second), go 0, go 0, go 0, go 0] trivial
    sampleStore [⟨[], 0⟩] (fun w => decide (w.removals.length = 2))
    (by decide +kernel)
  exact ⟨d, hr, of_decide_eq_true hw, removed_entries_stale hr⟩

/-- A prune has read the entry as stale; the instance that owns the schedule starts and
registers it; the prune removes it. -/
theorem fresh_entry_removed : ∃ d : Config Cmd Cmd.Reply Job Store,
    anyRun.machine.Reaches sampleStore [⟨[], 0⟩, ⟨[sampleEntry], 0⟩] d ∧
      hget d.world.schedules sampleEntry.id = none ∧ d.world.lastFired sampleEntry.id = none ∧
      ∃ r ∈ d.world.removals, ∃ m, r.entry = some (some m) ∧ unix r.staleBefore ≤ m.lastSeen := by
  have hsound : (player fun _ _ _ => true).Sound anyRun.machine :=
    player_sound fun _ _ _ _ => trivial
  obtain ⟨d, hr, hw⟩ := hsound.exists_reaches
    [.env (100 * second), go 0, go 0, go 1, go 1, go 0, go 0] trivial
    sampleStore [⟨[], 0⟩, ⟨[sampleEntry], 0⟩]
    (fun w => decide (hget w.schedules sampleEntry.id = none ∧
      w.lastFired sampleEntry.id = none ∧ ∃ r ∈ w.removals,
        r.entry = some (some ⟨"mail", "default", "@daily", 100, 100⟩) ∧ unix r.staleBefore ≤ 100))
    (by decide +kernel)
  obtain ⟨hgone, hfired, r, hr', he, hle⟩ := of_decide_eq_true hw
  exact ⟨d, hr, hgone, hfired, r, hr', _, he, hle⟩

end ChronosGo.Registry
