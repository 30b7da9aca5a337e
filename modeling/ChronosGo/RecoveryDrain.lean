import ChronosGo.StoreRuns
import ChronosGo.Replay
import ChronosGo.Solo
import ChronosGo.WindowSweep

/-! # What repeated recovery drains

`Recover` reclaims the entries of a queue's pending entries list that have been
idle too long.  It asks `XAUTOCLAIM` to start at the front of the list each time
and does not use the cursor it gets back, and `XAUTOCLAIM` examines ten times as
many entries as it may claim.  So a call is a sweep through a window
(`WindowSweep`): the list after `n` calls is the `n`-th sweep of the list before
(`Calm.rounds`).

Entries whose workers send heartbeats are never claimed and stay in the list.
Enough of them in front of an abandoned entry hide it for good; with fewer, as many
calls as there are abandoned entries settle them all (`recover_drains_iff`).
-/
namespace Redis.Stream
open WindowSweep
variable {α κ : Type}

/-! ## The sweep of `XAUTOCLAIM` -/

section Scan
variable {present : Nat → Bool} {consumer : κ} {minIdle now : Int} {fresh : List Nat}
variable {ps : List (PelEntry κ)}

/-- The entries claimed are those that a sweep takes, if the fresh ones are kept. -/
theorem claimScan_taken (hpresent : ∀ p ∈ ps, present p.id = true)
    (hfresh : ∀ p ∈ ps, now - p.deliveredAt < minIdle ↔ p.id ∈ fresh) (attempts count : Nat) :
    (claimScan present consumer minIdle now attempts count ps).2 =
      taken (· ∈ fresh) attempts count (ps.map PelEntry.id) := by
  fun_induction claimScan present consumer minIdle now attempts count ps with
  | case1 | case2 | case3 => simp [taken]
  | case4 attempts count p ps hn ih => simp [hpresent p List.mem_cons_self] at hn
  | case5 attempts count p ps _ hidle rest ih =>
    have hp : p.id ∈ fresh := (hfresh p List.mem_cons_self).mp hidle
    have ih := ih (fun p hp => hpresent p (List.mem_cons_of_mem _ hp))
      fun p hp => hfresh p (List.mem_cons_of_mem _ hp)
    rw [ih]
    simp [taken, hp]
  | case6 attempts count p ps _ hidle rest ih =>
    have hp : p.id ∉ fresh := fun h => hidle ((hfresh p List.mem_cons_self).mpr h)
    have ih := ih (fun p hp => hpresent p (List.mem_cons_of_mem _ hp))
      fun p hp => hfresh p (List.mem_cons_of_mem _ hp)
    rw [ih]
    simp [taken, hp]

/-- No entry that the stream still has leaves the list. -/
theorem claimScan_ids (hpresent : ∀ p ∈ ps, present p.id = true) (attempts count : Nat) :
    (claimScan present consumer minIdle now attempts count ps).1.map PelEntry.id =
      ps.map PelEntry.id := by
  fun_induction claimScan present consumer minIdle now attempts count ps with
  | case1 => rfl
  | case2 => rfl
  | case3 => rfl
  | case4 attempts count p ps hn ih => simp [hpresent p List.mem_cons_self] at hn
  | case5 attempts count p ps _ _ rest ih | case6 attempts count p ps _ _ rest ih =>
    rw [List.map_cons, List.map_cons, ih fun p hp => hpresent p (List.mem_cons_of_mem _ hp)]

/-- What is not claimed stays as it is. -/
theorem mem_claimScan_or {attempts count : Nat} {p : PelEntry κ}
    (h : p ∈ (claimScan present consumer minIdle now attempts count ps).1) :
    p ∈ ps ∨ p.id ∈ (claimScan present consumer minIdle now attempts count ps).2 := by
  fun_induction claimScan present consumer minIdle now attempts count ps with
  | case1 | case2 | case3 => exact .inl h
  | case4 attempts count p' ps _ ih =>
    exact (ih h).imp_left (List.mem_cons_of_mem _)
  | case5 attempts count p' ps _ _ rest ih =>
    rcases List.mem_cons.mp h with rfl | h
    · exact .inl List.mem_cons_self
    · exact (ih h).imp_left (List.mem_cons_of_mem _)
  | case6 attempts count p' ps _ _ rest ih =>
    rcases List.mem_cons.mp h with rfl | h
    · exact .inr List.mem_cons_self
    · exact (ih h).imp (List.mem_cons_of_mem _) (List.mem_cons_of_mem _)

/-- Only what has been idle is claimed. -/
theorem idle_of_claimScan {attempts count : Nat} {id : Nat}
    (h : id ∈ (claimScan present consumer minIdle now attempts count ps).2) :
    ∃ p ∈ ps, p.id = id ∧ ¬ now - p.deliveredAt < minIdle := by
  fun_induction claimScan present consumer minIdle now attempts count ps with
  | case1 => cases h
  | case2 => cases h
  | case3 => cases h
  | case4 attempts count p ps _ ih | case5 attempts count p ps _ _ rest ih =>
    obtain ⟨p', hp', hid⟩ := ih h
    exact ⟨p', List.mem_cons_of_mem _ hp', hid⟩
  | case6 attempts count p ps _ hidle rest ih =>
    rcases List.mem_cons.mp h with rfl | h
    · exact ⟨p, List.mem_cons_self, rfl, hidle⟩
    · obtain ⟨p', hp', hid⟩ := ih h
      exact ⟨p', List.mem_cons_of_mem _ hp', hid⟩

end Scan

/-- The identifiers of the pending entries, in order. -/
def pendingIds (s : Stream α κ) : List Nat := s.pel.map PelEntry.id

theorem pendingIds_ack (s : Stream α κ) (sid : Nat) :
    ((s.xack [sid]).xdel [sid]).pendingIds = s.pendingIds.filter (· ≠ sid) := by
  simp only [pendingIds, pel_xdel, xack, List.filter_map]
  congr 1
  refine List.filter_congr fun p _ => ?_
  simp

theorem pendingIds_xclaim (s : Stream α κ) (consumer : κ) (ids : List Nat) (now : Int) :
    (s.xclaim consumer ids now).pendingIds = s.pendingIds := by
  simp only [pendingIds, xclaim, List.map_map]
  refine List.map_congr_left fun p _ => ?_
  simp only [Function.comp_apply]
  split <;> rfl

theorem mem_pel_xclaim {s : Stream α κ} {consumer : κ} {ids : List Nat} {now : Int}
    {p : PelEntry κ} (h : p ∈ (s.xclaim consumer ids now).pel) : p.id ∈ ids ∨ p ∈ s.pel := by
  obtain ⟨p', hp', rfl⟩ := List.mem_map.mp h
  split
  · next hid => exact .inl hid
  · exact .inr hp'

/-- Whether the accounts are in order depends on the identifiers of pending entries. -/
theorem balanced_iff {s : Stream α κ} : s.Balanced ↔
    (∀ e ∈ s.entries, e.1 ≤ s.lastDelivered → e.1 ∈ s.pendingIds) ∧
      ∀ x ∈ s.pendingIds, ∃ e ∈ s.entries, e.1 = x := by
  refine ⟨fun h => ⟨fun e he hle => List.mem_map.mpr (h.pending e he hle), fun x hx => ?_⟩,
    fun h => ⟨fun e he hle => List.mem_map.mp (h.1 e he hle),
      fun p hp => h.2 p.id (List.mem_map.mpr ⟨p, hp, rfl⟩)⟩⟩
  obtain ⟨p, hp, rfl⟩ := List.mem_map.mp hx
  exact h.present p hp

theorem Balanced.xclaim {s : Stream α κ} (h : s.Balanced) (consumer : κ) (ids : List Nat)
    (now : Int) : (s.xclaim consumer ids now).Balanced := by
  rw [balanced_iff, pendingIds_xclaim]
  exact balanced_iff.mp h

end Redis.Stream

namespace ChronosGo.Recovery
open Interleaving Redis Redis.Stream WindowSweep

/-! ## Rounds of recovery -/

/-- `ExtendLease` for some entries of a queue. -/
def heartbeat (w : World) (q consumer : String) (ids : List Nat) : World :=
  let s := { w.slot q with stream := (w.slot q).stream.xclaim consumer ids w.now }
  { w with slot := Function.update w.slot q s }

/-- The entries with heartbeats have not been idle for long. -/
def FreshAt (q : String) (fresh : List Nat) (minIdle : Int) (w : World) : Prop :=
  ∀ p ∈ (w.slot q).stream.pel, p.id ∈ fresh → w.now - p.deliveredAt < minIdle

/-- Runs without errors, where no entry is claimed while one with heartbeats is late. -/
def attended (q : String) (fresh : List Nat) (minIdle : Int) : Regime where
  spawn := fun _ => True
  allow := fun _ op w => ∀ c m n, op = .xAutoClaim q c m n → FreshAt q fresh minIdle w
  handler := fun _ _ _ => True
  tick := fun _ _ => True
  faults := False
  crash := False

/-- Besides the routine that recovers, time passes and heartbeats are sent. -/
def machine (k : Keys) (q : String) (fresh : List Nat) (minIdle : Int) :
    Machine Cmd Cmd.Reply Job World :=
  { (attended q fresh minIdle).machine k with
    env := fun w w' => (∃ t, w.now ≤ t ∧ w' = w.tick t) ∨
      ∃ consumer ids, ids ⊆ fresh ∧ w' = heartbeat w q consumer ids }

section Rounds
variable (k : Keys) (q : String) (fresh : List Nat) (minIdle : Int) (max : Nat)

/-- One call of `Recover`. -/
def Round (w w' : World) : Prop :=
  ∃ i consumer, (machine k q fresh minIdle).Alone i (recover q consumer minIdle max) w () w'

/-- So many calls, one after the other. -/
def Rounds : Nat → World → World → Prop
  | 0, w, w' => w' = w
  | n + 1, w, w'' => ∃ w', Round k q fresh minIdle max w w' ∧ Rounds n w' w''

end Rounds

/-- The entry is out of the pending entries list and the stream, and its task has no
body or is among those to be retried or archived. -/
structure Settled (s : Slot) (e : Nat × String) : Prop where
  acked : e.1 ∉ s.stream.pendingIds
  deleted : e ∉ s.stream.entries
  placed : s.body e.2 = none ∨ e.2 ∈ s.zset .retry ∨ e.2 ∈ s.zset .archived

/-- Where recovery stands: `ids` are pending, of which those in `todo` have just been
claimed, and of what was pending in `s₀` the rest is settled. -/
structure Calm (q : String) (fresh : List Nat) (minIdle : Int) (s₀ : Slot) (ids : List Nat)
    (todo : List (Nat × String)) (now : Int) (s : Slot) : Prop where
  wellKept : s.WellKept q
  pending : s.stream.pendingIds = ids
  idle : ∀ p ∈ s.stream.pel, p.id ∉ fresh → p.id ∉ todo.map Prod.fst →
    minIdle ≤ now - p.deliveredAt
  entries : ∀ e ∈ s.stream.entries, e ∈ s₀.stream.entries
  settled : ∀ e ∈ s₀.stream.entries, e.1 ∈ s₀.stream.pendingIds → e.1 ∈ ids ∨ Settled s e

section Steps
variable {q : String} {fresh : List Nat} {minIdle : Int} {s₀ s t : Slot} {ids : List Nat}
  {todo : List (Nat × String)} {now : Int} {sid : Nat} {id : String}

theorem Calm.of_agree (h : Calm q fresh minIdle s₀ ids todo now s) (hstream : t.stream = s.stream)
    (hbody : ∀ x, t.body x = s.body x) (hzset : t.zset = s.zset) :
    Calm q fresh minIdle s₀ ids todo now t := by
  refine ⟨⟨fun x m hx => h.wellKept.keyed x m (hbody x ▸ hx), hstream ▸ h.wellKept.balanced⟩,
    hstream ▸ h.pending, hstream ▸ h.idle, hstream ▸ h.entries, fun e he hp => ?_⟩
  refine (h.settled e he hp).imp_right fun hs => ⟨hstream ▸ hs.acked, hstream ▸ hs.deleted, ?_⟩
  rw [hbody, hzset]
  exact hs.placed

/-- What acknowledges an entry and puts its task where it belongs settles the entry. -/
theorem Calm.ack (h : Calm q fresh minIdle s₀ ids ((sid, id) :: todo) now s)
    (he : (sid, id) ∈ s₀.stream.entries) (hkept : t.WellKept q)
    (hstream : t.stream = (s.stream.xack [sid]).xdel [sid])
    (hbody : ∀ x, s.body x = none → t.body x = none)
    (hzset : ∀ z x, x ∈ s.zset z → x ∈ t.zset z)
    (hplaced : t.body id = none ∨ id ∈ t.zset .retry ∨ id ∈ t.zset .archived) :
    Calm q fresh minIdle s₀ (ids.filter (· ≠ sid)) todo now t := by
  have hpending : t.stream.pendingIds = ids.filter (· ≠ sid) := by
    rw [hstream, pendingIds_ack, h.pending]
  have hentries : ∀ e, e ∈ t.stream.entries ↔ e ∈ s.stream.entries ∧ e.1 ≠ sid := by
    intro e
    rw [hstream]
    simp
  refine ⟨hkept, hpending, fun p hp hf ht => ?_, fun e he => h.entries e ((hentries e).mp he).1,
    fun e he₀ hp₀ => ?_⟩
  · rw [hstream] at hp
    obtain ⟨hp, hne⟩ := (mem_pel_xack _).mp hp
    refine h.idle p hp hf fun hm => ?_
    rcases List.mem_cons.mp hm with hm | hm
    · exact hne (hm ▸ List.mem_singleton_self _)
    · exact ht hm
  · rcases h.settled e he₀ hp₀ with hin | hset
    · by_cases hsid : e.1 = sid
      · -- the entry itself
        obtain rfl : e.2 = id := s₀.stream.entry_unique (hsid ▸ he₀ : (sid, e.2) ∈ _) he
        refine .inr ⟨?_, fun hm => ((hentries e).mp hm).2 hsid, hplaced⟩
        rw [hpending]
        simp [hsid]
      · exact .inl (List.mem_filter.mpr ⟨hin, by simpa using hsid⟩)
    · refine .inr ⟨?_, fun hm => hset.deleted ((hentries e).mp hm).1, ?_⟩
      · rw [hpending]
        exact fun hm => hset.acked (h.pending.symm ▸ (List.mem_filter.mp hm).1)
      · rcases hset.placed with hb | hz | hz
        · exact .inl (hbody _ hb)
        · exact .inr (.inl (hzset _ _ hz))
        · exact .inr (.inr (hzset _ _ hz))

/-- An entry whose task is retried or archived is settled. -/
theorem Calm.moveToZSet (k : Keys)
    (h : Calm q fresh minIdle s₀ ids ((sid, id) :: todo) now s)
    (he : (sid, id) ∈ s₀.stream.entries) {msg : TaskMessage} (hid : msg.id = id)
    (hq : msg.queue = q) (hbody : s.body id ≠ none) {z : ZKey} (hz : z = .retry ∨ z = .archived)
    (score : Int) :
    Calm q fresh minIdle s₀ (ids.filter (· ≠ sid)) todo now (s.moveToZSet sid msg z score) := by
  have hlocal : Op.Local (.moveToZSet q sid msg z score) := hq
  have hkept : (s.moveToZSet sid msg z score).WellKept q :=
    wellKept_run (k := k) hlocal now h.wellKept
  refine h.ack he hkept rfl (fun x hx => ?_) (fun z' x hx => ?_) (.inr ?_)
  · have hne : x ≠ msg.id := fun heq => hbody (hid ▸ heq ▸ hx)
    simp [hne, hx]
  · simp [Slot.moveToZSet, hx]
  · rcases hz with rfl | rfl
    · exact .inl (by simp [Slot.moveToZSet, hid])
    · exact .inr (by simp [Slot.moveToZSet, hid])

/-- An entry whose task has no body is settled when it is dropped. -/
theorem Calm.ackOrphan (k : Keys)
    (h : Calm q fresh minIdle s₀ ids ((sid, id) :: todo) now s)
    (he : (sid, id) ∈ s₀.stream.entries) (hbody : s.body id = none) :
    Calm q fresh minIdle s₀ (ids.filter (· ≠ sid)) todo now (s.ack [sid]) := by
  have hlocal : Op.Local (.ackOrphans q [sid]) := trivial
  have hkept : (s.ack [sid]).WellKept q := wellKept_run (k := k) hlocal now h.wellKept
  exact h.ack he hkept rfl (fun _ hx => hx) (fun _ _ hx => hx) (.inl hbody)

/-- `XAUTOCLAIM` claims what a sweep takes; nothing leaves the list yet. -/
theorem Calm.xautoclaim (k : Keys) (h : Calm q fresh minIdle s₀ ids [] now s)
    (hfresh : ∀ p ∈ s.stream.pel, p.id ∈ fresh → now - p.deliveredAt < minIdle)
    (consumer : String) (max : Nat) :
    (∀ x ∈ ids, x ∈ (s.stream.claimed consumer minIdle max now).map Prod.fst ↔
        x ∈ taken (· ∈ fresh) (10 * max) max ids) ∧
      (∀ e ∈ s.stream.claimed consumer minIdle max now, e ∈ s₀.stream.entries) ∧
      Calm q fresh minIdle s₀ ids (s.stream.claimed consumer minIdle max now) now
        { s with stream := s.stream.xautoclaim consumer minIdle max now } := by
  have hpresent : ∀ p ∈ s.stream.pel, s.stream.has p.id = true := fun p hp =>
    has_iff.mpr (h.wellKept.balanced.present p hp)
  have hsweep : (s.stream.sweep consumer minIdle max now).2 =
      taken (· ∈ fresh) (10 * max) max ids := by
    rw [← h.pending]
    refine claimScan_taken hpresent (fun p hp => ⟨fun hlt => ?_, hfresh p hp⟩) _ _
    by_contra hf
    have := h.idle p hp hf (by simp)
    omega
  have hclaimed : ∀ x ∈ s.stream.pendingIds,
      x ∈ (s.stream.claimed consumer minIdle max now).map Prod.fst ↔
        x ∈ (s.stream.sweep consumer minIdle max now).2 := by
    intro x hx
    obtain ⟨p, hp, rfl⟩ := List.mem_map.mp hx
    obtain ⟨e, he, hid⟩ := h.wellKept.balanced.present p hp
    simp only [claimed, List.mem_map, List.mem_filter, decide_eq_true_eq]
    exact ⟨fun ⟨e', he', hid'⟩ => hid' ▸ he'.2, fun hm => ⟨e, ⟨he, hid ▸ hm⟩, hid⟩⟩
  have hpending : (s.stream.xautoclaim consumer minIdle max now).pendingIds = ids := by
    rw [← h.pending]
    exact claimScan_ids hpresent _ _
  refine ⟨fun x hx => ?_, fun e he => h.entries e (List.mem_filter.mp he).1, ?_, hpending, ?_,
    h.entries, fun e he hp => ?_⟩
  · rw [← hsweep]
    exact hclaimed x (h.pending.symm ▸ hx)
  · have hlocal : Op.Local (.xAutoClaim q consumer minIdle max) := trivial
    exact wellKept_run (k := k) hlocal now h.wellKept
  · intro p hp hf ht
    rcases mem_claimScan_or hp with hp' | hp'
    · exact h.idle p hp' hf (by simp)
    · have hin : p.id ∈ s.stream.pendingIds := by
        rw [h.pending, ← hpending]
        exact List.mem_map.mpr ⟨p, hp, rfl⟩
      exact absurd ((hclaimed p.id hin).mpr hp') ht
  · rcases h.settled e he hp with hin | hset
    · exact .inl hin
    · exact .inr ⟨fun hm => hset.acked (h.pending.symm ▸ hpending ▸ hm), hset.deleted, hset.placed⟩

end Steps

/-! ## `Recover`, alone -/

section Alone
variable {k : Keys} {q : String} {fresh : List Nat} {minIdle : Int} {s₀ : Slot} {ids : List Nat}
  {todo : List (Nat × String)} {i : Nat} {w w' : World}

/-- Where recovery stands, in a world. -/
def CalmIn (q : String) (fresh : List Nat) (minIdle : Int) (s₀ : Slot) (ids : List Nat)
    (todo : List (Nat × String)) (w : World) : Prop :=
  Calm q fresh minIdle s₀ ids todo w.now (w.slot q)

/-- Neither time nor heartbeats disturb recovery. -/
theorem calm_env (h : CalmIn q fresh minIdle s₀ ids todo w)
    (he : (machine k q fresh minIdle).env w w') : CalmIn q fresh minIdle s₀ ids todo w' := by
  rcases he with ⟨t, ht, rfl⟩ | ⟨consumer, ids', hids, rfl⟩
  · refine ⟨⟨h.wellKept.keyed, h.wellKept.balanced⟩, h.pending, fun p hp hf hn => ?_, h.entries,
      fun e he hp => ?_⟩
    · have := h.idle p hp hf hn
      have hnow : (w.tick t).now = t := rfl
      omega
    · exact (h.settled e he hp).imp_right fun hs => ⟨hs.acked, hs.deleted, hs.placed⟩
  · have hslot : (heartbeat w q consumer ids').slot q =
        { w.slot q with stream := (w.slot q).stream.xclaim consumer ids' w.now } :=
      Function.update_self ..
    rw [CalmIn, hslot]
    refine ⟨⟨h.wellKept.keyed, h.wellKept.balanced.xclaim ..⟩,
      (pendingIds_xclaim ..).trans h.pending, fun p hp hf hn => ?_, h.entries, fun e he hp => ?_⟩
    · rcases mem_pel_xclaim hp with hid | hp
      · exact absurd (hids hid) hf
      · exact h.idle p hp hf hn
    · refine (h.settled e he hp).imp_right fun hs => ⟨?_, hs.deleted, hs.placed⟩
      rw [pendingIds_xclaim]
      exact hs.acked

theorem body_env (he : (machine k q fresh minIdle).env w w') (id : String) :
    (w'.slot q).body id = (w.slot q).body id := by
  rcases he with ⟨t, ht, rfl⟩ | ⟨consumer, ids', hids, rfl⟩
  · rfl
  · simp [heartbeat, Slot.body]

theorem exec_attended {op : Op} {r : Option op.Reply}
    (he : (machine k q fresh minIdle).exec i (.redis op) w r w') :
    (attended q fresh minIdle).allow i op w ∧ w' = w.perform k i op ∧ r = some (w.reply k op) := by
  rcases he with ⟨ha, hw, hr | ⟨hf, -⟩⟩ | ⟨hf, -, -⟩
  · exact ⟨ha, hw, hr⟩
  · exact hf.elim
  · exact hf.elim

theorem stable_calm :
    (machine k q fresh minIdle).Stable (CalmIn q fresh minIdle s₀ ids todo) :=
  fun _ _ => calm_env

theorem calmIn_perform {op : Op} (hq : op.queue = q)
    (h : Calm q fresh minIdle s₀ ids todo w.now (op.run k w.now (w.slot q)).1) :
    CalmIn q fresh minIdle s₀ ids todo (w.perform k i op) := by
  subst hq
  rw [CalmIn, World.slot_perform_self]
  exact h

/-- The release of a lock does not touch what recovery is about. -/
theorem calm_releaseUnique (h : CalmIn q fresh minIdle s₀ ids todo w) (q' key id : String) :
    CalmIn q fresh minIdle s₀ ids todo (w.perform k i (.releaseUnique q' key id)) := by
  by_cases hq : q' = q
  · exact calmIn_perform hq (Calm.of_agree h (Slot.stream_releaseUnique ..)
      (fun _ => Slot.body_releaseUnique ..) (Slot.zset_releaseUnique ..))
  · have hslot : (w.perform k i (.releaseUnique q' key id)).slot q = w.slot q :=
      World.slot_perform_ne (Ne.symm hq)
    rw [CalmIn, hslot]
    exact h

theorem solo_releaseUnique (msg : TaskMessage) :
    (machine k q fresh minIdle).Solo i (CalmIn q fresh minIdle s₀ ids todo) (releaseUnique msg)
      (fun _ => CalmIn q fresh minIdle s₀ ids todo) := by
  unfold releaseUnique
  split
  · exact .pure stable_calm fun _ hw => hw
  · refine .call (fun _ => CalmIn q fresh minIdle s₀ ids todo) stable_calm ?_ fun _ =>
      .pure stable_calm fun _ hw => hw
    intro w r w' hw he
    obtain ⟨-, rfl, -⟩ := exec_attended he
    exact calm_releaseUnique hw _ _ _

/-- One claimed entry. -/
theorem solo_recoverEntry {sid : Nat} {id : String} (he₀ : (sid, id) ∈ s₀.stream.entries)
    (t : Int) :
    (machine k q fresh minIdle).Solo i (CalmIn q fresh minIdle s₀ ids ((sid, id) :: todo))
      (recoverEntry q t sid id)
      (fun _ => CalmIn q fresh minIdle s₀ (ids.filter (· ≠ sid)) todo) := by
  have hstable (b : Option TaskMessage) : (machine k q fresh minIdle).Stable fun w =>
      (w.slot q).body id = b ∧ CalmIn q fresh minIdle s₀ ids ((sid, id) :: todo) w :=
    fun w w' hw he => ⟨(body_env he id).trans hw.1, calm_env hw.2 he⟩
  refine .call (fun r w => ∃ b, r = some b ∧ (w.slot q).body id = b ∧
    CalmIn q fresh minIdle s₀ ids ((sid, id) :: todo) w) stable_calm ?_ fun r =>
      .of_exists fun b => .of_and ?_
  · intro w r w' hw he
    obtain ⟨-, rfl, rfl⟩ := exec_attended he
    have hslot : (w.perform k i (.getTask q id)).slot q = w.slot q := World.slot_perform_self
    exact ⟨_, rfl, congrArg (Slot.body · id) hslot, calmIn_perform rfl hw⟩
  · rintro rfl
    cases b with
    | none =>
      refine .call (fun _ => CalmIn q fresh minIdle s₀ (ids.filter (· ≠ sid)) todo) (hstable none)
        ?_ fun _ => .pure stable_calm fun _ hw => hw
      intro w r w' hw he
      obtain ⟨-, rfl, -⟩ := exec_attended he
      exact calmIn_perform rfl (hw.2.ackOrphan k he₀ hw.1)
    | some msg =>
      -- the moved message is the task's own, with or without one more retry
      have hmove (m : TaskMessage) (hid : m.id = msg.id) (hqueue : m.queue = msg.queue) (z : ZKey)
          (hz : z = .retry ∨ z = .archived) (score : Int) (w : World)
          (hw : (w.slot q).body id = some msg ∧
            CalmIn q fresh minIdle s₀ ids ((sid, id) :: todo) w) :
          CalmIn q fresh minIdle s₀ (ids.filter (· ≠ sid)) todo
            (w.perform k i (.moveToZSet q sid m z score)) := by
        obtain ⟨hid', hqueue'⟩ := hw.2.wellKept.keyed id msg hw.1
        exact calmIn_perform rfl (hw.2.moveToZSet k he₀ (hid.trans hid') (hqueue.trans hqueue')
          (by rw [hw.1]; exact nofun) hz score)
      show (machine k q fresh minIdle).Solo i _ (if msg.maxRetry ≤ msg.retried then
        archive q sid msg t else retry q sid { msg with retried := msg.retried + 1 } t) _
      split
      · refine .call (fun _ => CalmIn q fresh minIdle s₀ (ids.filter (· ≠ sid)) todo)
          (hstable (some msg)) ?_ fun r => ?_
        · intro w r w' hw he
          obtain ⟨-, rfl, -⟩ := exec_attended he
          exact hmove msg rfl rfl _ (.inr rfl) _ w hw
        · cases r with
          | none => exact .pure stable_calm fun _ hw => hw
          | some _ => exact solo_releaseUnique msg
      · refine .call (fun _ => CalmIn q fresh minIdle s₀ (ids.filter (· ≠ sid)) todo)
          (hstable (some msg)) ?_ fun _ => .pure stable_calm fun _ hw => hw
        intro w r w' hw he
        obtain ⟨-, rfl, -⟩ := exec_attended he
        exact hmove { msg with retried := msg.retried + 1 } rfl rfl _ (.inl rfl) _ w hw

/-- The loop over the claimed entries. -/
theorem solo_recoverEntries (h₀ : ∀ e ∈ todo, e ∈ s₀.stream.entries) (t : Int) :
    (machine k q fresh minIdle).Solo i (CalmIn q fresh minIdle s₀ ids todo)
      (recoverEntries q t todo)
      (fun _ => CalmIn q fresh minIdle s₀ (ids.filter (· ∉ todo.map Prod.fst)) []) := by
  induction todo generalizing ids with
  | nil => exact .pure stable_calm fun _ hw => by simpa using hw
  | cons e todo ih =>
    refine .bind (solo_recoverEntry (h₀ e List.mem_cons_self) t) fun _ => ?_
    refine (ih fun e he => h₀ e (List.mem_cons_of_mem _ he)).mono fun _ w hw => ?_
    rw [List.filter_filter] at hw
    have hfilter : ids.filter (fun x => x ∉ (e :: todo).map Prod.fst) =
        ids.filter fun x => decide (x ∉ todo.map Prod.fst) && decide (x ≠ e.1) :=
      List.filter_congr fun x _ => by rw [Bool.eq_iff_iff]; simp [and_comm]
    rw [hfilter]
    exact hw

/-- **A call of `Recover` is a sweep of the pending entries**, and what it takes is
settled. -/
theorem solo_recover (consumer : String) (max : Nat) :
    (machine k q fresh minIdle).Solo i (CalmIn q fresh minIdle s₀ ids [])
      (recover q consumer minIdle max)
      (fun _ => CalmIn q fresh minIdle s₀ (sweep (· ∈ fresh) (10 * max) max ids) []) := by
  refine .call (fun r w => ∃ entries, r = some entries ∧
    (∀ x ∈ ids, x ∈ entries.map Prod.fst ↔ x ∈ taken (· ∈ fresh) (10 * max) max ids) ∧
    (∀ e ∈ entries, e ∈ s₀.stream.entries) ∧ CalmIn q fresh minIdle s₀ ids entries w)
    stable_calm ?_ fun r => .of_exists fun entries => .of_and ?_
  · intro w r w' hw he
    obtain ⟨ha, rfl, rfl⟩ := exec_attended he
    obtain ⟨htaken, hentries, hcalm⟩ := Calm.xautoclaim k hw (ha _ _ _ rfl) consumer max
    exact ⟨_, rfl, htaken, hentries, calmIn_perform rfl hcalm⟩
  · rintro rfl
    refine .of_and fun htaken => .of_and fun hentries => ?_
    refine .call (fun _ => CalmIn q fresh minIdle s₀ ids entries) stable_calm ?_ fun t => ?_
    · intro w r w' hw he
      obtain ⟨-, rfl⟩ := he
      exact hw
    · refine (solo_recoverEntries hentries t).mono fun _ w hw => ?_
      have hfilter : ids.filter (fun x => x ∉ entries.map Prod.fst) =
          sweep (· ∈ fresh) (10 * max) max ids :=
        List.filter_congr fun x hx => by simp only [htaken x hx]
      rw [← hfilter]
      exact hw

/-- **The pending entries after so many calls are so many sweeps of those before.** -/
theorem CalmIn.rounds {max n : Nat} (h : CalmIn q fresh minIdle s₀ ids [] w)
    (hr : Rounds k q fresh minIdle max n w w') :
    CalmIn q fresh minIdle s₀ ((sweep (· ∈ fresh) (10 * max) max)^[n] ids) [] w' := by
  induction n generalizing w ids with
  | zero =>
    rw [Rounds] at hr
    exact hr ▸ h
  | succ n ih =>
    obtain ⟨w₁, ⟨i, consumer, hround⟩, hrest⟩ := hr
    rw [Function.iterate_succ_apply]
    exact ih (solo_recover consumer max _ _ _ h hround) hrest

theorem calmIn_start (hkept : (w.slot q).WellKept q)
    (hidle : ∀ p ∈ (w.slot q).stream.pel, p.id ∉ fresh → minIdle ≤ w.now - p.deliveredAt) :
    CalmIn q fresh minIdle (w.slot q) (w.slot q).stream.pendingIds [] w :=
  ⟨hkept, rfl, fun p hp hf _ => hidle p hp hf, fun _ he => he, fun _ _ hp => .inl hp⟩

/-! ## Calls can always be made -/

/-- A request that delivers nothing leaves the entries with heartbeats as fresh as they
are. -/
theorem FreshAt.perform {op : Op} (h : FreshAt q fresh minIdle w)
    (hpel : op.queue = q → ∀ p ∈ (op.run k w.now (w.slot q)).1.stream.pel, p.id ∈ fresh →
      p ∈ (w.slot q).stream.pel) : FreshAt q fresh minIdle (w.perform k i op) := by
  intro p hp hf
  by_cases hq : op.queue = q
  · subst hq
    rw [World.slot_perform_self] at hp
    exact h p (hpel rfl p hp hf) hf
  · rw [World.slot_perform_ne (Ne.symm hq)] at hp
    exact h p hp hf

/-- The program can run to its end, and the entries with heartbeats are still fresh. -/
def CanRun {α : Type} (k : Keys) (q : String) (fresh : List Nat) (minIdle : Int) (i : Nat)
    (p : Routine α) (w : World) : Prop :=
  ∃ a w', (machine k q fresh minIdle).Alone i p w a w' ∧ FreshAt q fresh minIdle w'

theorem CanRun.pure {α : Type} {a : α} (h : FreshAt q fresh minIdle w) :
    CanRun k q fresh minIdle i (Prog.pure a) w := ⟨a, w, .pure a w, h⟩

/-- A program runs if its first request is answered and the rest runs. -/
theorem CanRun.call {α : Type} {op : Op} {f : Option op.Reply → Routine α}
    (ha : (attended q fresh minIdle).allow i op w)
    (h : CanRun k q fresh minIdle i (f (some (w.reply k op))) (w.perform k i op)) :
    CanRun k q fresh minIdle i (.call (.redis op) f) w := by
  obtain ⟨a, w', hrun, hfresh⟩ := h
  exact ⟨a, w', .call (.inl ⟨ha, rfl, .inl rfl⟩) hrun, hfresh⟩

theorem CanRun.bind {α β : Type} {p : Routine α} {f : α → Routine β}
    (hp : CanRun k q fresh minIdle i p w)
    (hf : ∀ a w', FreshAt q fresh minIdle w' → CanRun k q fresh minIdle i (f a) w') :
    CanRun k q fresh minIdle i (p >>= f) w := by
  obtain ⟨a, w₁, hrun, hfresh⟩ := hp
  obtain ⟨b, w₂, hrun', hfresh'⟩ := hf a w₁ hfresh
  exact ⟨b, w₂, hrun.bind hrun', hfresh'⟩

theorem canRun_releaseUnique (h : FreshAt q fresh minIdle w) (msg : TaskMessage) :
    CanRun k q fresh minIdle i (releaseUnique msg) w := by
  unfold releaseUnique
  split
  · exact .pure h
  · refine .call (fun _ _ _ h => nomatch h) (.pure (h.perform fun _ p hp _ => ?_))
    rwa [Op.run, Slot.stream_releaseUnique] at hp

theorem canRun_recoverEntry (h : FreshAt q fresh minIdle w) (t : Int) (sid : Nat) (id : String) :
    CanRun k q fresh minIdle i (recoverEntry q t sid id) w := by
  have hread : FreshAt q fresh minIdle (w.perform k i (.getTask q id)) :=
    h.perform fun _ _ hp _ => hp
  have hmove (w : World) (h : FreshAt q fresh minIdle w) (msg : TaskMessage) (z : ZKey)
      (score : Int) : FreshAt q fresh minIdle (w.perform k i (.moveToZSet q sid msg z score)) :=
    h.perform fun _ p hp _ => ((mem_pel_xack _).mp hp).1
  refine .call (fun _ _ _ h => nomatch h) ?_
  cases w.reply k (.getTask q id) with
  | none =>
    refine .call (fun _ _ _ h => nomatch h) (.pure (hread.perform fun _ p hp _ => ?_))
    exact ((mem_pel_xack _).mp hp).1
  | some msg =>
    show CanRun k q fresh minIdle i (if msg.maxRetry ≤ msg.retried then archive q sid msg t
      else retry q sid { msg with retried := msg.retried + 1 } t) _
    split
    · exact .call (fun _ _ _ h => nomatch h) (canRun_releaseUnique (hmove _ hread _ _ _) msg)
    · exact .call (fun _ _ _ h => nomatch h) (.pure (hmove _ hread _ _ _))

theorem canRun_recoverEntries (h : FreshAt q fresh minIdle w) (t : Int)
    (entries : List (Nat × String)) :
    CanRun k q fresh minIdle i (recoverEntries q t entries) w := by
  induction entries generalizing w with
  | nil => exact .pure h
  | cons e entries ih => exact .bind (canRun_recoverEntry h t e.1 e.2) fun _ _ h' => ih h'

/-- `Recover` can be called while the entries with heartbeats are fresh. -/
theorem canRun_recover (h : FreshAt q fresh minIdle w) (consumer : String) (max : Nat) :
    CanRun k q fresh minIdle i (recover q consumer minIdle max) w := by
  refine .call (fun _ _ _ _ => h) ?_
  have hclaim : FreshAt q fresh minIdle (w.perform k i (.xAutoClaim q consumer minIdle max)) :=
    h.perform fun _ p hp hf => (mem_claimScan_or hp).resolve_right fun hclaimed => by
      obtain ⟨p', hp', hid, hidle⟩ := idle_of_claimScan hclaimed
      exact hidle (h p' hp' (hid ▸ hf))
  obtain ⟨a, w', hrun, hfresh⟩ := canRun_recoverEntries hclaim w.now
    (w.reply k (.xAutoClaim q consumer minIdle max))
  exact ⟨a, w', .call ⟨rfl, rfl⟩ hrun, hfresh⟩

/-- Any number of calls can follow each other. -/
theorem exists_rounds (h : FreshAt q fresh minIdle w) (max n : Nat) :
    ∃ w', Rounds k q fresh minIdle max n w w' := by
  induction n generalizing w with
  | zero => exact ⟨w, rfl⟩
  | succ n ih =>
    obtain ⟨⟨⟩, w₁, hround, hfresh⟩ := canRun_recover (i := 0) (k := k) h "" max
    obtain ⟨w', hrest⟩ := ih hfresh
    exact ⟨w', w₁, ⟨0, "", hround⟩, hrest⟩

/-- **Repeated recovery settles every abandoned entry exactly when none has ten times
`max` entries with heartbeats in front of it.**  Then as many calls as there are
abandoned entries are enough. -/
theorem recover_drains_iff {max : Nat} (hmax : 1 ≤ max) (hkept : (w.slot q).WellKept q)
    (hfresh : ∀ p ∈ (w.slot q).stream.pel, p.id ∈ fresh → w.now - p.deliveredAt < minIdle)
    (hidle : ∀ p ∈ (w.slot q).stream.pel, p.id ∉ fresh → minIdle ≤ w.now - p.deliveredAt) :
    (∃ n, (∃ w', Rounds k q fresh minIdle max n w w') ∧
      ∀ w', Rounds k q fresh minIdle max n w w' →
        ∀ e ∈ (w.slot q).stream.entries, e.1 ∈ (w.slot q).stream.pendingIds → e.1 ∉ fresh →
          Settled (w'.slot q) e) ↔
      ∀ x ∈ (w.slot q).stream.pendingIds, x ∉ fresh →
        keptBefore (· ∈ fresh) x (w.slot q).stream.pendingIds < 10 * max := by
  have hstart := calmIn_start hkept hidle
  constructor
  · rintro ⟨n, ⟨w', hr⟩, hsettled⟩ x hx hf
    by_contra hbehind
    obtain ⟨p, hp, rfl⟩ := List.mem_map.mp hx
    obtain ⟨e, he, hid⟩ := hkept.balanced.present p hp
    -- the entry is still pending after all calls
    refine (hsettled w' hr e he (hid ▸ hx) (hid ▸ hf)).acked ?_
    rw [(hstart.rounds hr).pending, hid]
    exact mem_iterate_sweep hx (not_lt.mp hbehind) n
  · intro hbefore
    refine ⟨pending (· ∈ fresh) (w.slot q).stream.pendingIds, exists_rounds hfresh max _,
      fun w' hr e he hp hf => ?_⟩
    have hcalm := hstart.rounds hr
    refine (hcalm.settled e he hp).resolve_left fun hin => hf ?_
    exact iterate_sweep_drained hmax hbefore le_rfl e.1 hin

end Alone

/-! ## A crowd of entries -/

/-- Tasks of the queue `"q"` that were all delivered at time 0; some had heartbeats at time
100. -/
def crowd (ids : List String) (fresh : List Nat) : Slot :=
  let s := (ids.map sampleTask).foldl Slot.enqueue Slot.empty
  { s with stream := (s.stream.xreadgroup "worker" ids.length 0).xclaim "worker" fresh 100 }

def crowdAt (ids : List String) (fresh : List Nat) : World :=
  { World.init with slot := fun _ => crowd ids fresh, now := 100 }

theorem wellKept_enqueueAll (ids : List String) {s : Slot} (h : s.WellKept "q") :
    ((ids.map sampleTask).foldl Slot.enqueue s).WellKept "q" := by
  induction ids generalizing s with
  | nil => exact h
  | cons id ids ih =>
    have hlocal : Op.Local (.enqueue (sampleTask id)) := trivial
    exact ih (wellKept_run (k := sampleKeys) hlocal 0 h)

theorem wellKept_crowd (ids : List String) (fresh : List Nat) : (crowd ids fresh).WellKept "q" := by
  have h : ((ids.map sampleTask).foldl Slot.enqueue Slot.empty).WellKept "q" :=
    wellKept_enqueueAll ids ⟨fun _ _ hx => (nomatch hx), balanced_empty⟩
  exact ⟨h.keyed, (h.balanced.xreadgroup ..).xclaim ..⟩

/-- The tasks `"0"` to `"9"`, and `"last"`. -/
def eleven : List String := ["0", "1", "2", "3", "4", "5", "6", "7", "8", "9", "last"]

/-- Nine entries with heartbeats in front of an abandoned one do not hide it from calls
that claim one entry each. -/
theorem nine_fresh_drained :
    ∃ n, (∃ w', Rounds sampleKeys "q" [1, 2, 3, 4, 5, 6, 7, 8, 9] 50 1 n
        (crowdAt eleven [1, 2, 3, 4, 5, 6, 7, 8, 9]) w') ∧
      ∀ w', Rounds sampleKeys "q" [1, 2, 3, 4, 5, 6, 7, 8, 9] 50 1 n
        (crowdAt eleven [1, 2, 3, 4, 5, 6, 7, 8, 9]) w' →
        ∀ e ∈ ((crowdAt eleven [1, 2, 3, 4, 5, 6, 7, 8, 9]).slot "q").stream.entries,
          e.1 ∈ ((crowdAt eleven [1, 2, 3, 4, 5, 6, 7, 8, 9]).slot "q").stream.pendingIds →
          e.1 ∉ [1, 2, 3, 4, 5, 6, 7, 8, 9] → Settled (w'.slot "q") e :=
  (recover_drains_iff (by decide) (wellKept_crowd _ _) (by decide +kernel) (by decide +kernel)).mpr
    (by decide +kernel)

/-- Ten of them hide it for good: however often `Recover` is called, entry 11 stays
pending. -/
theorem ten_fresh_starve :
    let fresh := [1, 2, 3, 4, 5, 6, 7, 8, 9, 10]
    let w := crowdAt eleven fresh
    ((w.slot "q").WellKept "q" ∧
      (∀ p ∈ (w.slot "q").stream.pel, p.id ∈ fresh → w.now - p.deliveredAt < 50) ∧
      (∀ p ∈ (w.slot "q").stream.pel, p.id ∉ fresh → 50 ≤ w.now - p.deliveredAt)) ∧
    (11, "last") ∈ (w.slot "q").stream.entries ∧ 11 ∈ (w.slot "q").stream.pendingIds ∧
    ∀ n, (∃ w', Rounds sampleKeys "q" fresh 50 1 n w w') ∧
      ∀ w', Rounds sampleKeys "q" fresh 50 1 n w w' → 11 ∈ (w'.slot "q").stream.pendingIds := by
  intro fresh w
  have hfresh : ∀ p ∈ (w.slot "q").stream.pel, p.id ∈ fresh → w.now - p.deliveredAt < 50 := by
    decide +kernel
  have hidle : ∀ p ∈ (w.slot "q").stream.pel, p.id ∉ fresh → 50 ≤ w.now - p.deliveredAt := by
    decide +kernel
  have hkept : (w.slot "q").WellKept "q" := wellKept_crowd _ _
  have hmem : 11 ∈ (w.slot "q").stream.pendingIds := by decide +kernel
  refine ⟨⟨hkept, hfresh, hidle⟩, by decide +kernel, hmem, fun n =>
    ⟨exists_rounds hfresh 1 n, fun w' hr => ?_⟩⟩
  rw [((calmIn_start hkept hidle).rounds hr).pending]
  exact mem_iterate_sweep hmem (by decide +kernel) n

end ChronosGo.Recovery
