import ChronosGo.Leases

/-! # Leases and locks of tasks at work

If tasks are noted soon after their delivery and beats are in time, no recoverer claims
the entry of a task that a server works on, and its unique lock does not expire.  The
proof keeps a bound on every lease that is held: the pending entry was delivered, or its
lease extended, after the last beat that is complete began, or else that beat began
before the task was noted.
-/
namespace ChronosGo.Leases
open Interleaving Redis

variable {k : Keys} {p : PelEntry String} {key server : String} {w w' : World} {i : Nat}
  {pc : Pace} {x : Holding} {b : ChronosGo.World}

/-! ## What requests do to leases and locks -/

section Requests
variable {s : Slot} {op : Op}

/-- A sweep leaves a pending entry as it is, or claims it now. -/
theorem mem_claimScan_now {present : Nat → Bool} {consumer : String} {minIdle now : Int}
    {attempts count : Nat} {ps : List (PelEntry String)}
    (h : p ∈ (Stream.claimScan present consumer minIdle now attempts count ps).1) :
    p ∈ ps ∨ p.deliveredAt = now := by
  fun_induction Stream.claimScan present consumer minIdle now attempts count ps with
  | case1 | case2 | case3 => exact Or.inl h
  | case4 attempts count p' ps _ ih => exact (ih h).imp_left (List.mem_cons_of_mem _)
  | case5 attempts count p' ps _ _ rest ih =>
    rcases List.mem_cons.mp h with rfl | h
    · exact Or.inl List.mem_cons_self
    · exact (ih h).imp_left (List.mem_cons_of_mem _)
  | case6 attempts count p' ps _ _ rest ih =>
    rcases List.mem_cons.mp h with rfl | h
    · exact Or.inr rfl
    · exact (ih h).imp_left (List.mem_cons_of_mem _)

/-- The pending entries after a request were pending before, unless they were delivered
by it. -/
theorem pel_run (now : Int) (hp : p ∈ (op.run k now s).1.stream.pel) :
    p ∈ s.stream.pel ∨ p.deliveredAt = now := by
  by_cases hread : ∃ q consumer count, op = .xReadGroup q consumer count
  · obtain ⟨q, consumer, count, rfl⟩ := hread
    rcases List.mem_append.mp hp with hp | hp
    · exact Or.inl hp
    · obtain ⟨e, -, rfl⟩ := List.mem_map.mp hp
      exact Or.inr rfl
  by_cases hclaim : ∃ q consumer minIdle count, op = .xAutoClaim q consumer minIdle count
  · obtain ⟨q, consumer, minIdle, count, rfl⟩ := hclaim
    exact mem_claimScan_now hp
  -- all other requests only acknowledge
  refine Or.inl (run_invariant (I := fun t => ∀ p ∈ t.stream.pel, p ∈ s.stream.pel)
    (fun u t hm hu p hp => ?_) now (fun p hp => hp) p hp)
  cases hm with
  | quiet h =>
    rw [h.stream] at hp
    exact hu p hp
  | create _ score =>
    cases score <;> exact hu p hp
  | read _ q consumer count => exact absurd ⟨q, consumer, count, rfl⟩ hread
  | claim _ q consumer minIdle count => exact absurd ⟨q, consumer, minIdle, count, rfl⟩ hclaim
  | ack | ackDelete | move => exact hu p ((Stream.mem_pel_xack _).mp hp).1
  | requeue _ q sid id =>
    unfold Slot.requeue at hp
    dsimp only at hp
    split at hp <;> exact hu p ((Stream.mem_pel_xack _).mp hp).1
  | _ => exact hu p hp

/-- A lock after a request was there before, unless the request has taken it. -/
theorem lock_run (now : Int) {l : Lock} (hl : (op.run k now s).1.unique key = some l) :
    s.unique key = some l ∨
      (∃ msg ttl, op = .enqueueUnique msg ttl ∧ l.owner = msg.id) ∨
      ∃ msg processAt ttl, op = .scheduleUnique msg processAt ttl ∧ l.owner = msg.id := by
  -- a lock that is taken has a fresh owner, the others stay
  have htaken : ∀ (msg : TaskMessage) (ttl : Int),
      (s.acquire (Slot.withUniqueKey k msg).uniqueKey (Slot.withUniqueKey k msg).id ttl now).unique
        key = some l → s.unique key = some l ∨ l.owner = msg.id := by
    intro msg ttl h
    by_cases hkey : key = (Slot.withUniqueKey k msg).uniqueKey
    · subst hkey
      simp only [Slot.acquire, Function.update_self] at h
      cases h
      exact Or.inr rfl
    · simp only [Slot.acquire, Function.update_of_ne hkey] at h
      exact Or.inl h
  by_cases hop : op.Locks
  · cases op with
    | enqueueUnique msg ttl =>
      simp only [Op.run, Slot.enqueueUnique] at hl
      split at hl
      · exact Or.inl hl
      · exact (htaken msg ttl hl).imp_right fun h => Or.inl ⟨msg, ttl, rfl, h⟩
    | scheduleUnique msg processAt ttl =>
      simp only [Op.run, Slot.scheduleUnique] at hl
      split at hl
      · exact Or.inl hl
      · exact (htaken msg ttl hl).imp_right fun h => Or.inr ⟨msg, processAt, ttl, rfl, h⟩
    | releaseUnique q key' id =>
      simp only [Op.run, Slot.releaseUnique] at hl
      split at hl
      · by_cases hkey : key = key'
        · subst hkey
          simp at hl
        · simp only [Function.update_of_ne hkey] at hl
          exact Or.inl hl
      · exact Or.inl hl
    | _ => exact hop.elim
  · rw [Slot.unique_run now hop] at hl
    exact Or.inl hl

/-- A renewal creates no lock and shortens none, and leaves the time to live on the lock
it is for. -/
theorem unique_renewUnique {key' : String} {ttl now : Int} {l : Lock}
    (hl : (renewUnique s key ttl now).unique key' = some l) :
    ∃ l₀, s.unique key' = some l₀ ∧ l.owner = l₀.owner ∧ l₀.expireAt ≤ l.expireAt ∧
      (key' = key → now + Slot.ttlMillis ttl ≤ l.expireAt) := by
  unfold renewUnique at hl
  split at hl
  · rename_i hnone
    refine ⟨l, hl, rfl, Int.le_refl _, fun heq => ?_⟩
    rw [heq, hnone] at hl
    cases hl
  · rename_i l₀ hl₀
    split at hl
    · rename_i hlt
      by_cases hkey : key' = key
      · subst hkey
        simp only [Function.update_self] at hl
        cases hl
        exact ⟨l₀, hl₀, rfl, by dsimp only; omega, fun _ => Int.le_refl _⟩
      · simp only [Function.update_of_ne hkey] at hl
        exact ⟨l, hl, rfl, Int.le_refl _, fun heq => absurd heq hkey⟩
    · rename_i hge
      refine ⟨l, hl, rfl, Int.le_refl _, fun heq => ?_⟩
      rw [heq, hl₀] at hl
      cases hl
      omega

/-- Nor does it remove one. -/
theorem isSome_renewUnique (key key' : String) (ttl now : Int) :
    ((renewUnique s key ttl now).unique key').isSome = (s.unique key').isSome := by
  unfold renewUnique
  split
  · rfl
  · rename_i l₀ hl₀
    split
    · by_cases hkey : key' = key
      · subst hkey
        simp [hl₀]
      · simp [Function.update_of_ne hkey]
    · rfl

/-- The locks of a world, before and after a renewal. -/
structure World.Prolongs (w w' : World) : Prop where
  same : ∀ q key, ((w'.base.slot q).unique key).isSome = ((w.base.slot q).unique key).isSome
  longer : ∀ q key l, (w'.base.slot q).unique key = some l → ∃ l₀,
    (w.base.slot q).unique key = some l₀ ∧ l.owner = l₀.owner ∧ l₀.expireAt ≤ l.expireAt

/-- A lock after a renewal. -/
theorem unique_renew {q q' key' : String} {ttl : Int} {l : Lock}
    (hl : ((w.renew i server q key ttl).base.slot q').unique key' = some l) :
    ∃ l₀, (w.base.slot q').unique key' = some l₀ ∧ l.owner = l₀.owner ∧
      l₀.expireAt ≤ l.expireAt ∧
      (q' = q ∧ key' = key → w.now + Slot.ttlMillis ttl ≤ l.expireAt) := by
  by_cases hq : q' = q
  · subst hq
    simp only [World.renew, renewLock, Function.update_self] at hl
    obtain ⟨l₀, hl₀, hown, hle, hnew⟩ := unique_renewUnique hl
    exact ⟨l₀, hl₀, hown, hle, fun hk => hnew hk.2⟩
  · simp only [World.renew, renewLock, Function.update_of_ne hq] at hl
    exact ⟨l, hl, rfl, Int.le_refl _, fun hk => absurd hk.1 hq⟩

/-- `RenewUnique` neither creates nor removes a lock, gives none to another owner and
shortens none, whatever becomes of the request. -/
theorem prolongs_of_exec {q : String} {ttl : Int} {r : Option Unit}
    (he : w.Exec k i (.renewUnique server q key ttl) r w') : w.Prolongs w' := by
  rcases he with rfl | ⟨-, rfl⟩
  · refine ⟨fun q' key' => ?_, fun q' key' l hl => ?_⟩
    · by_cases hq : q' = q
      · subst hq
        simp only [World.renew, renewLock, Function.update_self]
        exact isSome_renewUnique key key' ttl w.base.now
      · simp only [World.renew, renewLock, Function.update_of_ne hq]
    · obtain ⟨l₀, hl₀, hown, hle, -⟩ := unique_renew hl
      exact ⟨l₀, hl₀, hown, hle⟩
  · exact ⟨fun _ _ => rfl, fun _ _ l hl => ⟨l, hl, rfl, Int.le_refl _⟩⟩

theorem stream_renew (i : Nat) (server q key : String) (ttl : Int) (q' : String) :
    ((w.renew i server q key ttl).base.slot q').stream = (w.base.slot q').stream := by
  by_cases hq : q' = q
  · subst hq
    simp only [World.renew, renewLock, Function.update_self, renewUnique]
    split
    · rfl
    · split <;> rfl
  · simp [World.renew, renewLock, Function.update_of_ne hq]

theorem unique_extend (i : Nat) (server q : String) (ids : List Nat) (q' : String) :
    ((w.extend i server q ids).base.slot q').unique = (w.base.slot q').unique := by
  by_cases hq : q' = q
  · simp [World.extend, Recovery.heartbeat, hq]
  · simp [World.extend, Recovery.heartbeat, Function.update_of_ne hq]

end Requests

/-! ## The invariant -/

/-- The lease of a pending entry, for a task that is held: it was delivered shortly before
the task was noted, and it is as young as the last complete beat, if that began after the
task was noted. -/
def Fresh (pc : Pace) (w : World) (x : Holding) (p : PelEntry String) : Prop :=
  x.since - pc.dispatch ≤ p.deliveredAt ∧
    (w.extended x.server x.entry.queue ≤ p.deliveredAt ∨
      w.extended x.server x.entry.queue ≤ x.since)

/-- The lock of a task that is held, once it has been renewed. -/
def Secure (pc : Pace) (w : World) (x : Holding) (l : Lock) : Prop :=
  w.renewed x.server x.entry.queue x.entry.uniqueKey ≤ x.since ∨
    w.renewed x.server x.entry.queue x.entry.uniqueKey +
      Slot.ttlMillis (2 * pc.recoverMinIdle) ≤ l.expireAt

structure Inv (pc : Pace) (w : World) : Prop where
  clock : 0 ≤ w.now
  noted : ∀ x ∈ w.held, (w.inflight x.server).lookup x.id = some x.entry
  since : ∀ x ∈ w.held, 0 ≤ x.since ∧ x.since ≤ w.now
  extended : ∀ s q, w.extended s q ≤ w.now
  renewed : ∀ s q key, w.renewed s q key ≤ w.now
  seen : ∀ i, (w.seen i).time ≤ w.now
  /-- A look that is not over has seen what is held, unless that was noted later. -/
  looked : ∀ x ∈ w.held, ∀ i, (w.seen i).server = x.server →
    x.entry ∈ (w.seen i).notes ∨ (w.seen i).time ≤ x.since
  timely : w.Timely pc.gap w.now
  fresh : ∀ x ∈ w.held, ∀ p ∈ (w.base.slot x.entry.queue).stream.pel,
    p.id = x.entry.streamID → Fresh pc w x p
  secure : ∀ x ∈ w.held, x.entry.uniqueKey ≠ "" → ∀ l,
    (w.base.slot x.entry.queue).unique x.entry.uniqueKey = some l → l.owner = x.id →
      Secure pc w x l

theorem inv_init (pc : Pace) : Inv pc World.init where
  clock := Int.le_refl _
  noted := fun _ hx => absurd hx List.not_mem_nil
  since := fun _ hx => absurd hx List.not_mem_nil
  extended := fun _ _ => Int.le_refl _
  renewed := fun _ _ _ => Int.le_refl _
  seen := fun _ => Int.le_refl _
  looked := fun _ hx => absurd hx List.not_mem_nil
  timely := fun _ hx => absurd hx List.not_mem_nil
  fresh := fun _ hx => absurd hx List.not_mem_nil
  secure := fun _ hx => absurd hx List.not_mem_nil

section
variable (h : Inv pc w)
include h

/-- What is held is among the notes of its server. -/
theorem Inv.mem_notes (hx : x ∈ w.held) :
    x.entry ∈ w.notes x.server :=
  List.mem_map.mpr ⟨⟨x.id, x.entry⟩, AList.mem_lookup_iff.mp (h.noted x hx), rfl⟩

/-- The store changes: leases get younger, and no lock of a task that is held is taken
anew. -/
theorem Inv.store (hdispatch : 0 ≤ pc.dispatch) (hnow : b.now = w.base.now)
    (hpel : ∀ q, ∀ p ∈ (b.slot q).stream.pel, p ∈ (w.base.slot q).stream.pel ∨
      p.deliveredAt = w.now)
    (hlock : ∀ x ∈ w.held, ∀ q key l, (b.slot q).unique key = some l → l.owner = x.id →
      (w.base.slot q).unique key = some l) : Inv pc { w with base := b } := by
  have hnow' : World.now { w with base := b } = w.now := hnow
  refine ⟨?_, h.noted, ?_, ?_, ?_, ?_, h.looked, ?_, fun x hx p hp hid => ?_,
    fun x hx hkey l hl hown => ?_⟩
  · rw [hnow']
    exact h.clock
  · rw [hnow']
    exact h.since
  · rw [hnow']
    exact h.extended
  · rw [hnow']
    exact h.renewed
  · rw [hnow']
    exact h.seen
  · rw [hnow']
    exact h.timely
  · rcases hpel _ p hp with hp | hnew
    · exact h.fresh x hx p hp hid
    · have hsince := h.since x hx
      refine ⟨by omega, Or.inl ?_⟩
      rw [hnew]
      exact h.extended _ _
  · exact h.secure x hx hkey l (hlock x hx _ _ l hl hown) hown

theorem Inv.routine (hdispatch : 0 ≤ pc.dispatch) {c : Cmd} {r : c.Reply}
    (hc : w.Orderly pc (.routine server c)) (he : anything.exec k i c w.base r b) :
    Inv pc { w with base := b } := by
  rcases Regime.exec_cases he with rfl | ⟨msg, out, rfl, -, rfl⟩ | ⟨op, rfl, -, rfl⟩
  · exact h
  · exact h.store hdispatch rfl (fun q p hp => Or.inl hp) fun x _ q key l hl _ => hl
  · refine h.store hdispatch rfl (fun q p hp => ?_) fun x hx q key l hl hown => ?_
    · by_cases hq : q = op.queue
      · subst hq
        simp only [ChronosGo.World.perform, Function.update_self] at hp
        exact pel_run w.base.now hp
      · simp only [ChronosGo.World.perform, Function.update_of_ne hq] at hp
        exact Or.inl hp
    · by_cases hq : q = op.queue
      · subst hq
        simp only [ChronosGo.World.perform, Function.update_self] at hl
        rcases lock_run w.base.now hl with hold | ⟨msg, ttl, rfl, hid⟩ | ⟨msg, t, ttl, rfl, hid⟩
        · exact hold
        · exact absurd (hown.symm.trans hid) (hc.enqueue server msg ttl rfl x hx)
        · exact absurd (hown.symm.trans hid) (hc.schedule server msg t ttl rfl x hx)
      · simp only [ChronosGo.World.perform, Function.update_of_ne hq] at hl
        exact hl

theorem Inv.track (hgap : 0 ≤ pc.gap) {id : String} {e : InflightEntry}
    (hid : id ∉ w.inflight server) (hprompt : w.Prompt pc.dispatch e) :
    Inv pc (w.track server id e) where
  clock := h.clock
  noted := fun x hx => by
    by_cases hserver : x.server = server
    · simp only [World.track, hserver, Function.update_self]
      rcases List.mem_cons.mp hx with rfl | hx
      · exact AList.lookup_insert _
      · -- another note of the server has another identifier
        have hold := h.noted x hx
        rw [hserver] at hold
        have hne : x.id ≠ id := by
          rintro rfl
          exact hid (AList.lookup_isSome.mp (by rw [hold]; rfl))
        rw [AList.lookup_insert_ne hne]
        exact hold
    · simp only [World.track, Function.update_of_ne hserver]
      rcases List.mem_cons.mp hx with rfl | hx
      · exact absurd rfl hserver
      · exact h.noted x hx
  since := fun x hx => by
    rcases List.mem_cons.mp hx with rfl | hx
    · exact ⟨h.clock, Int.le_refl _⟩
    · exact h.since x hx
  extended := h.extended
  renewed := h.renewed
  seen := h.seen
  looked := fun x hx i hi => by
    rcases List.mem_cons.mp hx with rfl | hx
    · exact Or.inr (h.seen i)
    · exact h.looked x hx i hi
  timely := fun x hx halive => by
    rcases List.mem_cons.mp hx with rfl | hx
    · change w.now ≤ max w.now _ + pc.gap ∧ w.now ≤ max w.now _ + pc.gap
      omega
    · exact h.timely x hx halive
  fresh := fun x hx p hp hpid => by
    rcases List.mem_cons.mp hx with rfl | hx
    · exact ⟨hprompt p hp hpid, Or.inr (h.extended _ _)⟩
    · exact h.fresh x hx p hp hpid
  secure := fun x hx hkey l hl hown => by
    rcases List.mem_cons.mp hx with rfl | hx
    · exact Or.inl (h.renewed _ _ _)
    · exact h.secure x hx hkey l hl hown

theorem Inv.untrack (server id : String) : Inv pc (w.untrack server id) := by
  have hold : ∀ x ∈ (w.untrack server id).held,
      x ∈ w.held ∧ ¬ (x.server = server ∧ x.id = id) := by
    intro x hx
    obtain ⟨hx, hne⟩ := List.mem_filter.mp hx
    exact ⟨hx, of_decide_eq_true hne⟩
  refine ⟨h.clock, fun x hx => ?_, fun x hx => h.since x (hold x hx).1, h.extended,
    h.renewed, h.seen, fun x hx => h.looked x (hold x hx).1, fun x hx => h.timely x (hold x hx).1,
    fun x hx => h.fresh x (hold x hx).1, fun x hx => h.secure x (hold x hx).1⟩
  obtain ⟨hx, hne⟩ := hold x hx
  by_cases hserver : x.server = server
  · have hid : x.id ≠ id := fun hid => hne ⟨hserver, hid⟩
    simp only [World.untrack, hserver, Function.update_self]
    rw [AList.lookup_erase_ne hid, ← hserver]
    exact h.noted x hx
  · simp only [World.untrack, Function.update_of_ne hserver]
    exact h.noted x hx

/-- A look renews nothing of what is held. -/
theorem Inv.extended_look (hx : x ∈ w.held) (i : Nat) (server : String) :
    (w.look i server).extended x.server x.entry.queue = w.extended x.server x.entry.queue := by
  simp only [World.look]
  refine if_neg fun hnone => ?_
  have hmem := mem_idsOf (h.mem_notes hx)
  rw [hnone.1, hnone.2] at hmem
  exact absurd hmem List.not_mem_nil

theorem Inv.renewed_look (hx : x ∈ w.held) (hkey : x.entry.uniqueKey ≠ "") (i : Nat)
    (server : String) :
    (w.look i server).renewed x.server x.entry.queue x.entry.uniqueKey =
      w.renewed x.server x.entry.queue x.entry.uniqueKey := by
  simp only [World.look]
  refine if_neg fun hnone => hnone.2 ?_
  rw [← hnone.1]
  exact mem_uniqueKeys (h.mem_notes hx) hkey

theorem Inv.look (i : Nat) (server : String) : Inv pc (w.look i server) where
  clock := h.clock
  noted := h.noted
  since := h.since
  extended := fun s q => by
    simp only [World.look]
    split
    · exact Int.le_refl _
    · exact h.extended s q
  renewed := fun s q key => by
    simp only [World.look]
    split
    · exact Int.le_refl _
    · exact h.renewed s q key
  seen := fun j => by
    by_cases hj : j = i
    · simp only [World.look, hj, Function.update_self]
      exact Int.le_refl _
    · simp only [World.look, Function.update_of_ne hj]
      exact h.seen j
  looked := fun x hx j hserver => by
    by_cases hj : j = i
    · simp only [World.look, hj, Function.update_self] at hserver ⊢
      rw [hserver]
      exact Or.inl (h.mem_notes hx)
    · simp only [World.look, Function.update_of_ne hj] at hserver ⊢
      exact h.looked x hx j hserver
  timely := fun x hx halive => by
    obtain ⟨hlease, hlock⟩ := h.timely x hx halive
    rw [h.extended_look hx]
    refine ⟨hlease, ?_⟩
    have hle : w.renewed x.server x.entry.queue x.entry.uniqueKey ≤
        (w.look i server).renewed x.server x.entry.queue x.entry.uniqueKey := by
      simp only [World.look]
      split
      · exact h.renewed _ _ _
      · exact Int.le_refl _
    change w.now ≤ _
    omega
  fresh := fun x hx p hp hid => by
    rw [Fresh, h.extended_look hx]
    exact h.fresh x hx p hp hid
  secure := fun x hx hkey l hl hown => by
    rw [Secure, h.renewed_look hx hkey]
    exact h.secure x hx hkey l hl hown

/-- An extension, by whoever asks for it: a lease that is held and that the look has not
seen was noted after the look. -/
theorem Inv.extend (hdispatch : 0 ≤ pc.dispatch) (i : Nat) (server q : String) (ids : List Nat) :
    Inv pc (w.extend i server q ids) := by
  have hext : ∀ s q', w.extended s q' ≤ (w.extend i server q ids).extended s q' ∧
      (w.extend i server q ids).extended s q' ≤ w.now := by
    intro s q'
    have hle := h.extended s q'
    have hseen := h.seen i
    simp only [World.extend]
    split
    · omega
    · omega
  refine ⟨h.clock, h.noted, h.since, fun s q' => (hext s q').2, h.renewed, h.seen, h.looked,
    fun x hx halive => ?_, fun x hx p hp hid => ?_, fun x hx hkey l hl hown => ?_⟩
  · obtain ⟨hlease, hlock⟩ := h.timely x hx halive
    have hle := (hext x.server x.entry.queue).1
    refine ⟨?_, hlock⟩
    change w.now ≤ _
    omega
  · by_cases hq : x.entry.queue = q
    · have hp' : p ∈ ((w.base.slot x.entry.queue).stream.xclaim server ids w.now).pel := by
        simp only [World.extend, Recovery.heartbeat, hq, Function.update_self] at hp
        rw [hq]
        exact hp
      have hsince := h.since x hx
      obtain ⟨p₀, hp₀, rfl⟩ := List.mem_map.mp hp'
      by_cases hmem : p₀.id ∈ ids
      · rw [if_pos hmem]
        exact ⟨by dsimp only; omega, Or.inl (hext _ _).2⟩
      · rw [if_neg hmem] at hid ⊢
        obtain ⟨hage, hbeat⟩ := h.fresh x hx p₀ hp₀ hid
        refine ⟨hage, ?_⟩
        simp only [World.extend]
        split
        · -- the beat has not seen the task, which was noted after its look
          rename_i hall
          obtain ⟨hserver, -, hlook, rfl⟩ := hall
          have hlate : (w.seen i).time ≤ x.since := by
            rcases h.looked x hx i (hlook.trans hserver.symm) with hnote | hlate
            · refine absurd ?_ hmem
              rw [hid, ← hq]
              exact mem_idsOf hnote
            · exact hlate
          omega
        · exact hbeat
    · have hp' : p ∈ (w.base.slot x.entry.queue).stream.pel := by
        simpa [World.extend, Recovery.heartbeat, Function.update_of_ne hq] using hp
      have hsame : (w.extend i server q ids).extended x.server x.entry.queue =
          w.extended x.server x.entry.queue := by
        simp only [World.extend]
        exact if_neg fun hall => hq hall.2.1
      rw [Fresh, hsame]
      exact h.fresh x hx p hp' hid
  · rw [unique_extend] at hl
    exact h.secure x hx hkey l hl hown

/-- A renewal of a lock. -/
theorem Inv.renew (i : Nat) (server q key : String) :
    Inv pc (w.renew i server q key (2 * pc.recoverMinIdle)) := by
  have hren : ∀ s q' key', w.renewed s q' key' ≤
      (w.renew i server q key (2 * pc.recoverMinIdle)).renewed s q' key' ∧
      (w.renew i server q key (2 * pc.recoverMinIdle)).renewed s q' key' ≤ w.now := by
    intro s q' key'
    have hle := h.renewed s q' key'
    have hseen := h.seen i
    simp only [World.renew]
    split
    · omega
    · omega
  refine ⟨h.clock, h.noted, h.since, h.extended, fun s q' key' => (hren s q' key').2,
    h.seen, h.looked, fun x hx halive => ?_, fun x hx p hp hid => ?_, fun x hx hkey l hl hown => ?_⟩
  · obtain ⟨hlease, hlock⟩ := h.timely x hx halive
    have hle := (hren x.server x.entry.queue x.entry.uniqueKey).1
    refine ⟨hlease, ?_⟩
    change w.now ≤ _
    omega
  · rw [stream_renew] at hp
    exact h.fresh x hx p hp hid
  · obtain ⟨l₀, hl₀, hown₀, hle, hlong⟩ := unique_renew hl
    by_cases hk : x.entry.queue = q ∧ x.entry.uniqueKey = key
    · have hnow := (hren x.server x.entry.queue x.entry.uniqueKey).2
      have hlong := hlong hk
      refine Or.inr ?_
      omega
    · have hsame : (w.renew i server q key (2 * pc.recoverMinIdle)).renewed x.server
          x.entry.queue x.entry.uniqueKey =
          w.renewed x.server x.entry.queue x.entry.uniqueKey := by
        simp only [World.renew]
        exact if_neg fun hall => hk ⟨hall.2.1, hall.2.2.1⟩
      rw [Secure, hsame]
      exact (h.secure x hx hkey l₀ hl₀ (hown₀ ▸ hown)).imp_right fun hold => by omega

theorem Inv.exec (hdispatch : 0 ≤ pc.dispatch) (hgap : 0 ≤ pc.gap) {c : Instr} {r : c.Reply}
    (hc : w.Orderly pc c) (he : w.Exec k i c r w') :
    Inv pc w' := by
  cases c with
  | routine server c =>
    obtain ⟨b, he, rfl⟩ := he
    exact h.routine hdispatch hc he
  | trackInflight server id e =>
    obtain rfl := he
    exact h.track hgap (hc.once server id e rfl) (hc.prompt server id e rfl)
  | untrackInflight server id =>
    subst he
    exact h.untrack server id
  | select server =>
    subst he
    exact h
  | inflight server =>
    obtain ⟨-, rfl⟩ := he
    exact h.look i server
  | extendLease server q ids =>
    rcases he with rfl | ⟨-, rfl⟩
    · exact h.extend hdispatch i server q ids
    · exact h
  | renewUnique server q key ttl =>
    obtain rfl := hc.renewal server q key ttl rfl
    rcases he with rfl | ⟨-, rfl⟩
    · exact h.renew i server q key
    · exact h

theorem Inv.give (hdispatch : 0 ≤ pc.dispatch) (i n : Nat) (j : Goroutine) :
    Inv pc (w.give i n j) := by
  have hgive : ∀ j : Job, (w.base.give i n j).slot = w.base.slot ∧
      (w.base.give i n j).now = w.base.now := by
    intro j
    cases j <;> exact ⟨rfl, rfl⟩
  cases j with
  | routine server j =>
    obtain ⟨hslot, hnow⟩ := hgive j
    refine h.store hdispatch hnow (fun q p hp => ?_) fun x _ q key l hl _ => ?_
    · rw [hslot] at hp
      exact Or.inl hp
    · rw [hslot] at hl
      exact hl
  | heartbeaterLoop => exact h

theorem Inv.env (he : w.Env pc.terms w') : Inv pc w' := by
  rcases he with ⟨t, ht, htimely, rfl⟩ | ⟨server, rfl⟩
  · have ht : w.now ≤ t := ht
    have hclock := h.clock
    refine ⟨?_, h.noted, fun x hx => ?_, fun s q => ?_, fun s q key => ?_, fun i => ?_, h.looked,
      htimely, h.fresh, fun x hx hkey l hl hown => ?_⟩
    · change 0 ≤ t
      omega
    · have hsince := h.since x hx
      change 0 ≤ x.since ∧ x.since ≤ t
      omega
    · exact Int.le_trans (h.extended s q) ht
    · exact Int.le_trans (h.renewed s q key) ht
    · exact Int.le_trans (h.seen i) ht
    · exact h.secure x hx hkey l (Option.filter_eq_some_iff.mp hl).1 hown
  · refine ⟨h.clock, h.noted, h.since, h.extended, h.renewed, h.seen, h.looked,
      fun x hx halive => ?_, h.fresh, h.secure⟩
    refine h.timely x hx ?_
    by_cases hserver : x.server = server
    · simp [hserver] at halive
    · simpa [Function.update_of_ne hserver] using halive

end

theorem inv_of_reachable (hdispatch : 0 ≤ pc.dispatch) (hgap : 0 ≤ pc.gap)
    {d : Config Instr Instr.Reply Goroutine World}
    (hr : (machine pc.terms k).Reaches World.init [] d) :
    Inv pc d.world :=
  hr.world_invariant (inv_init pc) (fun _ _ _ _ _ h he => h.exec hdispatch hgap he.1 he.2)
    (fun i n j _ h => h.give hdispatch i n j) fun _ _ h he => h.env he

/-- **The lease of a task at work is not lost.**  In every run on the terms of a pace at
which the time until a task is noted and the gap between beats together stay short of
`RecoverMinIdle`: no recoverer that is as patient claims the entry of a task that a server
works on.  It is not handed out, and its pending entry stays as it is. -/
theorem held_lease_not_claimed {pc : Pace} (hdispatch : 0 ≤ pc.dispatch) (hgap : 0 ≤ pc.gap)
    (hpace : pc.dispatch + pc.gap < pc.recoverMinIdle) {k : Keys}
    {d : Config Instr Instr.Reply Goroutine World}
    (hr : (machine pc.terms k).Reaches World.init [] d)
    {x : Holding} (hx : x ∈ d.world.held) (halive : d.world.alive x.server = true) {i : Nat}
    {server consumer : String} {minIdle : Int} (hmin : pc.recoverMinIdle ≤ minIdle) {count : Nat}
    {r : Option (List (Nat × String))} {w' : World} (he : d.world.Exec k i
      (.routine server (.redis (.xAutoClaim x.entry.queue consumer minIdle count))) r w') :
    (∀ entries, r = some entries → x.entry.streamID ∉ entries.map Prod.fst) ∧
      ∀ p ∈ (w'.base.slot x.entry.queue).stream.pel, p.id = x.entry.streamID →
        p ∈ (d.world.base.slot x.entry.queue).stream.pel := by
  have hinv := inv_of_reachable hdispatch hgap hr
  obtain ⟨b, he, rfl⟩ := he
  -- the lease is younger than any recoverer waits
  have hyoung : x.entry.streamID ∉ ((d.world.base.slot x.entry.queue).stream.sweep consumer minIdle
      count d.world.now).2 := by
    intro hmem
    obtain ⟨p, hp, hid, hidle⟩ := Stream.idle_of_claimScan hmem
    obtain ⟨hage, hbeat⟩ := hinv.fresh x hx p hp hid
    obtain ⟨hlease, -⟩ := hinv.timely x hx halive
    omega
  constructor
  · rintro entries rfl hmem
    obtain ⟨-, -, rfl⟩ := Regime.exec_answered he
    obtain ⟨e, he, heq⟩ := List.mem_map.mp hmem
    refine hyoung ?_
    rw [← heq]
    exact of_decide_eq_true (List.mem_filter.mp he).2
  · intro p hp hid
    rcases Regime.exec_cases he with rfl | ⟨msg, out, hc, -⟩ | ⟨op, hop, -, rfl⟩
    · exact hp
    · cases hc
    · cases hop
      simp only [ChronosGo.World.perform] at hp
      change p ∈
        ((Function.update d.world.base.slot x.entry.queue _) x.entry.queue).stream.pel at hp
      rw [Function.update_self] at hp
      rcases Stream.mem_claimScan_or hp with hp | hclaimed
      · exact hp
      · rw [hid] at hclaimed
        exact absurd hclaimed hyoung

/-- The time to live of a renewal is longer than any gap between beats. -/
theorem lt_ttlMillis_renewTTL {gap idle : Int} (hgap : 0 ≤ gap) (h : gap < idle) :
    gap < Slot.ttlMillis (2 * idle) := by
  unfold Slot.ttlMillis
  rw [Int.tdiv_eq_ediv_of_nonneg (by omega)]
  omega

/-- **The lock of a task at work does not expire.**  In the same runs, once a beat that
began after the task was noted has renewed the unique lock of a task that a server works
on, the lock outlives every moment that time may pass to while the task is at work; and a
renewal, in any world and whatever becomes of the request, neither creates nor removes a
lock, gives none to another owner and shortens none. -/
theorem held_lock_not_expired {pc : Pace} (hdispatch : 0 ≤ pc.dispatch) (hgap : 0 ≤ pc.gap)
    (hpace : pc.dispatch + pc.gap < pc.recoverMinIdle) {k : Keys}
    {d : Config Instr Instr.Reply Goroutine World}
    (hr : (machine pc.terms k).Reaches World.init [] d)
    {x : Holding} (hx : x ∈ d.world.held) (halive : d.world.alive x.server = true)
    (hkey : x.entry.uniqueKey ≠ "")
    (hrenewed : x.since < d.world.renewed x.server x.entry.queue x.entry.uniqueKey) {l : Lock}
    (hl : (d.world.base.slot x.entry.queue).unique x.entry.uniqueKey = some l)
    (hown : l.owner = x.id) {t : Int} (htimely : d.world.Timely pc.gap t) :
    ((d.world.base.tick t).slot x.entry.queue).unique x.entry.uniqueKey = some l ∧
      ∀ (w w' : World) (i : Nat) (server q key : String) (ttl : Int) (r : Option Unit),
        w.Exec k i (.renewUnique server q key ttl) r w' → w.Prolongs w' := by
  refine ⟨?_, fun w w' i server q key ttl r he => prolongs_of_exec he⟩
  have hinv := inv_of_reachable hdispatch hgap hr
  have hsecure := hinv.secure x hx hkey l hl hown
  have hlong := lt_ttlMillis_renewTTL hgap (by omega : pc.gap < pc.recoverMinIdle)
  obtain ⟨-, hlock⟩ := htimely x hx halive
  have hlater : t < l.expireAt := by
    rcases hsecure with hsecure | hsecure
    · omega
    · omega
  change Option.filter (fun l => decide (t < l.expireAt))
    ((d.world.base.slot x.entry.queue).unique x.entry.uniqueKey) = some l
  rw [hl]
  exact Option.filter_some_pos (decide_eq_true hlater)

/-! Runs to look at: requests succeed, and a command is let through if a check allows
it. -/

/-- A check for `Orderly`. -/
def orderlyOp (pc : Pace) (w : World) : Op → Bool
  | .xAutoClaim _ _ minIdle _ => decide (pc.recoverMinIdle ≤ minIdle)
  | .enqueueUnique _ _ | .scheduleUnique _ _ _ => w.held.isEmpty
  | _ => true

instance (w : World) (dispatch : Int) (e : InflightEntry) : Decidable (w.Prompt dispatch e) :=
  inferInstanceAs (Decidable (∀ _ ∈ _, _ → _))

instance (w : World) (gap t : Int) : Decidable (w.Timely gap t) :=
  inferInstanceAs (Decidable (∀ _ ∈ _, _ → _))

def orderly (pc : Pace) (w : World) : Instr → Bool
  | .routine _ (.redis op) => orderlyOp pc w op
  | .trackInflight server id e => decide (id ∉ w.inflight server ∧ w.Prompt pc.dispatch e)
  | .renewUnique _ _ _ ttl => decide (ttl = 2 * pc.recoverMinIdle)
  | _ => true

theorem orderly_of_check {c : Instr} (h : orderly pc w c = true) :
    w.Orderly pc c := by
  have hempty : ∀ {P : Holding → Prop}, w.held.isEmpty = true → ∀ x ∈ w.held, P x := by
    intro P hb x hx
    rw [List.isEmpty_iff.mp hb] at hx
    exact absurd hx List.not_mem_nil
  constructor
  · rintro server q consumer minIdle count rfl
    exact of_decide_eq_true h
  · rintro server msg ttl rfl
    exact hempty h
  · rintro server msg processAt ttl rfl
    exact hempty h
  · rintro server id e rfl
    exact (of_decide_eq_true h).1
  · rintro server id e rfl
    exact (of_decide_eq_true h).2
  · rintro server q key ttl rfl
    exact of_decide_eq_true h

def answer (k : Keys) (out : Outcome) (i : Nat) (w : World) :
    (c : Instr) → Option (c.Reply × World)
  | .routine _ c => (ChronosGo.answer k (fun _ _ _ => true) out i c w.base).map fun a =>
      (a.1, { w with base := a.2 })
  | .trackInflight server id e => some ((), w.track server id e)
  | .untrackInflight server id => some ((), w.untrack server id)
  | .select _ => some (true, w)
  | .inflight server => some (w.notes server, w.look i server)
  | .extendLease server q ids => some (some (), w.extend i server q ids)
  | .renewUnique server q key ttl => some (some (), w.renew i server q key ttl)

def player (pc : Pace) (k : Keys) : Player Instr Instr.Reply Goroutine World Outcome Int where
  start := Goroutine.start
  give := fun i n j w => w.give i n j
  answer := fun out i c w => if orderly pc w c then answer k out i w c else none
  env := fun t w =>
    if w.now ≤ t ∧ w.Timely pc.gap t then some { w with base := w.base.tick t } else none

theorem anything_lets : anything.Lets fun _ _ _ => true :=
  ⟨fun _ _ _ _ => trivial, fun _ _ _ => trivial⟩

theorem player_sound (pc : Pace) (k : Keys) : (player pc k).Sound (machine pc.terms k) where
  start := rfl
  give := rfl
  answer := fun out i c w a h => by
    obtain ⟨horderly, h⟩ := Option.ite_none_right_eq_some.mp h
    refine ⟨orderly_of_check horderly, ?_⟩
    cases c with
    | routine server c =>
      obtain ⟨a', ha', rfl⟩ := Option.map_eq_some_iff.mp h
      exact ⟨a'.2,
        (ChronosGo.player_sound (k := k) anything_lets).answer out i c w.base a' ha', rfl⟩
    | inflight server =>
      cases h
      exact ⟨rfl, rfl⟩
    | extendLease | renewUnique =>
      cases h
      exact Or.inl rfl
    | trackInflight | untrackInflight | select =>
      cases h
      exact rfl
  env := fun t w w' h => by
    obtain ⟨ht, h⟩ := Option.ite_none_right_eq_some.mp h
    cases h
    exact Or.inl ⟨t, ht.1, ht.2, rfl⟩

/-- The default intervals, with some seconds for a beat and for the dispatch of a task. -/
def samplePace : Pace where
  recoverMinIdle := (newServer { queues := ⟨[], .nil⟩ } "s").cfg.recoverMinIdle
  dispatch := 5 * second
  gap := (newServer { queues := ⟨[], .nil⟩ } "s").cfg.heartbeatInterval + 5 * second

/-- A unique task of which a server begins to work at once. -/
def sampleHolding : Holding := ⟨"s", "x", ⟨1, "q", sampleKey⟩, 0⟩

/-- So many steps of process `i`. -/
def steps (i n : Nat) : List (Choice Outcome Int Goroutine) := List.replicate n (.step i (.ok none))

/-- A unique task is enqueued and fetched, and a worker notes it; there are beats after
ten and after twenty-two seconds. -/
def longTask : List (Choice Outcome Int Goroutine) :=
  .spawn (.routine "s" (.send (.enqueueUnique (sampleTask "x") (20 * second)))) :: steps 0 1 ++
  .spawn (.routine "s" (.fetch "q" "s" 1 0)) :: steps 1 4 ++ steps 2 1 ++
  .env (10 * second) :: .spawn (.heartbeaterLoop "s" (30 * second) 2) :: steps 3 4 ++
  .env (22 * second) :: steps 3 4 ++ [.env (35 * second)]

/-- The run leads to a state in which the server has worked for thirty-five seconds, and
the lock is its task's. -/
theorem exists_longTask : ∃ d, (machine samplePace.terms sampleKeys).Reaches World.init [] d ∧
    d.world.now = 35 * second ∧
    sampleHolding ∈ d.world.held ∧ d.world.alive "s" = true ∧
    d.world.Timely samplePace.gap (37 * second) ∧
    d.world.renewed "s" "q" sampleKey = 22 * second ∧
    ((d.world.base.slot "q").unique sampleKey).map Lock.owner = some "x" := by
  obtain ⟨d, hr, hd⟩ := (player_sound samplePace sampleKeys).exists_reaches longTask
    (by simp [longTask, steps, Player.Admits, machine])
    World.init []
    (fun w => decide (w.now = 35 * second ∧ sampleHolding ∈ w.held ∧ w.alive "s" = true ∧
      w.Timely samplePace.gap (37 * second) ∧ w.renewed "s" "q" sampleKey = 22 * second ∧
      ((w.base.slot "q").unique sampleKey).map Lock.owner = some "x")) (by decide +kernel)
  exact ⟨d, hr, of_decide_eq_true hd⟩

/-- After thirty-five seconds a recoverer may not claim the task. -/
theorem long_task_keeps_lease :
    ∃ d w' entries, (machine samplePace.terms sampleKeys).Reaches World.init [] d ∧
      d.world.now = 35 * second ∧ sampleHolding ∈ d.world.held ∧
      d.world.Exec sampleKeys 4
        (.routine "s" (.redis (.xAutoClaim "q" "s" (30 * second) 100))) (some entries) w' ∧
      1 ∉ entries.map Prod.fst := by
  obtain ⟨d, hr, hnow, hheld, halive, -⟩ := exists_longTask
  have he : d.world.Exec sampleKeys 4
      (.routine "s" (.redis (.xAutoClaim "q" "s" (30 * second) 100)))
      (some (d.world.base.reply sampleKeys (.xAutoClaim "q" "s" (30 * second) 100))) _ :=
    ⟨_, Or.inl ⟨trivial, rfl, Or.inl rfl⟩, rfl⟩
  have hsafe := held_lease_not_claimed (by decide) (by decide) (by decide) hr hheld halive
    (by decide) he
  exact ⟨d, _, _, hr, hnow, hheld, he, hsafe.1 _ rfl⟩

/-- Its lock, which was taken for twenty seconds, is still there two seconds later. -/
theorem long_task_keeps_lock :
    ∃ d l, (machine samplePace.terms sampleKeys).Reaches World.init [] d ∧
      d.world.now = 35 * second ∧ (d.world.base.slot "q").unique sampleKey = some l ∧
      ((d.world.base.tick (37 * second)).slot "q").unique sampleKey = some l := by
  obtain ⟨d, hr, hnow, hheld, halive, htimely, hrenewed, howner⟩ := exists_longTask
  obtain ⟨l, hl, hown⟩ := Option.map_eq_some_iff.mp howner
  have hrenewed' : sampleHolding.since < d.world.renewed "s" "q" sampleKey := by
    rw [hrenewed]
    decide
  have hsafe := held_lock_not_expired (by decide) (by decide) (by decide) hr hheld halive
    (by decide) hrenewed' hl hown htimely
  exact ⟨d, l, hr, hnow, hl, hsafe.1⟩

end ChronosGo.Leases
