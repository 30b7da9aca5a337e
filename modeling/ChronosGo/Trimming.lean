import ChronosGo.Scripts

/-! # Trimming

The janitor calls `trimArchivedCmd` on the archived and on the completed set again and
again.  One call removes the oldest members: first those that have expired, then those
beyond the size cap, at most a batch of each (`trim_eq`).  The calls go on until no
member has expired and the cap is met, and then they change nothing (`exists_settled`).
-/
namespace ChronosGo
open Redis
namespace Slot
variable {s : Slot} {z : ZKey} {cutoff maxSize : Int} {batch : Nat}

/-! ## One call -/

/-- How many members the age pass removes. -/
def aged (s : Slot) (z : ZKey) (cutoff : Int) (batch : Nat) : Nat :=
  min batch ((s.zset z).zcount cutoff)

/-- How many members the size pass removes. -/
def excess (s : Slot) (z : ZKey) (cutoff maxSize : Int) (batch : Nat) : Nat :=
  if 0 ≤ maxSize then
    min batch ((((s.zset z).zcard - s.aged z cutoff batch : Nat) : Int) - maxSize).toNat
  else 0

/-- How many members a call removes. -/
def removals (s : Slot) (z : ZKey) (cutoff maxSize : Int) (batch : Nat) : Nat :=
  s.aged z cutoff batch + s.excess z cutoff maxSize batch

theorem aged_le (s : Slot) (z : ZKey) (cutoff : Int) (batch : Nat) :
    s.aged z cutoff batch ≤ (s.zset z).zcard :=
  (Nat.min_le_right _ _).trans (List.length_filter_le _ _)

theorem removals_le (s : Slot) (z : ZKey) (cutoff maxSize : Int) (batch : Nat) :
    s.removals z cutoff maxSize batch ≤ (s.zset z).zcard := by
  have hage := s.aged_le z cutoff batch
  unfold removals excess
  split <;> omega

theorem zset_foldl_trimOne (z : ZKey) (ids : List String) (s : Slot) :
    (ids.foldl (trimOne z) s).zset = Function.update s.zset z (ids.foldl ZSet.zrem (s.zset z)) := by
  induction ids generalizing s with
  | nil => exact (Function.update_eq_self z s.zset).symm
  | cons a ids ih =>
    rw [List.foldl_cons, ih]
    simp [trimOne, zrem, del]

/-- The sorted set while its first members are removed. -/
theorem entries_foldl_trimOne (s : Slot) (z : ZKey) (n : Nat) :
    ((((s.zset z).zrange n).foldl (trimOne z) s).zset z).entries = (s.zset z).entries.drop n := by
  rw [zset_foldl_trimOne, Function.update_self]
  exact (s.zset z).entries_foldl_zrem n

theorem zcard_foldl_trimOne (s : Slot) (z : ZKey) (n : Nat) :
    ((((s.zset z).zrange n).foldl (trimOne z) s).zset z).zcard = (s.zset z).zcard - n := by
  unfold ZSet.zcard
  rw [entries_foldl_trimOne, List.length_drop]

/-- **One call** removes the first members of the set, one after the other. -/
theorem trim_eq (s : Slot) (z : ZKey) (cutoff maxSize : Int) (batch : Nat) :
    s.trim z cutoff maxSize batch =
      (((s.zset z).zrange (s.removals z cutoff maxSize batch)).foldl (trimOne z) s,
        s.removals z cutoff maxSize batch) := by
  have hexpired : (s.zset z).zrangebyscore cutoff batch =
      (s.zset z).zrange (s.aged z cutoff batch) := ZSet.zrangebyscore_eq_zrange _ _ _
  have hover : overSize ((s.zset z).zcard - s.aged z cutoff batch) maxSize batch =
      s.excess z cutoff maxSize batch := by
    unfold overSize excess
    split
    · congr 1
      omega
    · rfl
  -- the size pass goes on where the age pass has stopped
  have hsplit : ((((s.zset z).zrange (s.aged z cutoff batch)).foldl (trimOne z) s).zset z).zrange
      (s.excess z cutoff maxSize batch) = (((s.zset z).entries.drop (s.aged z cutoff batch)).take
        (s.excess z cutoff maxSize batch)).map Prod.snd := by
    rw [← entries_foldl_trimOne]
    rfl
  have hall : (s.zset z).zrange (s.removals z cutoff maxSize batch) =
      (s.zset z).zrange (s.aged z cutoff batch) ++
        (((s.zset z).entries.drop (s.aged z cutoff batch)).take
          (s.excess z cutoff maxSize batch)).map Prod.snd := by
    unfold ZSet.zrange removals
    rw [List.take_add, List.map_append]
  have hlength : ((s.zset z).zrange (s.removals z cutoff maxSize batch)).length =
      s.removals z cutoff maxSize batch := by
    unfold ZSet.zrange
    rw [List.length_map, List.length_take]
    exact Nat.min_eq_left (s.removals_le z cutoff maxSize batch)
  unfold trim
  dsimp only
  rw [hexpired, zcard_foldl_trimOne, hover, hsplit, ← List.foldl_append, ← hall,
    ← List.length_append, ← hall, hlength]

/-- What a call does: it removes the first members by age and by size, and no others; it
deletes the hashes of these and no others; and it removes a member that has not expired
only while the set is larger than the cap. -/
structure TrimsOldest (s : Slot) (z : ZKey) (cutoff maxSize : Int) (batch : Nat) : Prop where
  survivors : ((s.trim z cutoff maxSize batch).1.zset z).entries =
    (s.zset z).entries.drop (s.aged z cutoff batch + s.excess z cutoff maxSize batch)
  deleted : ∀ id ∈ (s.zset z).zrange (s.aged z cutoff batch + s.excess z cutoff maxSize batch),
    (s.trim z cutoff maxSize batch).1.task id = {}
  kept : ∀ id ∉ (s.zset z).zrange (s.aged z cutoff batch + s.excess z cutoff maxSize batch),
    (s.trim z cutoff maxSize batch).1.task id = s.task id
  count : (s.trim z cutoff maxSize batch).2 =
    s.aged z cutoff batch + s.excess z cutoff maxSize batch
  spares : ∀ (j : Nat) e, ((s.zset z).entries.take
      (s.aged z cutoff batch + s.excess z cutoff maxSize batch))[j]? = some e → cutoff < e.1 →
    0 ≤ maxSize ∧ maxSize < ((((s.zset z).zrange j).foldl (trimOne z) s).zset z).zcard

/-- A member that comes after those of the age pass is removed for the size of the set. -/
theorem cap_of_removed {j : Nat} (hj : j < s.removals z cutoff maxSize batch)
    (hage : s.aged z cutoff batch ≤ j) : 0 ≤ maxSize ∧ maxSize < ((s.zset z).zcard - j : Nat) := by
  have hle := s.removals_le z cutoff maxSize batch
  unfold removals excess at *
  split at hj
  · omega
  · omega

theorem trims_oldest (s : Slot) (z : ZKey) (cutoff maxSize : Int) (batch : Nat) :
    s.TrimsOldest z cutoff maxSize batch := by
  have htrim := s.trim_eq z cutoff maxSize batch
  refine ⟨?_, fun id hid => ?_, fun id hid => ?_, ?_, fun j e hj hlt => ?_⟩
  · rw [htrim]
    exact s.entries_foldl_trimOne z _
  · rw [htrim, task_foldl_trimOne]
    exact if_pos hid
  · rw [htrim, task_foldl_trimOne]
    exact if_neg hid
  · rw [htrim]
    rfl
  · change ((s.zset z).entries.take (s.removals z cutoff maxSize batch))[j]? = some e at hj
    rw [zcard_foldl_trimOne]
    have hj' : j < s.removals z cutoff maxSize batch := by
      by_contra hge
      rw [List.getElem?_take, if_neg hge] at hj
      cases hj
    have he : (s.zset z).entries[j]? = some e := by rwa [List.getElem?_take_of_lt hj'] at hj
    refine cap_of_removed hj' (Nat.le_of_not_lt fun hage => ?_)
    -- the members of the age pass have expired
    have hmem : e ∈ (s.zset z).entries.filter fun e => e.1 ≤ cutoff := by
      rw [ZSet.take_zcount]
      refine List.mem_of_getElem? (i := j) ?_
      rw [List.getElem?_take_of_lt (lt_of_lt_of_le hage (Nat.min_le_right _ _))]
      exact he
    have hle : e.1 ≤ cutoff := by simpa using (List.mem_filter.mp hmem).2
    omega

/-! ## Call after call -/

/-- The slot after some calls. -/
def trims (z : ZKey) (cutoff maxSize : Int) (batch n : Nat) (s : Slot) : Slot :=
  (fun s => (s.trim z cutoff maxSize batch).1)^[n] s

/-- A call that has nothing to remove changes nothing. -/
theorem trim_of_removals (h : s.removals z cutoff maxSize batch = 0) :
    (s.trim z cutoff maxSize batch).1 = s := by
  rw [trim_eq, h]
  rfl

/-- Some number of calls leaves nothing to remove. -/
theorem exists_settled (s : Slot) (z : ZKey) (cutoff maxSize : Int) (batch : Nat) :
    ∃ n, (s.trims z cutoff maxSize batch n).removals z cutoff maxSize batch = 0 := by
  -- each call that removes something makes the set smaller
  induction hN : (s.zset z).zcard using Nat.strong_induction_on generalizing s with
  | _ N ih =>
    by_cases hr : s.removals z cutoff maxSize batch = 0
    · exact ⟨0, hr⟩
    · have hlt : ((s.trim z cutoff maxSize batch).1.zset z).zcard < N := by
        have hle := s.removals_le z cutoff maxSize batch
        rw [trim_eq, zcard_foldl_trimOne]
        omega
      obtain ⟨n, hn⟩ := ih _ hlt _ rfl
      refine ⟨n + 1, ?_⟩
      unfold trims at hn ⊢
      rw [Function.iterate_succ_apply]
      exact hn

/-- **Trimming is an oldest-first cut that converges.**  Each call removes exactly the first
members that are due, by age and by size, with their hashes; and with a batch of at least
one, the calls reach a state that further calls leave alone, in which no member has expired
and, unless the cap is disabled, at most `maxSize` members are left. -/
theorem trim_converges (s : Slot) (z : ZKey) (cutoff maxSize : Int) {batch : Nat}
    (hb : 1 ≤ batch) :
    (∀ n, (s.trims z cutoff maxSize batch n).TrimsOldest z cutoff maxSize batch) ∧
    ∃ n, (∀ m, n ≤ m → s.trims z cutoff maxSize batch m = s.trims z cutoff maxSize batch n) ∧
      (∀ e ∈ ((s.trims z cutoff maxSize batch n).zset z).entries, cutoff < e.1) ∧
      (0 ≤ maxSize → ((s.trims z cutoff maxSize batch n).zset z).zcard ≤ maxSize) := by
  refine ⟨fun n => trims_oldest _ z cutoff maxSize batch, ?_⟩
  obtain ⟨n, hn⟩ := s.exists_settled z cutoff maxSize batch
  have hage : (s.trims z cutoff maxSize batch n).aged z cutoff batch = 0 := by
    unfold removals at hn
    omega
  have hsize : (s.trims z cutoff maxSize batch n).excess z cutoff maxSize batch = 0 := by
    unfold removals at hn
    omega
  refine ⟨n, fun m hm => ?_, fun e he => ?_, fun hmax => ?_⟩
  · obtain ⟨d, rfl⟩ := Nat.exists_eq_add_of_le hm
    unfold trims at hn ⊢
    rw [Nat.add_comm, Function.iterate_add_apply]
    exact Function.iterate_fixed (trim_of_removals hn) d
  · by_contra hle
    have hmem : e ∈ ((s.trims z cutoff maxSize batch n).zset z).entries.filter
        fun e => e.1 ≤ cutoff := List.mem_filter.mpr ⟨he, by simpa using hle⟩
    have hpos : 0 < ((s.trims z cutoff maxSize batch n).zset z).zcount cutoff :=
      List.length_pos_of_mem hmem
    unfold aged at hage
    omega
  · unfold excess at hsize
    rw [hage, if_pos hmax] at hsize
    omega

/-- Three archived tasks, of which one has expired, and a cap of one: two calls with a
batch of one. -/
theorem two_calls_meet_cap : ∃ n,
    ((((((Slot.empty.zadd .archived 1 "x").zadd .archived 5 "y").zadd .archived 6 "z").trims
      .archived 3 1 1 n).zset .archived).zcard : Int) ≤ 1 := by
  obtain ⟨n, -, -, hcap⟩ := (trim_converges
    (((Slot.empty.zadd .archived 1 "x").zadd .archived 5 "y").zadd .archived 6 "z") .archived 3 1
    (Nat.le_refl 1)).2
  exact ⟨n, hcap (by decide)⟩

end Slot
end ChronosGo
