import Mathlib.Data.List.Sort
import Mathlib.Data.List.Nodup
import Mathlib.Data.List.Pairwise
import Mathlib.Order.Defs.LinearOrder

/-! # Redis sorted sets, hashes, and streams with one consumer group

The data structures behind the commands a program sends to Redis, over arbitrary
member and value types.  Each type carries what Redis itself guarantees of it:

* a `ZSet` lists its members once each, in (score, member) order;
* a `Stream` has strictly increasing entry identifiers, all of them generated;
  its consumer group has delivered a prefix of what was generated, and its
  pending entries list (PEL) is in identifier order within that prefix.

Whether a pending entry still exists in its stream is *not* guaranteed by Redis:
`xack` and `xdel` are separate commands, and a client has to issue both.
-/
namespace Redis

variable {max : Int} {count id : Nat}

/-! ## Sorted sets -/

section ZSet
variable {α : Type} [LinearOrder α]

/-- The order of a sorted set: by score, then by member. -/
def zle (a b : Int × α) : Prop := a.1 < b.1 ∨ a.1 = b.1 ∧ a.2 ≤ b.2

instance : DecidableRel (zle (α := α)) := fun _ _ => inferInstanceAs (Decidable (_ ∨ _))

instance : Std.Total (zle (α := α)) where
  total a b := by
    rcases lt_trichotomy a.1 b.1 with h | h | h
    · exact Or.inl (Or.inl h)
    · rcases le_total a.2 b.2 with h' | h'
      · exact Or.inl (Or.inr ⟨h, h'⟩)
      · exact Or.inr (Or.inr ⟨h.symm, h'⟩)
    · exact Or.inr (Or.inl h)

instance : IsTrans (Int × α) zle where
  trans a b c hab hbc := by
    rcases hab with hab | ⟨hab, hab'⟩ <;> rcases hbc with hbc | ⟨hbc, hbc'⟩
    · exact Or.inl (lt_trans hab hbc)
    · exact Or.inl (hbc ▸ hab)
    · exact Or.inl (hab ▸ hbc)
    · exact Or.inr ⟨hab.trans hbc, le_trans hab' hbc'⟩

/-- A sorted set. -/
structure ZSet (α : Type) [LinearOrder α] where
  entries : List (Int × α)
  sorted : entries.Pairwise zle
  nodup : (entries.map Prod.snd).Nodup

namespace ZSet

/-- The members, in order. -/
def members (z : ZSet α) : List α := z.entries.map Prod.snd

instance : Membership α (ZSet α) where
  mem z a := a ∈ z.members

instance (a : α) (z : ZSet α) : Decidable (a ∈ z) := inferInstanceAs (Decidable (a ∈ z.members))

def empty : ZSet α := ⟨[], .nil, .nil⟩

instance : Inhabited (ZSet α) := ⟨empty⟩

/-- `ZREM`. -/
def zrem (z : ZSet α) (a : α) : ZSet α where
  entries := z.entries.filter fun e => e.2 ≠ a
  sorted := z.sorted.filter _
  nodup := z.nodup.sublist (List.filter_sublist.map _)

/-- `ZADD`: the member gets the new score, whether or not it was there. -/
def zadd (z : ZSet α) (score : Int) (a : α) : ZSet α where
  entries := (z.zrem a).entries.orderedInsert zle (score, a)
  sorted := (z.zrem a).sorted.orderedInsert _ _
  nodup := by
    refine ((List.perm_orderedInsert zle (score, a) (z.zrem a).entries).map
      Prod.snd).nodup_iff.mpr (List.nodup_cons.mpr ⟨?_, (z.zrem a).nodup⟩)
    intro h
    obtain ⟨e, he, hea⟩ := List.mem_map.mp h
    exact absurd hea (by simpa using (List.mem_filter.mp he).2)

/-- `ZSCORE`. -/
def zscore (z : ZSet α) (a : α) : Option Int := (z.entries.find? fun e => e.2 = a).map Prod.fst

/-- `ZCARD`. -/
def zcard (z : ZSet α) : Nat := z.entries.length

/-- `ZRANGEBYSCORE key -inf max LIMIT 0 count`. -/
def zrangebyscore (z : ZSet α) (max : Int) (count : Nat) : List α :=
  ((z.entries.filter fun e => e.1 ≤ max).take count).map Prod.snd

/-- `ZRANGE key 0 (count - 1)`. -/
def zrange (z : ZSet α) (count : Nat) : List α := (z.entries.take count).map Prod.snd

variable {z : ZSet α} {a b : α} {score : Int}

theorem mem_def : a ∈ z ↔ a ∈ z.members := Iff.rfl

@[simp] theorem not_mem_empty : a ∉ (empty : ZSet α) := by simp [mem_def, members, empty]

theorem members_nodup (z : ZSet α) : z.members.Nodup := z.nodup

@[simp] theorem length_members (z : ZSet α) : z.members.length = z.zcard := List.length_map ..

@[simp] theorem members_zrem (z : ZSet α) (a : α) :
    (z.zrem a).members = z.members.filter fun b => b ≠ a := by
  simp only [members, zrem, List.filter_map]
  rfl

theorem members_zadd_perm (z : ZSet α) (score : Int) (a : α) :
    (z.zadd score a).members.Perm (a :: z.members.filter fun b => b ≠ a) := by
  rw [← members_zrem]
  exact (List.perm_orderedInsert zle (score, a) (z.zrem a).entries).map Prod.snd

@[simp] theorem mem_zrem : b ∈ z.zrem a ↔ b ∈ z ∧ b ≠ a := by
  rw [mem_def, members_zrem, List.mem_filter, decide_eq_true_eq]
  rfl

@[simp] theorem mem_zadd : b ∈ z.zadd score a ↔ b = a ∨ b ∈ z := by
  rw [mem_def, (members_zadd_perm z score a).mem_iff, List.mem_cons, List.mem_filter,
    decide_eq_true_eq]
  constructor
  · rintro (h | ⟨h, -⟩)
    · exact Or.inl h
    · exact Or.inr h
  · intro h
    by_cases hb : b = a
    · exact Or.inl hb
    · exact Or.inr ⟨h.resolve_left hb, hb⟩

theorem mem_of_mem_zrangebyscore (h : a ∈ z.zrangebyscore max count) : a ∈ z := by
  obtain ⟨e, he, rfl⟩ := List.mem_map.mp h
  exact List.mem_map.mpr ⟨e, (List.mem_filter.mp (List.mem_of_mem_take he)).1, rfl⟩

theorem mem_of_mem_zrange (h : a ∈ z.zrange count) : a ∈ z := by
  obtain ⟨e, he, rfl⟩ := List.mem_map.mp h
  exact List.mem_map.mpr ⟨e, List.mem_of_mem_take he, rfl⟩

theorem zrangebyscore_nodup (z : ZSet α) (max : Int) (count : Nat) :
    (z.zrangebyscore max count).Nodup :=
  z.nodup.sublist (((List.take_sublist _ _).trans List.filter_sublist).map _)

theorem zrange_nodup (z : ZSet α) (count : Nat) : (z.zrange count).Nodup :=
  z.nodup.sublist ((List.take_sublist _ _).map _)

theorem zscore_eq_some_iff : z.zscore a = some score ↔ (score, a) ∈ z.entries := by
  constructor
  · intro h
    obtain ⟨e, he, rfl⟩ := Option.map_eq_some_iff.mp h
    obtain rfl : e.2 = a := by simpa using List.find?_some he
    exact List.mem_of_find?_eq_some he
  · intro h
    have hsome : (z.entries.find? fun e => e.2 = a).isSome :=
      List.find?_isSome.mpr ⟨_, h, by simp⟩
    obtain ⟨e, he⟩ := Option.isSome_iff_exists.mp hsome
    have ha : e.2 = a := by simpa using List.find?_some he
    obtain rfl : e = (score, a) :=
      List.inj_on_of_nodup_map z.nodup (List.mem_of_find?_eq_some he) h ha
    exact Option.map_eq_some_iff.mpr ⟨_, he, rfl⟩

theorem isSome_zscore : (z.zscore a).isSome ↔ a ∈ z := by
  rw [zscore, Option.isSome_map, List.find?_isSome]
  simp only [decide_eq_true_eq]
  exact List.mem_map.symm

theorem mem_zrangebyscore (hc : z.zcard ≤ count) :
    a ∈ z.zrangebyscore max count ↔ ∃ score, z.zscore a = some score ∧ score ≤ max := by
  have hall : (z.entries.filter fun e => e.1 ≤ max).take count =
      z.entries.filter fun e => e.1 ≤ max :=
    List.take_of_length_le ((List.length_filter_le _ _).trans hc)
  unfold zrangebyscore
  rw [hall, List.mem_map]
  constructor
  · rintro ⟨e, he, rfl⟩
    obtain ⟨hmem, hle⟩ := List.mem_filter.mp he
    exact ⟨e.1, zscore_eq_some_iff.mpr hmem, by simpa using hle⟩
  · rintro ⟨score, hs, hle⟩
    exact ⟨_, List.mem_filter.mpr ⟨zscore_eq_some_iff.mp hs, by simpa using hle⟩, rfl⟩

theorem le_of_mem_zrangebyscore (h : a ∈ z.zrangebyscore max count) (hs : z.zscore a = some score) :
    score ≤ max := by
  obtain ⟨e, he, rfl⟩ := List.mem_map.mp h
  obtain ⟨hmem, hle⟩ := List.mem_filter.mp (List.mem_of_mem_take he)
  cases (zscore_eq_some_iff.mpr hmem).symm.trans hs
  simpa using hle

@[simp] theorem zscore_zadd : (z.zadd score a).zscore a = some score :=
  zscore_eq_some_iff.mpr ((List.perm_orderedInsert zle _ _).mem_iff.mpr List.mem_cons_self)

/-- How many members have at most this score. -/
def zcount (z : ZSet α) (max : Int) : Nat := (z.entries.filter fun e => e.1 ≤ max).length

/-- The members with at most a score come first. -/
theorem take_zcount (z : ZSet α) (max : Int) :
    (z.entries.filter fun e => e.1 ≤ max) = z.entries.take (z.zcount max) := by
  unfold zcount
  have hsorted := z.sorted
  generalize z.entries = es at hsorted ⊢
  induction es with
  | nil => rfl
  | cons e es ih =>
    obtain ⟨hle, hsorted⟩ := List.pairwise_cons.mp hsorted
    by_cases he : e.1 ≤ max
    · rw [List.filter_cons_of_pos (by simpa using he), List.length_cons, List.take_succ_cons,
        ← ih hsorted]
    · have hnone : es.filter (fun e => e.1 ≤ max) = [] := by
        refine List.filter_eq_nil_iff.mpr fun e' he' => ?_
        have hle' : e.1 ≤ e'.1 := (hle e' he').elim (fun h => h.le) fun h => h.1.le
        simpa using lt_of_lt_of_le (not_le.mp he) hle'
      rw [List.filter_cons_of_neg (by simpa using he), hnone]
      rfl

theorem zrangebyscore_eq_zrange (z : ZSet α) (max : Int) (count : Nat) :
    z.zrangebyscore max count = z.zrange (min count (z.zcount max)) := by
  unfold zrangebyscore zrange
  rw [take_zcount, List.take_take]

/-- The first members are removed one after the other. -/
theorem entries_foldl_zrem (z : ZSet α) (n : Nat) :
    ((z.zrange n).foldl zrem z).entries = z.entries.drop n := by
  unfold zrange
  induction n generalizing z with
  | zero => rfl
  | succ n ih =>
    rcases hz : z.entries with _ | ⟨e, es⟩
    · exact hz
    · have hhead : (z.zrem e.2).entries = es := by
        have hnodup := z.nodup
        rw [hz, List.map_cons, List.nodup_cons] at hnodup
        change z.entries.filter _ = es
        rw [hz, List.filter_cons_of_neg (by simp), List.filter_eq_self]
        intro e' he'
        have hne : e'.2 ≠ e.2 := fun h => hnodup.1 (h ▸ List.mem_map_of_mem he')
        simpa using hne
      have hrest := ih (z.zrem e.2)
      rw [hhead] at hrest
      exact hrest

end ZSet
end ZSet

/-! ## Hashes and sets -/

section Hash
variable {κ ν : Type} [DecidableEq κ]

/-- `HSET` on a hash given as its list of fields. -/
def hset (h : List (κ × ν)) (k : κ) (v : ν) : List (κ × ν) := (k, v) :: h.filter fun e => e.1 ≠ k

/-- `HGET`. -/
def hget (h : List (κ × ν)) (k : κ) : Option ν := (h.find? fun e => e.1 = k).map Prod.snd

@[simp] theorem hset_ne_nil (h : List (κ × ν)) (k : κ) (v : ν) : hset h k v ≠ [] :=
  List.cons_ne_nil _ _

@[simp] theorem hget_nil (k : κ) : hget ([] : List (κ × ν)) k = none := rfl

@[simp] theorem hget_hset_self (h : List (κ × ν)) (k : κ) (v : ν) :
    hget (hset h k v) k = some v := by
  simp [hget, hset]

theorem hget_hset_ne (h : List (κ × ν)) {k l : κ} (v : ν) (hl : l ≠ k) :
    hget (hset h k v) l = hget h l := by
  unfold hget hset
  rw [List.find?_cons_of_neg (by simpa using Ne.symm hl), List.find?_filter]
  congr 2
  funext e
  by_cases he : e.1 = l <;> simp [he, hl]

/-- `SADD` of several members. -/
def sadd (s : List κ) (ms : List κ) : List κ :=
  ms.foldl (fun s m => if m ∈ s then s else s ++ [m]) s

/-- `SREM`. -/
def srem (s : List κ) (m : κ) : List κ := s.filter fun x => x ≠ m

@[simp] theorem mem_srem {s : List κ} {m x : κ} : x ∈ srem s m ↔ x ∈ s ∧ x ≠ m := by
  simp [srem]

@[simp] theorem mem_sadd {s ms : List κ} {x : κ} : x ∈ sadd s ms ↔ x ∈ s ∨ x ∈ ms := by
  induction ms generalizing s with
  | nil => simp [sadd]
  | cons m ms ih =>
    change x ∈ sadd (if m ∈ s then s else s ++ [m]) ms ↔ _
    rw [ih]
    by_cases hm : m ∈ s
    · rw [if_pos hm, List.mem_cons]
      constructor
      · rintro (h | h)
        · exact Or.inl h
        · exact Or.inr (Or.inr h)
      · rintro (h | rfl | h)
        · exact Or.inl h
        · exact Or.inl hm
        · exact Or.inr h
    · rw [if_neg hm, List.mem_append, List.mem_singleton, List.mem_cons, or_assoc]

end Hash

/-! ## Streams -/

/-- One entry of a consumer group's pending entries list. -/
structure PelEntry (κ : Type) where
  id : Nat
  consumer : κ
  deliveredAt : Int
  deliveries : Nat

/-- A stream with one consumer group that starts at the beginning of the stream.
Entries are in generation order; a group that was never created has delivered
nothing. -/
structure Stream (α κ : Type) where
  entries : List (Nat × α)
  lastId : Nat
  lastDelivered : Nat
  pel : List (PelEntry κ)
  entries_sorted : entries.Pairwise fun a b => a.1 < b.1
  entries_le : ∀ e ∈ entries, e.1 ≤ lastId
  pel_sorted : pel.Pairwise fun a b => a.id < b.id
  pel_le : ∀ p ∈ pel, p.id ≤ lastDelivered
  delivered_le : lastDelivered ≤ lastId

namespace Stream
variable {α κ : Type}

def empty : Stream α κ := ⟨[], 0, 0, [], .nil, by simp, .nil, by simp, Nat.le_refl 0⟩

instance : Inhabited (Stream α κ) := ⟨empty⟩

/-- The values of the entries, in order. -/
def values (s : Stream α κ) : List α := s.entries.map Prod.snd

/-- The entries the group has not delivered yet. -/
def undelivered (s : Stream α κ) : List (Nat × α) :=
  s.entries.filter fun e => s.lastDelivered < e.1

/-- `XLEN`. -/
def xlen (s : Stream α κ) : Nat := s.entries.length

/-- `XADD key *`. -/
def xadd (s : Stream α κ) (a : α) : Stream α κ where
  entries := s.entries ++ [(s.lastId + 1, a)]
  lastId := s.lastId + 1
  lastDelivered := s.lastDelivered
  pel := s.pel
  entries_sorted := by
    refine List.pairwise_append.mpr ⟨s.entries_sorted, List.pairwise_singleton _ _, ?_⟩
    intro e he f hf
    rw [List.mem_singleton.mp hf]
    exact Nat.lt_succ_of_le (s.entries_le e he)
  entries_le := by
    intro e he
    rcases List.mem_append.mp he with he | he
    · exact Nat.le_succ_of_le (s.entries_le e he)
    · rw [List.mem_singleton.mp he]
  pel_sorted := s.pel_sorted
  pel_le := s.pel_le
  delivered_le := Nat.le_succ_of_le s.delivered_le

/-- `XACK` of several entries. -/
def xack (s : Stream α κ) (ids : List Nat) : Stream α κ :=
  { s with
    pel := s.pel.filter fun p => p.id ∉ ids
    pel_sorted := s.pel_sorted.filter _
    pel_le := fun p hp => s.pel_le p (List.mem_filter.mp hp).1 }

/-- `XDEL` of several entries. -/
def xdel (s : Stream α κ) (ids : List Nat) : Stream α κ :=
  { s with
    entries := s.entries.filter fun e => e.1 ∉ ids
    entries_sorted := s.entries_sorted.filter _
    entries_le := fun e he => s.entries_le e (List.mem_filter.mp he).1 }

/-- The entries `XREADGROUP ... COUNT count STREAMS key >` returns. -/
def nextEntries (s : Stream α κ) (count : Nat) : List (Nat × α) := s.undelivered.take count

theorem nextEntries_sublist (s : Stream α κ) (count : Nat) :
    (s.nextEntries count).Sublist s.entries :=
  (List.take_sublist _ _).trans List.filter_sublist

theorem nextEntries_nodup (s : Stream α κ) (count : Nat) :
    ((s.nextEntries count).map Prod.fst).Nodup := by
  refine List.pairwise_map.mpr ?_
  exact (s.entries_sorted.sublist (s.nextEntries_sublist count)).imp Nat.ne_of_lt

theorem lt_of_mem_nextEntries {s : Stream α κ} {e : Nat × α} (h : e ∈ s.nextEntries count) :
    s.lastDelivered < e.1 := by
  simpa using (List.mem_filter.mp (List.mem_of_mem_take h)).2

/-- Where the group stands after delivering the next entries. -/
def nextDelivered (s : Stream α κ) (count : Nat) : Nat :=
  ((s.nextEntries count).getLast?.map Prod.fst).getD s.lastDelivered

theorem le_nextDelivered {s : Stream α κ} {e : Nat × α} (h : e ∈ s.nextEntries count) :
    e.1 ≤ s.nextDelivered count := by
  have hs : (s.nextEntries count).Pairwise fun a b => a.1 < b.1 :=
    s.entries_sorted.sublist (s.nextEntries_sublist count)
  obtain ⟨l, x, hl⟩ : ∃ l x, s.nextEntries count = l ++ [x] :=
    ⟨_, _, (List.dropLast_append_getLast (List.ne_nil_of_mem h)).symm⟩
  have hx : s.nextDelivered count = x.1 := by simp [nextDelivered, hl]
  rw [hl] at h hs
  rw [hx]
  rcases List.mem_append.mp h with h | h
  · exact Nat.le_of_lt ((List.pairwise_append.mp hs).2.2 e h x (List.mem_singleton_self x))
  · rw [List.mem_singleton.mp h]

theorem nextDelivered_bounds (s : Stream α κ) (count : Nat) :
    s.lastDelivered ≤ s.nextDelivered count ∧ s.nextDelivered count ≤ s.lastId := by
  unfold nextDelivered
  cases h : (s.nextEntries count).getLast? with
  | none => exact ⟨Nat.le_refl _, s.delivered_le⟩
  | some e =>
    have he : e ∈ s.nextEntries count := List.mem_of_getLast? h
    exact ⟨Nat.le_of_lt (lt_of_mem_nextEntries he),
      s.entries_le e ((s.nextEntries_sublist count).subset he)⟩

/-- `XREADGROUP`: the next entries are delivered to `consumer` and become
pending. -/
def xreadgroup (s : Stream α κ) (consumer : κ) (count : Nat) (now : Int) : Stream α κ :=
  { s with
    lastDelivered := s.nextDelivered count
    pel := s.pel ++ (s.nextEntries count).map fun e => ⟨e.1, consumer, now, 1⟩
    pel_sorted := by
      refine List.pairwise_append.mpr ⟨s.pel_sorted, ?_, ?_⟩
      · exact List.pairwise_map.mpr (s.entries_sorted.sublist (s.nextEntries_sublist count))
      · intro p hp q hq
        obtain ⟨e, he, rfl⟩ := List.mem_map.mp hq
        exact Nat.lt_of_le_of_lt (s.pel_le p hp) (lt_of_mem_nextEntries he)
    pel_le := by
      intro p hp
      rcases List.mem_append.mp hp with hp | hp
      · exact Nat.le_trans (s.pel_le p hp) (s.nextDelivered_bounds count).1
      · obtain ⟨e, he, rfl⟩ := List.mem_map.mp hp
        exact le_nextDelivered he
    delivered_le := (s.nextDelivered_bounds count).2 }

/-- One sweep of `XAUTOCLAIM` over the pending entries: at most `attempts` are
examined and at most `count` claimed.  Returns what remains pending and the
identifiers that were claimed.  An entry that no longer exists in the stream is
dropped from the list instead. -/
def claimScan (present : Nat → Bool) (consumer : κ) (minIdle now : Int) :
    Nat → Nat → List (PelEntry κ) → List (PelEntry κ) × List Nat
  | 0, _, ps => (ps, [])
  | _, 0, ps => (ps, [])
  | _, _, [] => ([], [])
  | attempts + 1, count + 1, p :: ps =>
    if !present p.id then
      claimScan present consumer minIdle now attempts (count + 1) ps
    else if now - p.deliveredAt < minIdle then
      let rest := claimScan present consumer minIdle now attempts (count + 1) ps
      (p :: rest.1, rest.2)
    else
      let rest := claimScan present consumer minIdle now attempts count ps
      (⟨p.id, consumer, now, p.deliveries + 1⟩ :: rest.1, p.id :: rest.2)

theorem claimScan_sublist (present : Nat → Bool) (consumer : κ) (minIdle now : Int)
    (attempts count : Nat) (ps : List (PelEntry κ)) :
    ((claimScan present consumer minIdle now attempts count ps).1.map PelEntry.id).Sublist
      (ps.map PelEntry.id) := by
  fun_induction claimScan present consumer minIdle now attempts count ps with
  | case1 | case2 | case3 => exact List.Sublist.refl _
  | case4 _ _ _ _ _ ih => exact ih.trans (List.sublist_cons_self _ _)
  | case5 _ _ _ _ _ _ _ ih | case6 _ _ _ _ _ _ _ ih => exact ih.cons_cons _

/-- Sweeping drops a pending entry only if the stream no longer has it. -/
theorem mem_claimScan (present : Nat → Bool) (consumer : κ) (minIdle now : Int)
    (attempts count : Nat) (ps : List (PelEntry κ)) (h : id ∈ ps.map PelEntry.id)
    (hp : present id = true) :
    id ∈ (claimScan present consumer minIdle now attempts count ps).1.map PelEntry.id := by
  fun_induction claimScan present consumer minIdle now attempts count ps with
  | case1 => exact h
  | case2 => exact h
  | case3 => exact h
  | case4 attempts count p ps hn ih =>
    rcases List.mem_cons.mp h with rfl | h
    · simp [hp] at hn
    · exact ih h
  | case5 attempts count p ps _ _ rest ih | case6 attempts count p ps _ _ rest ih =>
    rcases List.mem_cons.mp h with rfl | h
    · exact List.mem_cons_self
    · exact List.mem_cons_of_mem _ (ih h)

/-- Whether the stream still has an entry. -/
def has (s : Stream α κ) (id : Nat) : Bool := s.entries.any fun e => e.1 = id

/-- The sweep of `XAUTOCLAIM key group consumer minIdle 0 COUNT count`. -/
def sweep (s : Stream α κ) (consumer : κ) (minIdle : Int) (count : Nat) (now : Int) :
    List (PelEntry κ) × List Nat :=
  claimScan s.has consumer minIdle now (10 * count) count s.pel

/-- `XAUTOCLAIM`: idle pending entries move to `consumer`. -/
def xautoclaim (s : Stream α κ) (consumer : κ) (minIdle : Int) (count : Nat) (now : Int) :
    Stream α κ :=
  { s with
    pel := (s.sweep consumer minIdle count now).1
    pel_sorted := List.pairwise_map.mp ((List.pairwise_map.mpr s.pel_sorted).sublist
      (claimScan_sublist s.has consumer minIdle now (10 * count) count s.pel))
    pel_le := by
      intro p hp
      have h := (claimScan_sublist s.has consumer minIdle now (10 * count) count s.pel).subset
        (List.mem_map.mpr ⟨p, hp, rfl⟩)
      obtain ⟨q, hq, hid⟩ := List.mem_map.mp h
      exact hid ▸ s.pel_le q hq }

/-- The entries `XAUTOCLAIM` returns. -/
def claimed (s : Stream α κ) (consumer : κ) (minIdle : Int) (count : Nat) (now : Int) :
    List (Nat × α) :=
  s.entries.filter fun e => e.1 ∈ (s.sweep consumer minIdle count now).2

/-- `XCLAIM key group consumer 0 ids.. JUSTID`: the idle time of those that are pending
starts again. -/
def xclaim (s : Stream α κ) (consumer : κ) (ids : List Nat) (now : Int) : Stream α κ :=
  { s with
    pel := s.pel.map fun p => if p.id ∈ ids then { p with consumer, deliveredAt := now } else p
    pel_sorted := by
      refine List.pairwise_map.mpr (s.pel_sorted.imp fun {a b} h => ?_)
      split <;> split <;> exact h
    pel_le := by
      intro p hp
      obtain ⟨q, hq, rfl⟩ := List.mem_map.mp hp
      split <;> exact s.pel_le q hq }

/-- Who has claimed an entry does not matter once it is acknowledged. -/
theorem xack_xclaim (s : Stream α κ) (consumer : κ) (id : Nat) (now : Int) :
    (s.xclaim consumer [id] now).xack [id] = s.xack [id] := by
  have hpel : ((s.xclaim consumer [id] now).xack [id]).pel = (s.xack [id]).pel := by
    change (s.pel.map _).filter _ = s.pel.filter _
    induction s.pel with
    | nil => rfl
    | cons p ps ih =>
      rw [List.map_cons]
      by_cases hp : p.id = id
      · rw [List.filter_cons_of_neg (by simp [hp]), List.filter_cons_of_neg (by simp [hp]), ih]
      · have hkept : p.id ∉ [id] := by simpa using hp
        rw [if_neg hkept, List.filter_cons_of_pos (by simpa using hp),
          List.filter_cons_of_pos (by simpa using hp), ih]
  unfold xack xclaim at hpel ⊢
  congr 1

variable (s : Stream α κ)

@[simp] theorem entries_xadd (a : α) : (s.xadd a).entries = s.entries ++ [(s.lastId + 1, a)] := rfl
@[simp] theorem lastId_xadd (a : α) : (s.xadd a).lastId = s.lastId + 1 := rfl
@[simp] theorem entries_xack (ids : List Nat) : (s.xack ids).entries = s.entries := rfl
@[simp] theorem lastId_xack (ids : List Nat) : (s.xack ids).lastId = s.lastId := rfl
@[simp] theorem lastId_xdel (ids : List Nat) : (s.xdel ids).lastId = s.lastId := rfl
@[simp] theorem pel_xdel (ids : List Nat) : (s.xdel ids).pel = s.pel := rfl

@[simp] theorem mem_entries_xdel {ids : List Nat} {e : Nat × α} :
    e ∈ (s.xdel ids).entries ↔ e ∈ s.entries ∧ e.1 ∉ ids := by
  simp [xdel]

@[simp] theorem mem_pel_xack {ids : List Nat} {p : PelEntry κ} :
    p ∈ (s.xack ids).pel ↔ p ∈ s.pel ∧ p.id ∉ ids := by
  simp [xack]

theorem mem_undelivered {e : Nat × α} :
    e ∈ s.undelivered ↔ e ∈ s.entries ∧ s.lastDelivered < e.1 := by
  simp [undelivered]

/-- An identifier names one entry. -/
theorem entry_unique {a b : α} (ha : (id, a) ∈ s.entries) (hb : (id, b) ∈ s.entries) :
    a = b := by
  have h := s.entries_sorted
  obtain ⟨i, hi, hia⟩ := List.getElem_of_mem ha
  obtain ⟨j, hj, hjb⟩ := List.getElem_of_mem hb
  have hp := List.pairwise_iff_getElem.mp h
  rcases Nat.lt_trichotomy i j with hij | rfl | hij
  · have := hp i j hi hj hij
    rw [hia, hjb] at this
    exact absurd this (Nat.lt_irrefl _)
  · exact congrArg Prod.snd (hia.symm.trans hjb)
  · have := hp j i hj hi hij
    rw [hia, hjb] at this
    exact absurd this (Nat.lt_irrefl _)

/-! ### What all commands have in common -/

/-- Identifiers are used once: an entry that was not there before is newer than
everything generated before. -/
structure Grows (s t : Stream α κ) : Prop where
  lastId_le : s.lastId ≤ t.lastId
  mem_or_newer : ∀ e ∈ t.entries, e ∈ s.entries ∨ s.lastId < e.1

variable {s} {t u : Stream α κ}

theorem Grows.refl (s : Stream α κ) : Grows s s := ⟨Nat.le_refl _, fun _ he => Or.inl he⟩

theorem Grows.trans (h₁ : Grows s t) (h₂ : Grows t u) : Grows s u := by
  refine ⟨Nat.le_trans h₁.lastId_le h₂.lastId_le, fun e he => ?_⟩
  rcases h₂.mem_or_newer e he with he | he
  · exact h₁.mem_or_newer e he
  · exact Or.inr (Nat.lt_of_le_of_lt h₁.lastId_le he)

theorem grows_xadd (s : Stream α κ) (a : α) : Grows s (s.xadd a) := by
  refine ⟨Nat.le_succ _, fun e he => ?_⟩
  rcases List.mem_append.mp he with he | he
  · exact Or.inl he
  · rw [List.mem_singleton.mp he]
    exact Or.inr (Nat.lt_succ_self _)

theorem grows_ack (s : Stream α κ) (ids : List Nat) : Grows s ((s.xack ids).xdel ids) :=
  ⟨Nat.le_refl _, fun _ he => Or.inl ((s.xack ids).mem_entries_xdel.mp he).1⟩

theorem grows_xreadgroup (s : Stream α κ) (c : κ) (n : Nat) (now : Int) :
    Grows s (s.xreadgroup c n now) := ⟨Nat.le_refl _, fun _ he => Or.inl he⟩

theorem grows_xautoclaim (s : Stream α κ) (c : κ) (m : Int) (n : Nat) (now : Int) :
    Grows s (s.xautoclaim c m n now) := ⟨Nat.le_refl _, fun _ he => Or.inl he⟩

/-- The delivered entries are the pending ones.  Redis alone does not keep this,
but `xack` and `xdel` together do. -/
structure Balanced (s : Stream α κ) : Prop where
  pending : ∀ e ∈ s.entries, e.1 ≤ s.lastDelivered → ∃ p ∈ s.pel, p.id = e.1
  present : ∀ p ∈ s.pel, ∃ e ∈ s.entries, e.1 = p.id

theorem balanced_empty : Balanced (empty : Stream α κ) :=
  ⟨fun _ he => absurd he List.not_mem_nil, fun _ hp => absurd hp List.not_mem_nil⟩

theorem Balanced.xadd (h : Balanced s) (a : α) : Balanced (s.xadd a) := by
  refine ⟨fun e he hle => ?_, fun p hp => ?_⟩
  · rcases List.mem_append.mp he with he | he
    · exact h.pending e he hle
    · rw [List.mem_singleton.mp he] at hle
      exact absurd (Nat.le_trans hle s.delivered_le) (Nat.not_succ_le_self _)
  · obtain ⟨e, he, hid⟩ := h.present p hp
    exact ⟨e, List.mem_append_left _ he, hid⟩

theorem Balanced.ack (h : Balanced s) (ids : List Nat) : Balanced ((s.xack ids).xdel ids) := by
  refine ⟨fun e he hle => ?_, fun p hp => ?_⟩
  · obtain ⟨he, hids⟩ := (mem_entries_xdel _).mp he
    obtain ⟨p, hp, hid⟩ := h.pending e he hle
    exact ⟨p, (mem_pel_xack _).mpr ⟨hp, hid ▸ hids⟩, hid⟩
  · obtain ⟨hp, hids⟩ := (mem_pel_xack _).mp hp
    obtain ⟨e, he, hid⟩ := h.present p hp
    exact ⟨e, (mem_entries_xdel _).mpr ⟨he, hid ▸ hids⟩, hid⟩

/-- Delivery leaves no gap: an entry up to the new position was delivered now or
before. -/
theorem mem_nextEntries_of_le {n : Nat} {e : Nat × α} (he : e ∈ s.undelivered)
    (hle : e.1 ≤ s.nextDelivered n) : e ∈ s.nextEntries n := by
  have hsorted : s.undelivered.Pairwise fun a b => a.1 < b.1 := s.entries_sorted.filter _
  have hsplit : s.undelivered = s.nextEntries n ++ s.undelivered.drop n :=
    (List.take_append_drop n s.undelivered).symm
  rw [hsplit] at he hsorted
  rcases List.mem_append.mp he with he | he
  · exact he
  · -- a later entry is beyond the last one delivered
    exfalso
    unfold nextDelivered at hle
    rcases hl : (s.nextEntries n).getLast? with _ | f
    · rw [hl] at hle
      have hpos : s.lastDelivered < e.1 := (s.mem_undelivered.mp (hsplit ▸
        List.mem_append_right _ he)).2
      exact Nat.lt_irrefl _ (Nat.lt_of_lt_of_le hpos hle)
    · rw [hl] at hle
      have hlt := (List.pairwise_append.mp hsorted).2.2 f (List.mem_of_getLast? hl) e he
      exact Nat.lt_irrefl _ (Nat.lt_of_lt_of_le hlt hle)

theorem Balanced.xreadgroup (h : Balanced s) (c : κ) (n : Nat) (now : Int) :
    Balanced (s.xreadgroup c n now) := by
  refine ⟨fun e he hle => ?_, fun p hp => ?_⟩
  · by_cases hd : e.1 ≤ s.lastDelivered
    · obtain ⟨p, hp, hid⟩ := h.pending e he hd
      exact ⟨p, List.mem_append_left _ hp, hid⟩
    · have hnext := mem_nextEntries_of_le (s.mem_undelivered.mpr ⟨he, Nat.lt_of_not_le hd⟩) hle
      exact ⟨_, List.mem_append_right _ (List.mem_map.mpr ⟨e, hnext, rfl⟩), rfl⟩
  · rcases List.mem_append.mp hp with hp | hp
    · exact h.present p hp
    · obtain ⟨e, he, rfl⟩ := List.mem_map.mp hp
      exact ⟨e, (s.nextEntries_sublist n).subset he, rfl⟩

theorem has_iff : s.has id = true ↔ ∃ e ∈ s.entries, e.1 = id := by
  simp [has]

theorem Balanced.xautoclaim (h : Balanced s) (c : κ) (m : Int) (n : Nat) (now : Int) :
    Balanced (s.xautoclaim c m n now) := by
  refine ⟨fun e he hle => ?_, fun p hp => ?_⟩
  · obtain ⟨p, hp, hid⟩ := h.pending e he hle
    have hmem := mem_claimScan s.has c m now (10 * n) n s.pel
      (List.mem_map.mpr ⟨p, hp, hid⟩) (has_iff.mpr ⟨e, he, rfl⟩)
    obtain ⟨p', hp', hid'⟩ := List.mem_map.mp hmem
    exact ⟨p', hp', hid'⟩
  · have hsub := (claimScan_sublist s.has c m now (10 * n) n s.pel).subset
      (List.mem_map.mpr ⟨p, hp, rfl⟩)
    obtain ⟨p', hp', hid⟩ := List.mem_map.mp hsub
    obtain ⟨e, he, hide⟩ := h.present p' hp'
    exact ⟨e, he, hide.trans hid⟩

end Stream
end Redis
