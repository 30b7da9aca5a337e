import ChronosGo.Glob
import ChronosGo.KeyLayout
import Mathlib.Data.List.Nodup
import Mathlib.Data.List.Perm.Basic

/-! # Listing the schedules

`ScanSchedules` (`internal/rdb/inspect.go`) finds the schedules of a deployment by
their last fired times: it makes a pattern of the key builder, applied to a star,
and cuts the identifiers out of the keys that match.

The identifiers may be any text, the namespace may not.  It has none of the special
characters that `NormalizePrefix` looks for, but that leaves the backslash, with
which no key of the deployment matches its own pattern.  And a namespace among the
last fired times of another one lists schedules of the other.  For all other
namespaces the list is exact (`scanSchedules_exact_iff`).
-/
namespace ChronosGo

variable {key given : String} {sha256 : Bytes → String}

/-! ## The scan -/

/-- What a key holds: text that `strconv.ParseInt` reads, other text, or a value that is
not text. -/
inductive Stored where
  | integer (n : Int)
  | text
  | collection
deriving DecidableEq, Repr

/-- Why `GET` fails on a key that exists. -/
inductive GetError where
  | wrongType
deriving DecidableEq, Repr

structure ScheduleFireInfo where
  id : String
  lastFired : Int
deriving DecidableEq, Repr

/-- `strings.TrimPrefix`. -/
def trimPrefix (s l : List Char) : List Char := if l <+: s then s.drop l.length else s

/-- `strings.TrimSuffix`. -/
def trimSuffix (s r : List Char) : List Char := if r <:+ s then s.take (s.length - r.length) else s

/-- `SCAN` with a pattern, which returns each matching key once. -/
def scan (pattern : List Char) (db : List (String × Stored)) : List (String × Stored) :=
  db.filter fun e => Glob.matchesText pattern e.1.toList

/-- The loop over the keys that `SCAN` returns, each read with `GET`. -/
def collect (before after : List Char) :
    List (String × Stored) → Except GetError (List ScheduleFireInfo)
  | [] => .ok []
  | (_, .collection) :: _ => .error .wrongType
  | (_, .text) :: keys => collect before after keys
  | (key, .integer ts) :: keys =>
    match collect before after keys with
    | .ok out =>
      .ok (⟨String.ofList (trimSuffix (trimPrefix key.toList before) after), ts⟩ :: out)
    | .error e => .error e

namespace Keys
variable {k : Keys}

def scanSchedules (k : Keys) (db : List (String × Stored)) :
    Except GetError (List ScheduleFireInfo) :=
  let pattern := (k.scheduleLastFiredKey "*").toList
  let before := pattern.takeWhile (· ≠ '*')
  let after := (pattern.dropWhile (· ≠ '*')).drop 1
  collect before after (scan (before ++ '*' :: after) db)

/-! ## Databases -/

/-- What `SetLastFired` leaves in the database. -/
def lastFiredEntry (k : Keys) (i : ScheduleFireInfo) : String × Stored :=
  (k.scheduleLastFiredKey i.id, .integer i.lastFired)

/-- The keys a database may have besides the last fired times of a deployment: its other
keys, and those of deployments in namespaces that do not extend its own. -/
inductive OtherKey (k : Keys) : String → Prop
  | own {b : Builder} (hb : ∀ id, b ≠ .scheduleLastFiredKey id) : OtherKey k (k.build b)
  | foreign {sha256 : Bytes → String} {given : String} {k' : Keys}
      (hk' : newKeys sha256 given = .ok k') (hext : ¬ k.keyPrefix.toList <+: k'.keyPrefix.toList)
      (b : Builder) : OtherKey k (k'.build b)

/-- A database in which the schedules of a deployment that have fired are `fired`. -/
structure Holds (k : Keys) (fired : List ScheduleFireInfo) (db : List (String × Stored)) :
    Prop where
  nodup : (db.map Prod.fst).Nodup
  content : ∃ others, db.Perm (fired.map k.lastFiredEntry ++ others) ∧ ∀ e ∈ others, k.OtherKey e.1

/-- Whatever has fired, and whatever else is in the database, is listed as it is. -/
def ScanExact (k : Keys) : Prop :=
  ∀ fired db, k.Holds fired db → ∃ out, k.scanSchedules db = .ok out ∧ out.Perm fired

/-! ## The pattern and its bounds -/

/-- What stands before the identifier. -/
def beforeID (k : Keys) : List Char := k.keyPrefix.toList ++ ":sched:".toList

theorem toList_scheduleLastFiredKey (id : String) :
    (k.scheduleLastFiredKey id).toList = k.beforeID ++ (id.toList ++ ":last".toList) := by
  simp [scheduleLastFiredKey, beforeID, String.toList_append]

theorem scheduleLastFiredKey_injective (k : Keys) :
    Function.Injective k.scheduleLastFiredKey := by
  intro id id' h
  have hlist := congrArg String.toList h
  rw [toList_scheduleLastFiredKey, toList_scheduleLastFiredKey] at hlist
  exact String.toList_inj.mp (List.append_cancel_right (List.append_cancel_left hlist))

/-- The star of the pattern is its first one, since the namespace has none. -/
theorem scanSchedules_eq (hstar : '*' ∉ k.keyPrefix.toList) (db : List (String × Stored)) :
    k.scanSchedules db = collect k.beforeID ":last".toList
      (scan (k.beforeID ++ '*' :: ":last".toList) db) := by
  have hbefore : ∀ c ∈ k.beforeID, decide (c ≠ '*') = true :=
    List.forall_mem_append.mpr ⟨fun c hc => decide_eq_true fun h => hstar (h ▸ hc), by simp⟩
  have hpattern : (k.scheduleLastFiredKey "*").toList = k.beforeID ++ '*' :: ":last".toList :=
    toList_scheduleLastFiredKey "*"
  have htake : (k.beforeID ++ '*' :: ":last".toList).takeWhile (· ≠ '*') = k.beforeID := by
    rw [List.takeWhile_append_of_pos hbefore, List.takeWhile_cons_of_neg (by decide),
      List.append_nil]
  have hdrop : (k.beforeID ++ '*' :: ":last".toList).dropWhile (· ≠ '*') =
      '*' :: ":last".toList := by
    rw [List.dropWhile_append_of_pos hbefore, List.dropWhile_cons_of_neg (by decide)]
  rw [scanSchedules, hpattern, htake, hdrop]
  rfl

/-- The identifier is what stands between the bounds. -/
theorem trim_scheduleLastFiredKey (id : String) :
    String.ofList (trimSuffix (trimPrefix (k.scheduleLastFiredKey id).toList k.beforeID)
      ":last".toList) = id := by
  rw [toList_scheduleLastFiredKey, trimPrefix, if_pos (List.prefix_append ..), List.drop_left,
    trimSuffix, if_pos (List.suffix_append ..), List.length_append, Nat.add_sub_cancel,
    List.take_left, String.ofList_toList]

/-- Without a backslash in the namespace, the keys that match are the last fired times. -/
theorem matches_iff (hplain : ∀ c ∈ k.keyPrefix.toList, c ∉ Glob.special) :
    Glob.matchesText (k.beforeID ++ '*' :: ":last".toList) key.toList = true ↔
      ∃ id, key = k.scheduleLastFiredKey id := by
  have hbefore : ∀ c ∈ k.beforeID, c ∉ Glob.special :=
    List.forall_mem_append.mpr ⟨hplain, by simp [Glob.special]⟩
  rw [Glob.matches_star hbefore (by simp [Glob.special])]
  constructor
  · rintro ⟨m, hm⟩
    refine ⟨String.ofList m, String.toList_inj.mp ?_⟩
    rw [toList_scheduleLastFiredKey, String.toList_ofList]
    exact hm
  · rintro ⟨id, rfl⟩
    exact ⟨id.toList, toList_scheduleLastFiredKey id⟩

/-- With one, none of them does. -/
theorem not_matches_of_backslash (hplain : ∀ c ∈ k.keyPrefix.toList, c ≠ '\\' → c ∉ Glob.special)
    (hback : '\\' ∈ k.keyPrefix.toList) (id : String) :
    Glob.matchesText (k.beforeID ++ '*' :: ":last".toList) (k.scheduleLastFiredKey id).toList =
      false := by
  have hcolon (t : List Char) :
      k.beforeID ++ t = k.keyPrefix.toList ++ ':' :: ("sched:".toList ++ t) := by
    simp [beforeID]
  rw [toList_scheduleLastFiredKey, hcolon, hcolon]
  exact Glob.not_matches_self hplain hback (by decide) _ _

/-- The loop over last fired times reads them all. -/
theorem collect_lastFiredEntry {keys : List (String × Stored)}
    (h : ∀ e ∈ keys, ∃ i, e = k.lastFiredEntry i) :
    ∃ out, collect k.beforeID ":last".toList keys = .ok out ∧ out.map k.lastFiredEntry = keys := by
  induction keys with
  | nil => exact ⟨[], rfl, rfl⟩
  | cons e keys ih =>
    obtain ⟨i, rfl⟩ := h e List.mem_cons_self
    obtain ⟨out, hout, hmap⟩ := ih fun e he => h e (List.mem_cons_of_mem _ he)
    refine ⟨i :: out, ?_, by rw [List.map_cons, hmap]⟩
    rw [lastFiredEntry, collect, hout, trim_scheduleLastFiredKey]

/-! ## Other keys -/

/-- A key that goes on in another way is not a last fired time. -/
theorem append_ne_scheduleLastFiredKey (h : ∀ t, key.toList ≠ ':' :: ("sched:".toList ++ t))
    (id : String) :
    k.keyPrefix ++ key ≠ k.scheduleLastFiredKey id := by
  intro heq
  have hlist := congrArg String.toList heq
  rw [toList_scheduleLastFiredKey, beforeID, String.toList_append, List.append_assoc] at hlist
  exact h _ (List.append_cancel_left hlist)

/-- Only the builder of the last fired times builds one. -/
theorem lastFired_of_build_eq {b : Builder} {id : String}
    (h : k.build b = k.scheduleLastFiredKey id) : ∃ id', b = .scheduleLastFiredKey id' := by
  cases hq : b.inQueue with
  | some r =>
    obtain ⟨qname, rest⟩ := r
    have hlist := congrArg String.toList h
    rw [build_of_inQueue hq, String.toList_append, toList_queueKeyPrefix, List.append_assoc,
      toList_scheduleLastFiredKey, beforeID, List.append_assoc] at hlist
    simp at hlist
  | none =>
    cases b with
    | scheduleLastFiredKey id' => exact ⟨id', rfl⟩
    | queuesKey | pausedKey | schedulesKey | leaderKey | leaderResignChannel =>
      exact absurd h (append_ne_scheduleLastFiredKey (fun t => by simp) id)
    | _ => cases hq

/-- A namespace among the last fired times of another one extends it. -/
theorem append_isPrefix_of_underSched {p q : String} (h : UnderSched p q) :
    (p ++ ":sched").toList <+: q.toList := by
  have hsched : (p ++ ":sched:").toList = (p ++ ":sched").toList ++ [':'] := by
    simp [String.toList_append]
  have hcolon : (q ++ ":").toList = q.toList ++ [':'] := String.toList_append
  rw [UnderSched, hsched, hcolon] at h
  have hlen := h.length_le
  rw [List.length_append, List.length_append] at hlen
  exact List.prefix_of_prefix_length_le ((List.prefix_append ..).trans h) (List.prefix_append ..)
    (by simpa using hlen)

/-- In a namespace that is not among the last fired times of another one, no other key is a
last fired time. -/
theorem OtherKey.ne_lastFired (hk : newKeys sha256 given = .ok k)
    (hunder : ∀ {sha256' : Bytes → String} {given' : String} {k' : Keys},
      newKeys sha256' given' = .ok k' → ¬ UnderSched k'.keyPrefix k.keyPrefix)
    (h : k.OtherKey key) (id : String) :
    key ≠ k.scheduleLastFiredKey id := by
  intro heq
  cases h with
  | own hb =>
    obtain ⟨id', rfl⟩ := lastFired_of_build_eq heq
    exact hb id' rfl
  | @foreign sha256' given' k' hk' hext b =>
    have hbuild : k'.build b = k.build (.scheduleLastFiredKey id) := heq
    rcases underSched_of_build_eq (brace_not_mem_of_newKeys hk') (brace_not_mem_of_newKeys hk)
      hbuild with hsame | hout | hin
    · exact hext (hsame ▸ List.prefix_refl _)
    · exact hunder hk' hout
    · refine hext (List.IsPrefix.trans ?_ (append_isPrefix_of_underSched hin))
      rw [String.toList_append]
      exact List.prefix_append ..

/-! ## Exactness -/

/-- The special characters that a namespace may have are backslashes. -/
theorem not_special_of_newKeys (hk : newKeys sha256 given = .ok k) {c : Char}
    (hc : c ∈ k.keyPrefix.toList) (hback : c ≠ '\\') : c ∉ Glob.special := by
  have hglob := (not_rejected_of_newKeys hk hc).2
  simp only [Glob.special, List.mem_cons, List.not_mem_nil, or_false]
  rintro (hstar | hmark | hclass | hc)
  · exact hglob (.inl hstar)
  · exact hglob (.inr (.inl hmark))
  · exact hglob (.inr (.inr (.inl hclass)))
  · exact hback hc

theorem star_not_mem_of_newKeys (hk : newKeys sha256 given = .ok k) : '*' ∉ k.keyPrefix.toList :=
  fun hc => (not_rejected_of_newKeys hk hc).2 (.inl rfl)

theorem lastFiredEntry_injective (k : Keys) : Function.Injective k.lastFiredEntry := by
  rintro ⟨id, t⟩ ⟨id', t'⟩ h
  obtain ⟨hid, ht⟩ := Prod.mk.inj h
  cases k.scheduleLastFiredKey_injective hid
  cases ht
  rfl

/-- The scan returns the last fired times if they match and nothing else does. -/
theorem scan_perm {fired : List ScheduleFireInfo} {others db : List (String × Stored)}
    {pattern : List Char} (hdb : db.Perm (fired.map k.lastFiredEntry ++ others))
    (hfired : ∀ id, Glob.matchesText pattern (k.scheduleLastFiredKey id).toList = true)
    (hothers : ∀ e ∈ others, ¬ Glob.matchesText pattern e.1.toList = true) :
    (scan pattern db).Perm (fired.map k.lastFiredEntry) := by
  have hperm : (scan pattern db).Perm (scan pattern (fired.map k.lastFiredEntry ++ others)) :=
    hdb.filter _
  have hleft : scan pattern (fired.map k.lastFiredEntry) = fired.map k.lastFiredEntry := by
    refine List.filter_eq_self.mpr fun e he => ?_
    obtain ⟨i, -, rfl⟩ := List.mem_map.mp he
    exact hfired i.id
  have hright : scan pattern others = [] := List.filter_eq_nil_iff.mpr hothers
  rwa [scan, scan, List.filter_append, ← scan, ← scan, ← scan, hleft, hright,
    List.append_nil] at hperm

theorem scanExact_of_plain (hk : newKeys sha256 given = .ok k) (hback : '\\' ∉ k.keyPrefix.toList)
    (hunder : ∀ {sha256' : Bytes → String} {given' : String} {k' : Keys}, newKeys sha256' given' =
      .ok k' → ¬ UnderSched k'.keyPrefix k.keyPrefix) : k.ScanExact := by
  intro fired db hdb
  obtain ⟨others, hperm, hothers⟩ := hdb.content
  have hplain : ∀ c ∈ k.keyPrefix.toList, c ∉ Glob.special :=
    fun c hc => not_special_of_newKeys hk hc fun h => hback (h ▸ hc)
  have hscan := scan_perm hperm (fun id => (matches_iff hplain).mpr ⟨id, rfl⟩) fun e he hm => by
    obtain ⟨id, hid⟩ := (matches_iff hplain).mp hm
    exact (hothers e he).ne_lastFired hk hunder id hid
  obtain ⟨out, hout, hmap⟩ := collect_lastFiredEntry (k := k) fun e he => by
    obtain ⟨i, -, hi⟩ := List.mem_map.mp (hscan.subset he)
    exact ⟨i, hi.symm⟩
  refine ⟨out, (scanSchedules_eq (star_not_mem_of_newKeys hk) db).trans hout, ?_⟩
  exact (List.map_perm_map_iff k.lastFiredEntry_injective).mp (hmap ▸ hscan)

/-- With a backslash in the namespace, a schedule that has fired is not listed. -/
theorem not_scanExact_of_backslash (hk : newKeys sha256 given = .ok k)
    (hback : '\\' ∈ k.keyPrefix.toList) : ¬ k.ScanExact := by
  intro hexact
  have hdb : k.Holds [⟨"", 0⟩] [k.lastFiredEntry ⟨"", 0⟩] :=
    ⟨List.nodup_singleton _, [], List.Perm.refl _, fun _ he => absurd he List.not_mem_nil⟩
  obtain ⟨out, hout, hperm⟩ := hexact _ _ hdb
  have hnone := not_matches_of_backslash (fun c hc => not_special_of_newKeys hk hc) hback ""
  have hscan : scan (k.beforeID ++ '*' :: ":last".toList) [k.lastFiredEntry ⟨"", 0⟩] = [] :=
    List.filter_cons_of_neg (Bool.not_eq_true _ ▸ hnone)
  rw [scanSchedules_eq (star_not_mem_of_newKeys hk), hscan] at hout
  cases hout
  exact absurd hperm.length_eq (by decide)

/-- A namespace among the last fired times of another one lists a schedule of the other. -/
theorem not_scanExact_of_underSched {sha256' : Bytes → String} {given' : String} {k' : Keys}
    (hk : newKeys sha256 given = .ok k) (hback : '\\' ∉ k.keyPrefix.toList)
    (hk' : newKeys sha256' given' = .ok k') (hunder : UnderSched k'.keyPrefix k.keyPrefix) :
    ¬ k.ScanExact := by
  intro hexact
  obtain ⟨outer, hshared⟩ := exists_shared_of_underSched hunder ""
  have hshorter : ¬ k.keyPrefix.toList <+: k'.keyPrefix.toList := by
    intro hle
    have h1 := hle.length_le
    have h2 := (append_isPrefix_of_underSched hunder).length_le
    rw [String.toList_append, List.length_append] at h2
    exact absurd (h2.trans h1) (by simp)
  have hdb : k.Holds [] [k.lastFiredEntry ⟨"", 0⟩] := by
    refine ⟨List.nodup_singleton _, _, List.Perm.refl _, fun e he => ?_⟩
    have hkey : e.1 = k'.build (.scheduleLastFiredKey outer) := by
      rw [List.mem_singleton.mp he, hshared]
      rfl
    exact hkey ▸ .foreign hk' hshorter (.scheduleLastFiredKey outer)
  obtain ⟨out, hout, hperm⟩ := hexact _ _ hdb
  have hplain : ∀ c ∈ k.keyPrefix.toList, c ∉ Glob.special :=
    fun c hc => not_special_of_newKeys hk hc fun h => hback (h ▸ hc)
  have hscan : scan (k.beforeID ++ '*' :: ":last".toList) [k.lastFiredEntry ⟨"", 0⟩] =
      [k.lastFiredEntry ⟨"", 0⟩] := List.filter_cons_of_pos ((matches_iff hplain).mpr ⟨"", rfl⟩)
  rw [scanSchedules_eq (star_not_mem_of_newKeys hk), hscan] at hout
  cases List.perm_nil.mp hperm
  cases hout

/-- **The list of schedules.**  `ScanSchedules` returns exactly the schedules that have
fired, with their times, for all schedules and all databases, if and only if the namespace has
no backslash and is not among the last fired times of another one. -/
theorem scanSchedules_exact_iff {sha256 : Bytes → String} {given : String}
    (hk : newKeys sha256 given = .ok k) :
    k.ScanExact ↔
      '\\' ∉ k.keyPrefix.toList ∧ ∀ (sha256' : Bytes → String) (given' : String) (k' : Keys),
        newKeys sha256' given' = .ok k' → ¬ UnderSched k'.keyPrefix k.keyPrefix := by
  constructor
  · intro hexact
    have hback : '\\' ∉ k.keyPrefix.toList :=
      fun hback => not_scanExact_of_backslash hk hback hexact
    exact ⟨hback, fun _ _ _ hk' hunder => not_scanExact_of_underSched hk hback hk' hunder hexact⟩
  · rintro ⟨hback, hunder⟩
    exact scanExact_of_plain hk hback (hunder _ _ _)

/-- The namespace `chronos` lists its schedules, whatever else the database holds. -/
theorem default_namespace_listed :
    newKeys (fun _ => "") "chronos" = .ok ⟨"chronos", fun _ => ""⟩ ∧
      (⟨"chronos", fun _ => ""⟩ : Keys).ScanExact := by
  have hk : newKeys (fun _ => "") "chronos" = .ok ⟨"chronos", fun _ => ""⟩ :=
    newKeys_of_normalizePrefix (by decide +kernel)
  refine ⟨hk, (scanSchedules_exact_iff hk).mpr ⟨by decide, fun _ _ k' _ hunder => ?_⟩⟩
  have hcolon : ':' ∈ "chronos".toList :=
    (append_isPrefix_of_underSched hunder).subset (by simp [String.toList_append])
  exact absurd hcolon (by decide)

/-- A schedule that has fired in the namespace `app\v2` is not listed, and the namespace
`chronos:sched` lists a schedule of `chronos`. -/
theorem schedules_missed_and_foreign :
    newKeys (fun _ => "") "app\\v2" = .ok ⟨"app\\v2", fun _ => ""⟩ ∧
      (⟨"app\\v2", fun _ => ""⟩ : Keys).Holds [⟨"mail:@hourly#0f", 3600⟩]
        [("app\\v2:sched:mail:@hourly#0f:last", .integer 3600)] ∧
      (⟨"app\\v2", fun _ => ""⟩ : Keys).scanSchedules
        [("app\\v2:sched:mail:@hourly#0f:last", .integer 3600)] = .ok [] ∧
      newKeys (fun _ => "") "chronos:sched" = .ok ⟨"chronos:sched", fun _ => ""⟩ ∧
      (⟨"chronos:sched", fun _ => ""⟩ : Keys).Holds []
        [("chronos:sched:sched:mail:@hourly#0f:last", .integer 3600)] ∧
      (⟨"chronos:sched", fun _ => ""⟩ : Keys).scanSchedules
        [("chronos:sched:sched:mail:@hourly#0f:last", .integer 3600)] =
          .ok [⟨"mail:@hourly#0f", 3600⟩] := by
  have hk : newKeys (fun _ => "") "chronos" = .ok ⟨"chronos", fun _ => ""⟩ :=
    newKeys_of_normalizePrefix (by decide +kernel)
  refine ⟨newKeys_of_normalizePrefix (by decide +kernel), ⟨by decide, [], ?_, by simp⟩,
    by decide +kernel, newKeys_of_normalizePrefix (by decide +kernel), ⟨by decide, _, .refl _, ?_⟩,
    by decide +kernel⟩
  · exact List.Perm.of_eq (by decide +kernel)
  · intro e he
    have hkey : e.1 = (⟨"chronos", fun _ => ""⟩ : Keys).build
        (.scheduleLastFiredKey "sched:mail:@hourly#0f") := by
      rw [List.mem_singleton.mp he]
      decide +kernel
    exact hkey ▸ .foreign hk (by decide) _

end Keys
end ChronosGo
