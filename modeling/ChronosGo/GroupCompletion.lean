import ChronosGo.Server

/-! # The completion protocol of a group

A group of `n` members is a pending set with one slot per member and a hash of
results.  Every member that succeeds calls `CompleteGroupMember`, possibly more
than once, in any order; one of these calls has to create the callback, with all
results in member order, and to place it: in the stream, or in the scheduled set
if the callback is delayed.

The protocol is described by the calls alone: it is `Complete` once every slot
has been reported, and what has been `collected` is the last non-empty result of
each slot.  `Tracks` relates the keys of the group to the calls made so far;
`tracks_call` is the step lemma, and `tracks_run` carries it along any run,
whatever else happens to the queue in between.
-/
namespace ChronosGo

variable {n : Nat} {s s₀ : Slot} {cbID : String}
namespace GroupCompletion
open Redis Slot

/-- One call of `CompleteGroupMember` for a slot, with the result the member
carries (empty for none), the score of a delayed callback, and the time. -/
structure Call where
  slot : Nat
  result : Bytes
  score : Option Int
  now : Int
deriving DecidableEq

/-! ## The protocol, as a function of the calls -/

/-- Every slot has been reported. -/
def Complete (n : Nat) (cs : List Call) : Prop := ∀ j < n, ∃ c ∈ cs, c.slot = j

instance (n : Nat) (cs : List Call) : Decidable (Complete n cs) :=
  inferInstanceAs (Decidable (∀ j < n, ∃ c ∈ cs, c.slot = j))

/-- The last non-empty result reported for a slot. -/
def lastResult (cs : List Call) (j : Nat) : Option Bytes :=
  (cs.filter fun c => c.slot = j ∧ c.result ≠ []).getLast?.map Call.result

/-- The results a callback is given: none at all if no call carried one. -/
def collected (n : Nat) (cs : List Call) : List (Option Bytes) :=
  if ∀ c ∈ cs, c.result = [] then [] else (List.range n).map (lastResult cs)

theorem lastResult_snoc (cs : List Call) (c : Call) (j : Nat) : lastResult (cs ++ [c]) j =
    if c.slot = j ∧ c.result ≠ [] then some c.result else lastResult cs j := by
  unfold lastResult
  rw [List.filter_append]
  by_cases h : c.slot = j ∧ c.result ≠ []
  · simp [h]
  · simp [h]

theorem not_complete_nil (hn : 0 < n) : ¬ Complete n [] := fun h => by
  obtain ⟨c, hc, -⟩ := h 0 hn
  cases hc

theorem Complete.mono {cs ds : List Call} (h : Complete n cs) (hs : cs ⊆ ds) :
    Complete n ds := fun j hj => by
  obtain ⟨c, hc, hcj⟩ := h j hj
  exact ⟨c, hs hc, hcj⟩

/-- The results when each member always reports the same one. -/
def steady (n : Nat) (f : Nat → Bytes) : List (Option Bytes) :=
  if ∀ j < n, f j = [] then []
  else (List.range n).map fun j => if f j = [] then none else some (f j)

theorem lastResult_steady {cs : List Call} {f : Nat → Bytes} (hf : ∀ c ∈ cs, c.result = f c.slot)
    {j : Nat} (hj : ∃ c ∈ cs, c.slot = j) :
    lastResult cs j = if f j = [] then none else some (f j) := by
  unfold lastResult
  have hmem : ∀ c ∈ cs.filter fun c => c.slot = j ∧ c.result ≠ [], c.result = f j ∧ f j ≠ [] := by
    intro c hc
    obtain ⟨hcs, hs⟩ := List.mem_filter.mp hc
    obtain ⟨rfl, hr⟩ := of_decide_eq_true hs
    exact ⟨hf c hcs, hf c hcs ▸ hr⟩
  cases hl : (cs.filter fun c => c.slot = j ∧ c.result ≠ []).getLast? with
  | some c =>
    obtain ⟨hr, hne⟩ := hmem c (List.mem_of_getLast? hl)
    rw [if_neg hne, ← hr]
    rfl
  | none =>
    obtain ⟨c, hc, rfl⟩ := hj
    have hempty := List.getLast?_eq_none_iff.mp hl
    have hfj : f c.slot = [] := by
      by_contra hne
      have : c ∈ cs.filter fun d => d.slot = c.slot ∧ d.result ≠ [] :=
        List.mem_filter.mpr ⟨hc, by simp [hf c hc, hne]⟩
      rw [hempty] at this
      cases this
    rw [if_pos hfj]
    rfl

/-- **Order independence.**  If each member always reports the same result, what
is collected once all have reported depends on these results only. -/
theorem collected_steady {cs : List Call} {f : Nat → Bytes} (hc : Complete n cs)
    (hslots : ∀ c ∈ cs, c.slot < n) (hf : ∀ c ∈ cs, c.result = f c.slot) :
    collected n cs = steady n f := by
  have hempty : (∀ c ∈ cs, c.result = []) ↔ ∀ j < n, f j = [] := by
    constructor
    · intro h j hj
      obtain ⟨c, hc, rfl⟩ := hc j hj
      exact hf c hc ▸ h c hc
    · intro h c hc
      rw [hf c hc, h c.slot (hslots c hc)]
  unfold collected steady
  by_cases h : ∀ j < n, f j = []
  · rw [if_pos (hempty.mpr h), if_pos h]
  · rw [if_neg (fun h' => h (hempty.mp h')), if_neg h]
    exact List.map_congr_left fun j hj => lastResult_steady hf (hc j (List.mem_range.mp hj))

/-! ## The group and its members -/

/-- The members of a group: `member j` is a message that reports slot `j` of the
group `gid`, and all of them ask for the same callback task `cb`. -/
structure IsGroup (gid : String) (n : Nat) (link : ChainLink) (cb : TaskMessage)
    (member : Nat → TaskMessage) : Prop where
  size : 0 < n
  groupID : ∀ j < n, (member j).groupID = gid
  slot : ∀ j < n, memberSlot (member j) = memberID gid j
  groupIndex : ∀ j < n, (member j).groupIndex = j
  groupSize : ∀ j < n, (member j).groupSize = n
  callback : ∀ j < n, groupCallbackMessage (member j) link = cb

/-- The slots of a group of `n` members. -/
def slots (gid : String) (n : Nat) : List String := (List.range n).map (memberID gid)

variable {gid : String} {link : ChainLink} {cb : TaskMessage} {member : Nat → TaskMessage}
variable {c : Call} {cs : List Call} {os : List Observed}

/-- The report a call sends. -/
def Call.report (c : Call) (link : ChainLink) (member : Nat → TaskMessage) : Report :=
  memberReport { member c.slot with result := c.result } link c.score

theorem report_eq (hg : IsGroup gid n link cb member) (hc : c.slot < n) :
    c.report link member = ⟨gid, memberID gid c.slot, cb, c.score, c.result, c.slot, n⟩ := by
  change Report.mk (member c.slot).groupID (memberSlot (member c.slot))
    (groupCallbackMessage (member c.slot) link) c.score c.result (member c.slot).groupIndex
    (member c.slot).groupSize = _
  rw [hg.groupID _ hc, hg.slot _ hc, hg.callback _ hc, hg.groupIndex _ hc, hg.groupSize _ hc]

/-! ## What the keys of the group say about the calls -/

/-- A group that waits for reports: the pending set holds the slots not reported,
the hash the results, and the callback does not exist. -/
structure Waiting (gid : String) (n : Nat) (cbID : String) (cs : List Call) (s : Slot) : Prop where
  pending : ∀ x, x ∈ (s.group gid).members ↔
    ∃ j < n, x = memberID gid j ∧ ∀ c ∈ cs, c.slot ≠ j
  fields : ∀ j, hget (s.groupResult gid).fields j = lastResult cs j
  noFields : (s.groupResult gid).fields = [] ↔ ∀ c ∈ cs, c.result = []
  absent : (s.task cbID).present = false

/-- The keys of the group agree with the calls made so far; after completion the
pending set is gone. -/
def Tracks (gid : String) (n : Nat) (cbID : String) (cs : List Call) (s : Slot) : Prop :=
  if Complete n cs then (s.group gid).members = [] else Waiting gid n cbID cs s

theorem tracks_createGroup {now : Int} (hn : 0 < n) (hgroup : (s.group gid).members = [])
    (hresult : (s.groupResult gid).fields = []) (hcb : (s.task cb.id).present = false) :
    Tracks gid n cb.id [] (s.createGroup gid (slots gid n) now) := by
  rw [Tracks, if_neg (not_complete_nil hn)]
  refine ⟨fun x => ?_, fun j => ?_, ?_, hcb⟩
  · simp only [createGroup, Function.update_self, mem_sadd, hgroup, slots, List.mem_map,
      List.mem_range, List.not_mem_nil, false_or, false_imp_iff, implies_true, and_true]
    constructor
    · rintro ⟨j, hj, rfl⟩
      exact ⟨j, hj, rfl⟩
    · rintro ⟨j, hj, rfl⟩
      exact ⟨j, hj, rfl⟩
  · simp [createGroup, hresult, lastResult]
  · simp [createGroup, hresult]

/-- A waiting group still has a slot to be reported. -/
theorem Waiting.members_ne_nil (hw : Waiting gid n cbID cs s) (hc : ¬ Complete n cs) :
    (s.group gid).members ≠ [] := by
  obtain ⟨j, hj⟩ := not_forall.mp hc
  obtain ⟨hjn, hnone⟩ := Classical.not_imp.mp hj
  have hmem : memberID gid j ∈ (s.group gid).members :=
    (hw.pending _).mpr ⟨j, hjn, rfl, fun c hc heq => hnone ⟨c, hc, heq⟩⟩
  exact List.ne_nil_of_mem hmem

/-- The slots still pending after one more call. -/
theorem Waiting.mem_srem (hw : Waiting gid n cbID cs s) (c : Call) (x : String) :
    x ∈ srem (s.group gid).members (memberID gid c.slot) ↔
      ∃ j < n, x = memberID gid j ∧ ∀ d ∈ cs ++ [c], d.slot ≠ j := by
  rw [Redis.mem_srem, hw.pending]
  constructor
  · rintro ⟨⟨j, hj, rfl, hcs⟩, hne⟩
    refine ⟨j, hj, rfl, fun d hd => ?_⟩
    rcases List.mem_append.mp hd with hd | hd
    · exact hcs d hd
    · rw [List.mem_singleton.mp hd]
      exact fun heq => hne (heq ▸ rfl)
  · rintro ⟨j, hj, rfl, hcs⟩
    refine ⟨⟨j, hj, rfl, fun d hd => hcs d (List.mem_append_left _ hd)⟩, fun heq => ?_⟩
    exact hcs c List.mem_concat_self
      (memberID_injective gid heq).symm

theorem Waiting.srem_eq_nil_iff (hw : Waiting gid n cbID cs s) (c : Call) :
    srem (s.group gid).members (memberID gid c.slot) = [] ↔ Complete n (cs ++ [c]) := by
  constructor
  · intro hnil j hj
    by_contra hnone
    have hmem := (hw.mem_srem c (memberID gid j)).mpr
      ⟨j, hj, rfl, fun d hd heq => hnone ⟨d, hd, heq⟩⟩
    rw [hnil] at hmem
    cases hmem
  · intro hc
    refine List.eq_nil_iff_forall_not_mem.mpr fun x hx => ?_
    obtain ⟨j, hj, -, hnone⟩ := (hw.mem_srem c x).mp hx
    obtain ⟨d, hd, hdj⟩ := hc j hj
    exact hnone d hd hdj

section
variable (hg : IsGroup gid n link cb member) (hw : Waiting gid n cbID cs s) (hc : c.slot < n)
include hg hw hc

/-- The result fields after a call. -/
theorem Waiting.hget_reportedFields (j : Nat) :
    hget (s.reportedFields (c.report link member)) j = lastResult (cs ++ [c]) j := by
  rw [report_eq hg hc, lastResult_snoc]
  unfold reportedFields
  by_cases hr : c.result = []
  · rw [if_pos hr, if_neg (fun h => h.2 hr), hw.fields]
  · rw [if_neg hr]
    by_cases hj : c.slot = j
    · subst hj
      rw [hget_hset_self, if_pos ⟨rfl, hr⟩]
    · rw [hget_hset_ne _ _ (Ne.symm hj), if_neg (fun h => hj h.1), hw.fields]

theorem Waiting.reportedFields_eq_nil_iff :
    s.reportedFields (c.report link member) = [] ↔ ∀ d ∈ cs ++ [c], d.result = [] := by
  rw [report_eq hg hc]
  unfold reportedFields
  by_cases hr : c.result = []
  · rw [if_pos hr, hw.noFields]
    simp [or_imp, forall_and, hr]
  · rw [if_neg hr]
    simp [hr]

/-- The callback a completing call creates carries what was collected. -/
theorem Waiting.withResults_eq (hcb : cb.groupResults = []) :
    withResults cb (s.reportedFields (c.report link member)) n =
      { cb with groupResults := collected n (cs ++ [c]) } := by
  unfold withResults collected
  by_cases hr : ∀ d ∈ cs ++ [c], d.result = []
  · rw [if_neg (fun h => h.1 ((hw.reportedFields_eq_nil_iff hg hc).mpr hr)), if_pos hr, ← hcb]
  · rw [if_pos ⟨fun h => hr ((hw.reportedFields_eq_nil_iff hg hc).mp h), hg.size⟩, if_neg hr]
    congr 1
    exact List.map_congr_left fun j _ => hw.hget_reportedFields hg hc j

end

theorem IsGroup.groupResults (hg : IsGroup gid n link cb member) : cb.groupResults = [] := by
  rw [← hg.callback 0 hg.size]
  rfl

/-! ## One call -/

/-- No task hash, no stream entry and no sorted set has changed. -/
structure Untouched (s t : Slot) : Prop where
  task : t.task = s.task
  stream : t.stream = s.stream
  zset : t.zset = s.zset

/-- What one call does, given the calls before it. -/
structure CallSpec (gid : String) (n : Nat) (cb : TaskMessage) (cs : List Call) (c : Call)
    (s : Slot) (out : Slot × Bool) : Prop where
  fires : out.2 = true ↔ Complete n (cs ++ [c]) ∧ ¬ Complete n cs
  tracks : Tracks gid n cb.id (cs ++ [c]) out.1
  absent : out.2 = true → (s.task cb.id).present = false
  placed : out.2 = true → out.1 = (s.dropGroup gid).placeCallback
    { cb with groupResults := collected n (cs ++ [c]) } c.score
  untouched : out.2 = false → Untouched s out.1

section
variable (hg : IsGroup gid n link cb member) (hc : c.slot < n)
include hg hc

theorem groupComplete_of_complete (hcs : Complete n cs) (ht : Tracks gid n cb.id cs s) :
    CallSpec gid n cb cs c s (s.groupComplete (c.report link member) c.now) := by
  have hcs' : Complete n (cs ++ [c]) := hcs.mono (List.subset_append_left _ _)
  rw [Tracks, if_pos hcs] at ht
  have hout : s.groupComplete (c.report link member) c.now = (s, false) := by
    rw [groupComplete, report_eq hg hc, if_pos ht]
  rw [hout]
  refine ⟨⟨(nomatch ·), fun h => absurd hcs h.2⟩, ?_, (nomatch ·), (nomatch ·),
    fun _ => ⟨rfl, rfl, rfl⟩⟩
  rw [Tracks, if_pos hcs']
  exact ht

theorem groupComplete_of_waiting (hcs : ¬ Complete n cs) (ht : Tracks gid n cb.id cs s)
    (hcs' : ¬ Complete n (cs ++ [c])) :
    CallSpec gid n cb cs c s (s.groupComplete (c.report link member) c.now) := by
  rw [Tracks, if_neg hcs] at ht
  have hrest : srem (s.group gid).members (memberID gid c.slot) ≠ [] :=
    fun h => hcs' ((ht.srem_eq_nil_iff c).mp h)
  have hmem := ht.mem_srem c
  have hfields := fun j => ht.hget_reportedFields hg hc j
  have hnil := ht.reportedFields_eq_nil_iff hg hc
  unfold groupComplete
  rw [report_eq hg hc] at hfields hnil ⊢
  rw [if_neg (ht.members_ne_nil hcs), if_pos hrest]
  refine ⟨⟨(nomatch ·), fun h => absurd h.1 hcs'⟩, ?_, (nomatch ·), (nomatch ·),
    fun _ => ⟨rfl, rfl, rfl⟩⟩
  rw [Tracks, if_neg hcs']
  refine ⟨fun x => ?_, fun j => ?_, ?_, ht.absent⟩
  · simpa only [Function.update_self] using hmem x
  · simpa only [Function.update_self] using hfields j
  · simpa only [Function.update_self] using hnil

theorem groupComplete_of_last (hcs : ¬ Complete n cs) (ht : Tracks gid n cb.id cs s)
    (hcs' : Complete n (cs ++ [c])) :
    CallSpec gid n cb cs c s (s.groupComplete (c.report link member) c.now) := by
  rw [Tracks, if_neg hcs] at ht
  have hrest : srem (s.group gid).members (memberID gid c.slot) = [] :=
    (ht.srem_eq_nil_iff c).mpr hcs'
  have hres := ht.withResults_eq hg hc hg.groupResults
  have habsent : ((s.dropGroup gid).task cb.id).present = false := ht.absent
  unfold groupComplete
  rw [report_eq hg hc] at hres ⊢
  simp only [if_neg (ht.members_ne_nil hcs), hrest, ne_eq, not_true_eq_false, if_false, habsent,
    Bool.false_eq_true, hres]
  refine ⟨⟨fun _ => ⟨hcs', hcs⟩, fun _ => rfl⟩, ?_, fun _ => ht.absent, fun _ => rfl, (nomatch ·)⟩
  rw [Tracks, if_pos hcs', group_placeCallback]
  simp [dropGroup]

/-- **The step lemma.**  Whatever calls came before, a call does what the protocol
prescribes. -/
theorem tracks_call (ht : Tracks gid n cb.id cs s) :
    CallSpec gid n cb cs c s (s.groupComplete (c.report link member) c.now) := by
  by_cases hcs : Complete n cs
  · exact groupComplete_of_complete hg hc hcs ht
  · by_cases hcs' : Complete n (cs ++ [c])
    · exact groupComplete_of_last hg hc hcs ht hcs'
    · exact groupComplete_of_waiting hg hc hcs ht hcs'

end

/-! ## Runs -/

/-- The first report a program sends, with the queue it sends it to, if its clock reads
`clock`. -/
def sentReport {α : Type} (clock : Int) : Routine α → Option (String × Report)
  | .call .now k => sentReport clock (k clock)
  | .call (.redis (.groupComplete q r)) _ => some (q, r)
  | _ => none

/-- The score of a callback at the time its group completes; `none` without delay. -/
def callbackScore (link : ChainLink) (clock : Int) : Option Int :=
  if 0 < link.delay then some (unix (clock + delayDuration link.delay) * second) else none

theorem sentReport_completeGroupMember {m : TaskMessage} {clock : Int} {q : String} {r : Report}
    (hlink : m.groupCallback = some link)
    (hsent : sentReport clock (completeGroupMember m) = some (q, r)) :
    r = memberReport m link (callbackScore link clock) := by
  simp only [completeGroupMember, hlink] at hsent
  by_cases hq : m.groupQueue ≠ link.queue
  · rw [if_pos hq] at hsent
    cases hsent
  · rw [if_neg hq] at hsent
    unfold callbackScore
    by_cases hd : 0 < link.delay
    · rw [if_pos hd] at hsent ⊢
      cases hsent
      rfl
    · rw [if_neg hd] at hsent ⊢
      cases hsent
      rfl

/-- One call as it can be observed: the caller's clock, the reply, and the queue before
and after it. -/
structure Observed where
  call : Call
  clock : Int
  fired : Bool
  before : Slot
  after : Slot

/-- A call on a slot, observed. -/
def observe (link : ChainLink) (member : Nat → TaskMessage) (s : Slot) (c : Call) (clock : Int) :
    Observed :=
  let out := s.groupComplete (c.report link member) c.now
  ⟨c, clock, out.2, s, out.1⟩

/-- The runs of a group: the reports `CompleteGroupMember` sends for its slots, and in
between anything that leaves the keys of the group alone and does not create its
callback.  The callback, once created, may run, be retained or be deleted. -/
inductive Run (gid : String) (n : Nat) (link : ChainLink) (member : Nat → TaskMessage)
    (cbID : String) (s₀ : Slot) : List Observed → Slot → Prop where
  | start : Run gid n link member cbID s₀ [] s₀
  | call {os : List Observed} {s : Slot} (hr : Run gid n link member cbID s₀ os s) (c : Call)
      (clock : Int) (hc : c.slot < n)
      (hsent : sentReport clock (completeGroupMember { member c.slot with result := c.result }) =
        some (link.queue, c.report link member)) :
      Run gid n link member cbID s₀ (os ++ [observe link member s c clock])
        (s.groupComplete (c.report link member) c.now).1
  | other {os : List Observed} {s t : Slot} (hr : Run gid n link member cbID s₀ os s)
      (hset : t.group gid = s.group gid) (hres : t.groupResult gid = s.groupResult gid)
      (hcb : (s.task cbID).present = false → (t.task cbID).present = false) :
      Run gid n link member cbID s₀ os t

/-- In particular the callback's record may be deleted. -/
theorem Run.deleteCallback (hr : Run gid n link member cbID s₀ os s) :
    Run gid n link member cbID s₀ os (s.del cbID) :=
  hr.other rfl rfl fun _ => by simp [Slot.del, TaskHash.present]

/-- The calls of a run. -/
def calls (os : List Observed) : List Call := os.map Observed.call

/-- The callback has been created, where there was none: its hash, and one entry at the
end of the stream, or one member of the scheduled set that is due when the delay of the
link has passed.  No other task has changed. -/
structure Created (link : ChainLink) (cb : TaskMessage) (clock : Int) (s t : Slot) : Prop where
  absent : (s.task cb.id).present = false
  pending : link.delay ≤ 0 →
    t.task = Function.update s.task cb.id ⟨some cb, some .pending⟩ ∧
    t.stream = s.stream.xadd cb.id ∧ t.zset = s.zset
  scheduled : 0 < link.delay →
    t.task = Function.update s.task cb.id ⟨some cb, some .scheduled⟩ ∧ t.stream = s.stream ∧
    t.zset = Function.update s.zset .scheduled ((s.zset .scheduled).zadd
      (unix (clock + delayDuration link.delay) * second) cb.id)

theorem created_placeCallback (habsent : (s.task cb.id).present = false) (gid : String)
    (clock : Int) : Created link cb clock s
      ((s.dropGroup gid).placeCallback cb (callbackScore link clock)) := by
  refine ⟨habsent, fun hd => ?_, fun hd => ?_⟩
  · rw [callbackScore, if_neg (not_lt.mpr hd)]
    exact ⟨rfl, rfl, rfl⟩
  · rw [callbackScore, if_pos hd]
    exact ⟨rfl, rfl, rfl⟩

/-- What a run shows of each of its calls, by its place in the run. -/
def AsPrescribed (n : Nat) (link : ChainLink) (cb : TaskMessage) (os : List Observed) : Prop :=
  ∀ i o, os[i]? = some o →
    (o.fired = true ↔ Complete n (calls (os.take (i + 1))) ∧ ¬ Complete n (calls (os.take i))) ∧
    (o.fired = true → Created link
      { cb with groupResults := collected n (calls (os.take (i + 1))) } o.clock o.before o.after) ∧
    (o.fired = false → Untouched o.before o.after)

/-- What a group tracks depends on its keys only, and on whether the callback exists. -/
theorem Tracks.congr {t : Slot} (ht : Tracks gid n cbID cs s)
    (hset : (t.group gid).members = (s.group gid).members)
    (hres : (t.groupResult gid).fields = (s.groupResult gid).fields)
    (hcb : ¬ Complete n cs → (s.task cbID).present = false → (t.task cbID).present = false) :
    Tracks gid n cbID cs t := by
  unfold Tracks at ht ⊢
  split
  · rename_i hc
    rw [if_pos hc] at ht
    rw [hset, ht]
  · rename_i hc
    rw [if_neg hc] at ht
    refine ⟨fun x => ?_, fun j => ?_, ?_, hcb hc ht.absent⟩
    · rw [hset]
      exact ht.pending x
    · rw [hres]
      exact ht.fields j
    · rw [hres]
      exact ht.noFields

theorem tracks_other {t : Slot} (ht : Tracks gid n cbID cs s) (hset : t.group gid = s.group gid)
    (hres : t.groupResult gid = s.groupResult gid)
    (hcb : (s.task cbID).present = false → (t.task cbID).present = false) :
    Tracks gid n cbID cs t :=
  ht.congr (congrArg GroupSet.members hset) (congrArg GroupHash.fields hres) fun _ => hcb

section
variable (hg : IsGroup gid n link cb member)
  (hlink : ∀ j < n, (member j).groupCallback = some link) (h₀ : Tracks gid n cb.id [] s₀)
  (hr : Run gid n link member cb.id s₀ os s)
include hg hlink h₀ hr

/-- **The run lemma.**  Along every run the keys of the group track the calls, and
every call does what the protocol prescribes. -/
theorem tracks_run :
    Tracks gid n cb.id (calls os) s ∧ AsPrescribed n link cb os ∧ ∀ c ∈ calls os, c.slot < n := by
  induction hr with
  | start => exact ⟨h₀, fun i o ho => by simp at ho, fun c hc => by simp [calls] at hc⟩
  | @call os s _ c clock hc hsent ih =>
    obtain ⟨ht, hp, hslots⟩ := ih
    have hspec := tracks_call hg hc ht
    have hscore : c.score = callbackScore link clock := congrArg Report.score
      (sentReport_completeGroupMember (m := { member c.slot with result := c.result })
        (hlink _ hc) hsent)
    have hcalls : calls (os ++ [observe link member s c clock]) = calls os ++ [c] := by
      simp [calls, observe]
    refine ⟨hcalls ▸ hspec.tracks, fun i o ho => ?_, fun d hd => ?_⟩
    · rcases Nat.lt_or_ge i os.length with hi | hi
      · rw [List.getElem?_append_left hi] at ho
        rw [List.take_append_of_le_length hi, List.take_append_of_le_length (Nat.le_of_lt hi)]
        exact hp i o ho
      · have hlen : i = os.length := by
          have := (List.getElem?_eq_some_iff.mp ho).1
          simp only [List.length_append, List.length_singleton] at this
          omega
        subst hlen
        rw [List.getElem?_append_right (Nat.le_refl _), Nat.sub_self] at ho
        cases ho
        have htake : (os ++ [observe link member s c clock]).take (os.length + 1) =
            os ++ [observe link member s c clock] := List.take_of_length_le (by simp)
        rw [htake, hcalls, List.take_append_of_le_length (Nat.le_refl _), List.take_length]
        refine ⟨hspec.fires, fun hf => ?_, hspec.untouched⟩
        change Created link _ clock s (s.groupComplete (c.report link member) c.now).1
        rw [hspec.placed hf, hscore]
        apply created_placeCallback
        exact hspec.absent hf
    · rw [hcalls] at hd
      rcases List.mem_append.mp hd with hd | hd
      · exact hslots d hd
      · rw [List.mem_singleton.mp hd]
        exact hc
  | other _ hset hres hcb ih => exact ⟨tracks_other ih.1 hset hres hcb, ih.2⟩

/-- At most one call fires, and one does as soon as all slots are reported. -/
theorem length_fired :
    (os.filter Observed.fired).length = if Complete n (calls os) then 1 else 0 := by
  induction hr with
  | start => simp [calls, not_complete_nil hg.size]
  | @call os s hr c clock hc hsent ih =>
    have hspec := tracks_call hg hc (tracks_run hg hlink h₀ hr).1
    have hcalls : calls (os ++ [observe link member s c clock]) = calls os ++ [c] := by
      simp [calls, observe]
    have hfired : (observe link member s c clock).fired =
        (s.groupComplete (c.report link member) c.now).2 := rfl
    rw [List.filter_append, List.length_append, ih, hcalls]
    by_cases hcs : Complete n (calls os)
    · have hn : (observe link member s c clock).fired = false := by
        rw [hfired, Bool.eq_false_iff]
        exact fun h => (hspec.fires.mp h).2 hcs
      rw [if_pos hcs, if_pos (hcs.mono (List.subset_append_left _ _))]
      simp [hn]
    · rw [if_neg hcs]
      by_cases hcs' : Complete n (calls os ++ [c])
      · have hy : (observe link member s c clock).fired = true := hspec.fires.mpr ⟨hcs', hcs⟩
        rw [if_pos hcs']
        simp [hy]
      · have hn : (observe link member s c clock).fired = false := by
          rw [hfired, Bool.eq_false_iff]
          exact fun h => hcs' (hspec.fires.mp h).1
        rw [if_neg hcs']
        simp [hn]
  | other _ _ _ _ ih => exact ih

end

/-- **The callback of a group is created exactly once, by the first call after
which every slot has been reported, with the results in member order.**  In every
run after `CreateGroup`: a call returns true if and only if it completes the
group; that call creates the callback, carrying what was collected, with one entry
in the stream or, if it is delayed, in the scheduled set; no other call touches a
task, the stream or a sorted set; exactly one such call is made once all slots are
reported; and if each member always reports the same result, the callback does not
depend on the order of the calls. -/
theorem callback_created_exactly_once (hg : IsGroup gid n link cb member)
    (hlink : ∀ j < n, (member j).groupCallback = some link) {s₀ s : Slot} {now : Int}
    (hset : (s₀.group gid).members = []) (hres : (s₀.groupResult gid).fields = [])
    (hcb : (s₀.task cb.id).present = false) {os : List Observed}
    (hr : Run gid n link member cb.id (s₀.createGroup gid (slots gid n) now) os s) :
    AsPrescribed n link cb os ∧
    (os.filter Observed.fired).length = (if Complete n (calls os) then 1 else 0) ∧
    ∀ f : Nat → Bytes, (∀ c ∈ calls os, c.result = f c.slot) → ∀ o ∈ os, o.fired = true →
      Created link { cb with groupResults := steady n f } o.clock o.before o.after := by
  have h₀ : Tracks gid n cb.id [] (s₀.createGroup gid (slots gid n) now) :=
    tracks_createGroup hg.size hset hres hcb
  obtain ⟨-, hp, hslots⟩ := tracks_run hg hlink h₀ hr
  refine ⟨hp, length_fired hg hlink h₀ hr, fun f hf o ho hfired => ?_⟩
  obtain ⟨i, hi⟩ := List.mem_iff_getElem?.mp ho
  obtain ⟨hiff, hcreated, -⟩ := hp i o hi
  have hsub : calls (os.take (i + 1)) ⊆ calls os := List.map_subset _ (List.take_subset _ _)
  rw [← collected_steady (hiff.mp hfired).1 (fun c hc => hslots c (hsub hc))
    (fun c hc => hf c (hsub hc))]
  exact hcreated hfired

/-- A callback that is delayed by five seconds. -/
def sampleLink : ChainLink := ⟨"sum", [], "low", 3, false, 0, 5, []⟩

/-- The members of a group of two flat tasks. -/
def sampleMember (j : Nat) : TaskMessage :=
  { id := memberID "g" j, kind := "part", payload := [], queue := "high", maxRetry := 1
    groupID := "g", groupQueue := "low", groupCallback := some sampleLink, groupIndex := j
    groupSize := 2 }

theorem sample_isGroup : IsGroup "g" 2 sampleLink
    { id := "g:cb", kind := "sum", payload := [], queue := "low", maxRetry := 3,
      state := .scheduled } sampleMember := by
  refine ⟨by decide, fun j _ => rfl, fun j _ => rfl, fun j _ => rfl, fun j _ => rfl,
    fun j _ => rfl⟩

/-- Two members, the second reporting first and again, with the callback's record
deleted before a late report: one call fires. -/
theorem callback_created_once_of_two : ∃ os s, Run "g" 2 sampleLink sampleMember "g:cb"
    (Slot.empty.createGroup "g" (slots "g" 2) 0) os s ∧ os.length = 4 ∧
    (os.filter Observed.fired).length = 1 := by
  have h₁ : Run "g" 2 sampleLink sampleMember "g:cb"
      (Slot.empty.createGroup "g" (slots "g" 2) 0) _ _ :=
    .call .start ⟨1, [7], some (5 * second), 1⟩ 0 (by decide) rfl
  have h₂ := h₁.call ⟨1, [8], some (6 * second), 2⟩ second (by decide) rfl
  have h₃ := h₂.call ⟨0, [], some (7 * second), 3⟩ (2 * second) (by decide) rfl
  have h₅ := h₃.deleteCallback.call ⟨0, [9], some (8 * second), 4⟩ (3 * second) (by decide) rfl
  have h := (callback_created_exactly_once sample_isGroup (fun _ _ => rfl) rfl rfl rfl h₅).2.1
  refine ⟨_, _, h₅, rfl, ?_⟩
  rw [h, if_pos (by decide)]

end GroupCompletion
end ChronosGo
