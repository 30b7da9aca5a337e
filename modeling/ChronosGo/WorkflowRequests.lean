import ChronosGo.Reference

/-! # The workflow that is asked for

What a chain or a group asks for is read off the value that was built, without its
checks: each task has the kind and the encoded arguments it was added with, and of
the options given with it the last one of each sort counts.  The first task of the
workflow carries all that follows, and its plan is `chainPlan` or `groupPlan`.

The builders freeze a workflow task by task and refuse many of them; what they send
for a workflow they accept is the first task of what was asked for.
-/
namespace ChronosGo

variable {now : Int} {o : EnqueueOptions} {link : ChainLink} {j : Nat} {gm : GroupMember}

/-! ## Options -/

namespace TaskOption

/-- The queue an option names. -/
def queueName : TaskOption → Option String
  | withQueue name => some name
  | _ => none

/-- The retry budget an option sets. -/
def budget : TaskOption → Option Nat
  | withMaxRetry n => some n.toNat
  | _ => none

/-- Whether the task is discarded and not archived in the end. -/
def discard : TaskOption → Option Bool
  | withDeadLetterDiscard => some true
  | _ => none

/-- For how many seconds a succeeded task is kept: less than one counts as one. -/
def kept : TaskOption → Option Int
  | withRetention d => some (if d ≤ 0 then 0 else max 1 (d / second))
  | _ => none

/-- When the task is due, if an option says so. -/
def due (now : Int) : TaskOption → Option (Option Int)
  | withProcessAt t => some t
  | withProcessIn d => some (some (now + d))
  | _ => none

end TaskOption

/-- The last option of a sort, or the default. -/
def lastOf {α : Type} (sort : TaskOption → Option α) (opts : List TaskOption) (d : α) : α :=
  (opts.filterMap sort).getLast?.getD d

/-- The task of these arguments and options, as a link of a chain. -/
def askedLink (now : Int) (args : TaskArgs) (opts : List TaskOption) : ChainLink where
  kind := args.kind
  payload := args.json.toOption.getD []
  queue := lastOf TaskOption.queueName opts "default"
  maxRetry := lastOf TaskOption.budget opts 25
  noArchive := lastOf TaskOption.discard opts false
  retention := lastOf TaskOption.kept opts 0
  delay := captureRelativeDelay now { processAt := lastOf (TaskOption.due now) opts none }

section Options
variable {α : Type} {args : TaskArgs} {opts : List TaskOption} {payload : Bytes}

/-- A setting that options of one sort overwrite, and others leave, is that of the last
one. -/
theorem foldl_apply_eq_lastOf (setting : EnqueueOptions → α) (sort : TaskOption → Option α)
    (h : ∀ opt o, setting (opt.apply now o) = (sort opt).getD (setting o))
    (opts : List TaskOption) (o : EnqueueOptions) :
    setting (opts.foldl (TaskOption.apply now) o) = lastOf sort opts (setting o) := by
  induction opts generalizing o with
  | nil => rfl
  | cons opt opts ih =>
    rw [List.foldl_cons, ih, h]
    unfold lastOf
    cases hs : sort opt with
    | none => rw [List.filterMap_cons_none hs, Option.getD_none]
    | some a => rw [List.filterMap_cons_some hs, List.getLast?_cons, Option.getD_some,
        Option.getD_some]

theorem seconds_kept (d : Int) : (if d ≤ 0 then 0 else max d second).tdiv second =
    if d ≤ 0 then 0 else max 1 (d / second) := by
  split
  · rfl
  · rw [Int.tdiv_eq_ediv_of_nonneg (by omega)]
    unfold second
    omega

theorem TaskOption.apply_settings (now : Int) (opt : TaskOption) (o : EnqueueOptions) :
    (opt.apply now o).queue = opt.queueName.getD o.queue ∧
    (opt.apply now o).maxRetry = opt.budget.getD o.maxRetry ∧
    (opt.apply now o).noArchive = opt.discard.getD o.noArchive ∧
    (opt.apply now o).retention.tdiv second = opt.kept.getD (o.retention.tdiv second) ∧
    (opt.apply now o).processAt = (opt.due now).getD o.processAt := by
  cases opt with
  | withUnique ttl =>
    by_cases h : 0 < ttl <;> simp [apply, queueName, budget, discard, kept, due, h]
  | withRetention d => exact ⟨rfl, rfl, rfl, seconds_kept d, rfl⟩
  | _ => exact ⟨rfl, rfl, rfl, rfl, rfl⟩

/-- What the options of a link come to. -/
theorem askedLink_eq (ho : resolveChainOptions now opts = .ok o)
    (hp : encodeArgs args = .ok payload) : askedLink now args opts = {
      kind := args.kind, payload := payload, queue := o.queue, maxRetry := o.maxRetry
      noArchive := o.noArchive, retention := o.retention.tdiv second
      delay := captureRelativeDelay now o } := by
  obtain ⟨_, -, h⟩ := bind_ok ho
  obtain ⟨_, -, h⟩ := bind_ok h
  have hset := TaskOption.apply_settings now
  have hqueue := foldl_apply_eq_lastOf EnqueueOptions.queue _ (fun opt o => (hset opt o).1) opts {}
  have hretry := foldl_apply_eq_lastOf EnqueueOptions.maxRetry _
    (fun opt o => (hset opt o).2.1) opts {}
  have harchive := foldl_apply_eq_lastOf EnqueueOptions.noArchive _
    (fun opt o => (hset opt o).2.2.1) opts {}
  have hkept := foldl_apply_eq_lastOf (fun o => o.retention.tdiv second) _
    (fun opt o => (hset opt o).2.2.2.1) opts {}
  have hdue := foldl_apply_eq_lastOf EnqueueOptions.processAt _
    (fun opt o => (hset opt o).2.2.2.2) opts {}
  have hjson : args.json = .ok payload := hp
  cases h
  unfold askedLink captureRelativeDelay
  rw [hqueue, hretry, harchive, hkept, hdue, hjson]
  rfl

theorem snapshotChainLink_eq {isLast : Bool}
    (h : snapshotChainLink now args opts isLast = .ok link) : link = askedLink now args opts := by
  obtain ⟨o, ho, h⟩ := bind_ok h
  obtain ⟨_, -, h⟩ := bind_ok h
  obtain ⟨_, -, h⟩ := bind_ok h
  obtain ⟨payload, hp, h⟩ := bind_ok h
  cases h
  exact (askedLink_eq ho hp).symm

/-- Checks in order that each give what was asked for. -/
theorem snapshotEach_eq {β γ : Type} {f : Nat → α → Except String β} (part : β → γ)
    {asked : Nat → α → γ} {as : List α} {bs : List β} (h : snapshotEach f j as = .ok bs)
    (hf : ∀ i a b, f i a = .ok b → part b = asked i a) :
    bs.map part = as.mapIdx fun i a => asked (j + i) a := by
  induction as generalizing j bs with
  | nil =>
    cases h
    rfl
  | cons a as ih =>
    obtain ⟨b, hb, h⟩ := bind_ok h
    obtain ⟨bs', hbs, h⟩ := bind_ok h
    cases h
    rw [List.map_cons, hf _ _ _ hb, ih hbs, List.mapIdx_cons]
    simp only [Nat.add_zero, Nat.add_assoc, Nat.add_comm 1]

theorem mapIdx_asked {β : Type} (f : α → β) (as : List α) :
    as.mapIdx (fun _ a => f a) = as.map f := by
  apply List.ext_getElem <;> simp

end Options

/-! ## Chains and groups -/

/-- A member of a parallel stage; a chain cannot be one. -/
def GroupMember.asked (now : Int) : GroupMember → GroupMemberLink
  | single args opts =>
    let link := askedLink now args opts
    { kind := link.kind, payload := link.payload, queue := link.queue, maxRetry := link.maxRetry
      retention := link.retention, delay := link.delay }
  | chain _ => ⟨"", [], "", 0, 0, 0⟩

/-- The callback of a group; there has to be one. -/
def Group.asked (now : Int) (g : Group) : ChainLink :=
  match g.callback with
  | some (args, opts) => askedLink now args opts
  | none => ⟨"", [], "", 0, false, 0, 0, []⟩

/-- A stage of a chain: a task, or the callback of a group with its members. -/
def ChainStage.asked (now : Int) : ChainStage → ChainLink
  | single args opts => askedLink now args opts
  | parallel (some g) => { g.asked now with group := g.members.map (GroupMember.asked now) }
  | parallel none => ⟨"", [], "", 0, false, 0, 0, []⟩

/-- The first task of a chain, which carries the other stages; a chain starts with a
single task. -/
def Chain.asked (now : Int) (c : String) (ch : Chain) : TaskMessage :=
  match ch.stages with
  | .single args opts :: stages =>
    let link := askedLink now args opts
    { id := linkID c 0, kind := link.kind, payload := link.payload, queue := link.queue
      maxRetry := link.maxRetry, noArchive := link.noArchive, retention := link.retention
      chain := stages.map (ChainStage.asked now), chainID := c }
  | _ => { id := linkID c 0, kind := "", payload := [], queue := "", maxRetry := 0 }

/-- The first task of member `j` of a group of `n`: the member itself, or the first task
of its chain. -/
def GroupMember.firstAsked (now : Int) (g : String) (cb : ChainLink) (n j : Nat) :
    GroupMember → TaskMessage
  | single args opts =>
    let link := askedLink now args opts
    { id := memberID g j, kind := link.kind, payload := link.payload, queue := link.queue
      maxRetry := link.maxRetry, retention := link.retention
      groupID := g, groupQueue := cb.queue, groupCallback := some cb, groupIndex := j
      groupSize := n }
  | chain ch =>
    { (ch.getD (.mk [])).asked now (memberID g j) with
      groupID := g, groupQueue := cb.queue, groupCallback := some cb, groupIndex := j
      groupSize := n, groupMemberID := memberID g j }

/-- The first tasks of the members of a group. -/
def Group.firsts (now : Int) (gid : String) (g : Group) : List TaskMessage :=
  g.members.mapIdx (GroupMember.firstAsked now gid (g.asked now) g.members.length)

theorem Group.groupCallback_firsts {gid : String} {g : Group} {m : TaskMessage}
    (hj : (g.firsts now gid)[j]? = some m) :
    m.groupCallback = some (g.asked now) := by
  rw [Group.firsts, List.getElem?_mapIdx, Option.map_eq_some_iff] at hj
  obtain ⟨gm, -, rfl⟩ := hj
  cases gm <;> rfl

theorem snapshotStageMember_eq {i : Nat} {link : GroupMemberLink}
    (h : snapshotStageMember now i j gm = .ok link) : link = gm.asked now := by
  cases gm with
  | chain ch => cases h
  | single args opts =>
    obtain ⟨o, ho, h⟩ := bind_ok (about_ok h)
    obtain ⟨_, -, h⟩ := bind_ok h
    obtain ⟨_, -, h⟩ := bind_ok h
    obtain ⟨payload, hp, h⟩ := bind_ok h
    obtain ⟨_, -, h⟩ := bind_ok h
    cases h
    rw [GroupMember.asked, askedLink_eq ho hp]

theorem snapshotStage_eq {n i : Nat} {st : ChainStage} (h : snapshotStage now n i st = .ok link) :
    link = st.asked now := by
  cases st with
  | single args opts => exact snapshotChainLink_eq (about_ok h)
  | parallel g =>
    rw [snapshotStage] at h
    unfold snapshotGroupStage at h
    split at h
    · cases h
    · split at h
      · cases h
      · split at h
        · cases h
        · rename_i g _ args opts hcb
          obtain ⟨l, hl, h⟩ := bind_ok h
          obtain ⟨ms, hms, h⟩ := bind_ok h
          cases h
          have hmap := snapshotEach_eq id hms fun _ _ _ => snapshotStageMember_eq
          rw [List.map_id, mapIdx_asked] at hmap
          rw [hmap, snapshotChainLink_eq (about_ok hl), ChainStage.asked, Group.asked, hcb]

theorem Chain.snapshotTail_eq {ch : Chain} {st : ChainStage} {stages : List ChainStage}
    {tail : List ChainLink} (h : ch.snapshotTail now = .ok tail) (hst : ch.stages = st :: stages) :
    tail = stages.map (ChainStage.asked now) := by
  rw [Chain.snapshotTail, hst] at h
  have hmap := snapshotEach_eq id h fun _ _ _ => snapshotStage_eq
  rwa [List.map_id, mapIdx_asked] at hmap

theorem submits_dispatchMessage {msg : TaskMessage} (ho : ¬ 0 < o.uniqueTTL) :
    Submits msg (dispatchMessage now msg o) := by
  rcases dispatchMessage_eq now msg ho with h | ⟨t, h⟩
  · exact h ▸ .enqueue
  · exact h ▸ .schedule t

/-- **A chain that is accepted** starts with its first task as it was asked for. -/
theorem Chain.enqueue_asked {c : String} {ch : Chain} {op : Op} (h : ch.enqueue now c = .ok op) :
    Submits (ch.asked now c) op := by
  unfold Chain.enqueue at h
  split at h
  · cases h
  · cases h
  · rename_i args opts stages hst
    obtain ⟨tail, htail, h⟩ := bind_ok h
    obtain ⟨o, ho, h⟩ := bind_ok h
    obtain ⟨_, -, h⟩ := bind_ok h
    obtain ⟨payload, hp, h⟩ := bind_ok h
    cases h
    simp only [Chain.asked, hst, askedLink_eq (about_ok ho) (about_ok hp),
      ← Chain.snapshotTail_eq htail hst]
    exact submits_dispatchMessage (resolveChainOptions_ok (about_ok ho))

theorem snapshotMember_eq {g : String} {cb : ChainLink} {n : Nat}
    {p : TaskMessage × EnqueueOptions} (h : snapshotMember now g cb n j gm = .ok p) :
    p.1 = gm.firstAsked now g cb n j := by
  cases gm with
  | single args opts =>
    obtain ⟨o, ho, h⟩ := bind_ok (about_ok h)
    obtain ⟨_, -, h⟩ := bind_ok h
    obtain ⟨_, -, h⟩ := bind_ok h
    obtain ⟨payload, hp, h⟩ := bind_ok h
    cases h
    simp only [GroupMember.firstAsked, askedLink_eq ho hp]
  | chain ch =>
    obtain ⟨⟨m, o⟩, hs, h⟩ := bind_ok (about_ok h)
    obtain ⟨_, -, h⟩ := bind_ok h
    cases h
    obtain ⟨ch, args, opts, stages, payload, rfl, hst, -, htail, ho, hkeep, hp, -, hm⟩ :=
      Chain.snapshotForMember_parts hs
    simp only [GroupMember.firstAsked, Option.getD_some, Chain.asked, hst,
      askedLink_eq ho hp, hkeep, ← Chain.snapshotTail_eq htail hst]
    rw [hm]

/-- **A group that is accepted** starts with its pending set and with the first task of
each member as it was asked for. -/
theorem Group.enqueue_asked {gid : String} {g : Group} {ops : List Op}
    (h : g.enqueue now gid = .ok ops) : ∃ starts,
      ops = .createGroup (g.asked now).queue gid
        ((List.range g.members.length).map (memberID gid)) :: starts ∧
      List.Forall₂ Submits (g.firsts now gid) starts := by
  unfold Group.enqueue at h
  split at h
  · cases h
  · split at h
    · cases h
    · rename_i args opts hcallback
      obtain ⟨cb, hcb, h⟩ := bind_ok h
      obtain ⟨pending, hp, h⟩ := bind_ok h
      cases h
      have hasked : cb = g.asked now := by
        rw [snapshotChainLink_eq (about_ok hcb), Group.asked, hcallback]
      subst hasked
      have hfirsts := snapshotEach_eq Prod.fst hp fun _ _ _ => snapshotMember_eq
      simp only [Nat.zero_add] at hfirsts
      refine ⟨_, rfl, ?_⟩
      rw [Group.firsts, ← hfirsts, List.forall₂_map_left_iff, List.forall₂_map_right_iff]
      refine List.forall₂_same.mpr fun p hmem => ?_
      obtain ⟨j, hj⟩ := List.mem_iff_getElem?.mp hmem
      obtain ⟨gm, -, hf⟩ := (snapshotEach_ok hp).2 j p hj
      exact submits_dispatchMessage (snapshotMember_ok hf).2.1
end ChronosGo
