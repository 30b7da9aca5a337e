import ChronosGo.Server

/-! # Building workflows

`Chain` and `Group` collect tasks with their options; `Enqueue` checks them,
freezes all later tasks into links (`chain.go`, `group.go`), and then sends the
first tasks to Redis.  Nothing is sent when a check fails.

A chain may contain groups and a group may contain chains, and the builders let
them be nested to any depth; the checks then refuse what goes deeper than one
level.  `Enqueue` works at one instant `now`.  An encoded argument is whatever
`json.Marshal` made of it, or its error.
-/
namespace ChronosGo

/-! ## Options -/

/-- The arguments of a task: its kind, and what `json.Marshal` makes of them. -/
structure TaskArgs where
  kind : String
  json : Except String Bytes

def encodeArgs (args : TaskArgs) : Except String Bytes := args.json

/-- Resolved settings; `processAt` is `none` for the zero time. -/
structure EnqueueOptions where
  queue : String := "default"
  taskID : String := ""
  maxRetry : Nat := 25
  noArchive : Bool := false
  processAt : Option Int := none
  processAtAbsolute : Bool := false
  uniqueTTL : Int := 0
  retention : Int := 0

/-- One option of an enqueue. -/
inductive TaskOption where
  | withQueue (name : String)
  | withTaskID (id : String)
  | withMaxRetry (n : Int)
  | withDeadLetterDiscard
  | withProcessAt (t : Option Int)
  | withProcessIn (d : Int)
  | withUnique (ttl : Int)
  | withRetention (d : Int)

def TaskOption.apply (now : Int) (o : EnqueueOptions) : TaskOption → EnqueueOptions
  | withQueue name => { o with queue := name }
  | withTaskID id => { o with taskID := id }
  | withMaxRetry n => { o with maxRetry := n.toNat }
  | withDeadLetterDiscard => { o with noArchive := true }
  | withProcessAt t => { o with processAt := t, processAtAbsolute := true }
  | withProcessIn d => { o with processAt := some (now + d) }
  | withUnique ttl => if 0 < ttl then { o with uniqueTTL := ttl } else o
  | withRetention d => { o with retention := if d ≤ 0 then 0 else max d second }

/-- `time.Until`, which saturates. -/
def timeUntil (now t : Int) : Int := max (-2 ^ 63) (min (2 ^ 63 - 1) (t - now))

/-- An error with what it is about in front of it. -/
def about {α : Type} (what : String) : Except String α → Except String α :=
  Except.mapError fun err => what ++ ": " ++ err

/-- `if c { return err }`. -/
def refuseIf (c : Prop) [Decidable c] (err : String) : Except String Unit :=
  if c then throw err else return ()

def resolveChainOptions (now : Int) (opts : List TaskOption) : Except String EnqueueOptions := do
  let o := opts.foldl (TaskOption.apply now) {}
  refuseIf (o.taskID ≠ "")
    "chronos: WithTaskID cannot be used inside a chain (the chain owns task IDs)"
  refuseIf (0 < o.uniqueTTL) "chronos: WithUnique is not supported inside a chain"
  return o

def errNoArchiveMidChain : String :=
  "chronos: WithDeadLetterDiscard is only allowed on the last chain link (discarding a mid-link " ++
    "would delete the chain's remaining tail)"

/-- The delay meant by `WithProcessIn`, in whole seconds, at least one if there is
any. -/
def captureRelativeDelay (now : Int) (o : EnqueueOptions) : Int :=
  match o.processAt with
  | none => 0
  | some t =>
    let d := timeUntil now t
    if d ≤ 0 then 0
    else
      let delay := (wrap64 (d + second / 2)).tdiv second
      if delay = 0 then 1 else delay

def snapshotChainLink (now : Int) (args : TaskArgs) (opts : List TaskOption) (isLast : Bool) :
    Except String ChainLink := do
  let o ← resolveChainOptions now opts
  refuseIf o.processAtAbsolute
    ("chronos: WithProcessAt cannot be used on a chain link after the first (its delay is " ++
      "relative to the predecessor; use WithProcessIn)")
  refuseIf (o.noArchive ∧ isLast = false) errNoArchiveMidChain
  let payload ← encodeArgs args
  return {
    kind := args.kind, payload := payload, queue := o.queue, maxRetry := o.maxRetry
    noArchive := o.noArchive, retention := o.retention.tdiv second
    delay := captureRelativeDelay now o }

/-- `dispatchMessage`: the request that makes a first task available. -/
def dispatchMessage (now : Int) (msg : TaskMessage) (o : EnqueueOptions) : Op :=
  let unique := 0 < o.uniqueTTL
  match o.processAt with
  | some t =>
    if now < t then
      if unique then .scheduleUnique msg t (wrap64 (o.uniqueTTL + timeUntil now t))
      else .schedule msg t
    else if unique then .enqueueUnique msg o.uniqueTTL else .enqueue msg
  | none => if unique then .enqueueUnique msg o.uniqueTTL else .enqueue msg

/-! ## Chains and groups -/

mutual

/-- A chain builder. -/
inductive Chain where
  | mk (stages : List ChainStage)

/-- A single task, or a parallel stage, which may be a nil group. -/
inductive ChainStage where
  | single (args : TaskArgs) (opts : List TaskOption)
  | parallel (group : Option Group)

/-- A group builder; the callback is set by `OnComplete`. -/
inductive Group where
  | mk (members : List GroupMember) (callback : Option (TaskArgs × List TaskOption))

/-- A single task, or a chain, which may be nil. -/
inductive GroupMember where
  | single (args : TaskArgs) (opts : List TaskOption)
  | chain (ch : Option Chain)

end

def Chain.stages : Chain → List ChainStage
  | mk stages => stages

def Group.members : Group → List GroupMember
  | mk members _ => members

def Group.callback : Group → Option (TaskArgs × List TaskOption)
  | mk _ callback => callback

def ChainStage.isGroup : ChainStage → Bool
  | single .. => false
  | parallel _ => true

/-- `"chain stage <i>"`, `"chain stage <i> member <j>"`. -/
def stageLabel (i : Nat) : String := "chain stage " ++ toString i

def stageMemberLabel (i j : Nat) : String := stageLabel i ++ " member " ++ toString j

/-- The checks on member `j` of parallel stage `i`, and its parameters. -/
def snapshotStageMember (now : Int) (i j : Nat) : GroupMember → Except String GroupMemberLink
  | .chain _ =>
    about (stageMemberLabel i j)
      (throw "a group used as a chain stage cannot have chain members yet")
  | .single args opts => about (stageMemberLabel i j) do
    let o ← resolveChainOptions now opts
    refuseIf o.noArchive
      "WithDeadLetterDiscard would strand the group (no dead-letter left to re-run)"
    refuseIf o.processAtAbsolute
      "WithProcessAt cannot be used on a group member (its delay is relative; use WithProcessIn)"
    let payload ← encodeArgs args
    let delay := captureRelativeDelay now o
    refuseIf (Slot.groupTTL.tdiv second < delay) "WithProcessIn exceeds the group TTL (168h0m0s)"
    return {
      kind := args.kind, payload := payload, queue := o.queue, maxRetry := o.maxRetry
      retention := o.retention.tdiv second, delay := delay }

/-- Checks in order, numbered from `j`. -/
def snapshotEach {α β : Type} (f : Nat → α → Except String β) : Nat → List α →
    Except String (List β)
  | _, [] => return []
  | j, a :: as => do
    let b ← f j a
    let bs ← snapshotEach f (j + 1) as
    return b :: bs

def snapshotGroupStage (now : Int) (g : Option Group) (i : Nat) (isLast : Bool) :
    Except String ChainLink :=
  match g with
  | none => about (stageLabel i) (throw "nil group")
  | some g =>
    if g.members = [] then about (stageLabel i) (throw "group needs at least one member")
    else
      match g.callback with
      | none => about (stageLabel i) (throw "group needs a callback (OnComplete)")
      | some (args, opts) => do
        let link ← about (stageLabel i ++ " callback") (snapshotChainLink now args opts isLast)
        let members ← snapshotEach (snapshotStageMember now i) 0 g.members
        return { link with group := members }

/-- `snapshotStage`: stage `i` of a chain of `n`, as a link. -/
def snapshotStage (now : Int) (n i : Nat) : ChainStage → Except String ChainLink
  | .single args opts =>
    about ("chain link " ++ toString i) (snapshotChainLink now args opts (decide (i + 1 = n)))
  | .parallel g => snapshotGroupStage now g i (decide (i + 1 = n))

def Chain.snapshotTail (now : Int) (ch : Chain) : Except String (List ChainLink) :=
  snapshotEach (snapshotStage now ch.stages.length) 1 (ch.stages.drop 1)

/-- `Chain.Enqueue`: the request that starts the chain, if its checks pass. -/
def Chain.enqueue (now : Int) (chainID : String) (ch : Chain) : Except String Op :=
  match ch.stages with
  | [] => throw "chronos: empty chain"
  | .parallel _ :: _ =>
    throw ("chronos: a group cannot be the chain's first stage — start with Then, or use " ++
      "NewGroup directly")
  | .single args opts :: stages => do
    let tail ← ch.snapshotTail now
    let o ← about "chain link 0" (resolveChainOptions now opts)
    about "chain link 0" (refuseIf (stages ≠ [] ∧ o.noArchive) errNoArchiveMidChain)
    let payload ← about "chain link 0" (encodeArgs args)
    return dispatchMessage now {
      id := linkID chainID 0, kind := args.kind, payload := payload, queue := o.queue
      maxRetry := o.maxRetry, noArchive := o.noArchive, retention := o.retention.tdiv second
      chain := tail, chainID := chainID, chainIndex := 0 } o

/-! ## Groups -/

def errDiscardInMember : String :=
  "chronos: a group member chain link cannot discard (WithDeadLetterDiscard) — it would strand " ++
    "the group"

def errNestedGroup : String :=
  "chronos: a group member chain cannot contain a parallel stage (ThenGroup) — recursive " ++
    "nesting beyond one level is not supported"

/-- `snapshotForMember`: the first link of a chain that is a group member. -/
def Chain.snapshotForMember (now : Int) (chainID : String) :
    Option Chain → Except String (TaskMessage × EnqueueOptions)
  | none => throw "chronos: nil chain member"
  | some ch =>
    match ch.stages with
    | [] => throw "chronos: empty chain member"
    | .parallel _ :: _ => throw errNestedGroup
    | .single args opts :: stages => do
      refuseIf (stages.any ChainStage.isGroup) errNestedGroup
      let tail ← ch.snapshotTail now
      let o ← about "chain member link 0" (resolveChainOptions now opts)
      refuseIf o.noArchive errDiscardInMember
      refuseIf (tail.any ChainLink.noArchive) errDiscardInMember
      let payload ← about "chain member link 0" (encodeArgs args)
      return ({
        id := linkID chainID 0, kind := args.kind, payload := payload, queue := o.queue
        maxRetry := o.maxRetry, retention := o.retention.tdiv second
        chain := tail, chainID := chainID, chainIndex := 0 }, o)

/-- The delays of a member chain, added up in `time.Duration` arithmetic. -/
def chainMemberDelay (now : Int) (msg : TaskMessage) (o : EnqueueOptions) : Int :=
  msg.chain.foldl
    (fun sum l => if 0 < l.delay then wrap64 (sum + wrap64 (l.delay * second)) else sum)
    ((o.processAt.map (timeUntil now)).getD 0)

/-- The checks on member `i` of a group of `n`, and its first task. -/
def snapshotMember (now : Int) (groupID : String) (cbLink : ChainLink) (n i : Nat) :
    GroupMember → Except String (TaskMessage × EnqueueOptions)
  | .chain ch => about ("group member " ++ toString i) do
    let (msg, o) ← Chain.snapshotForMember now (memberID groupID i) ch
    refuseIf (Slot.groupTTL < chainMemberDelay now msg o)
      "chain link delays exceed the group TTL (168h0m0s)"
    return ({ msg with
      groupID := groupID, groupQueue := cbLink.queue, groupCallback := some cbLink
      groupIndex := i, groupSize := n, groupMemberID := memberID groupID i }, o)
  | .single args opts => about ("group member " ++ toString i) do
    let o ← resolveChainOptions now opts
    refuseIf o.noArchive
      "WithDeadLetterDiscard would strand the group (no dead-letter left to re-run)"
    refuseIf (Slot.groupTTL < (o.processAt.map (timeUntil now)).getD 0)
      "WithProcessIn/WithProcessAt exceeds the group TTL (168h0m0s)"
    let payload ← encodeArgs args
    return ({
      id := memberID groupID i, kind := args.kind, payload := payload, queue := o.queue
      maxRetry := o.maxRetry, retention := o.retention.tdiv second
      groupID := groupID, groupQueue := cbLink.queue, groupCallback := some cbLink
      groupIndex := i, groupSize := n }, o)

/-- `Group.Enqueue`: the requests that start the group, if its checks pass. -/
def Group.enqueue (now : Int) (groupID : String) (g : Group) : Except String (List Op) :=
  if g.members = [] then throw "chronos: group needs at least one member"
  else
    match g.callback with
    | none => throw "chronos: group needs a callback (OnComplete)"
    | some (args, opts) => do
      let cbLink ← about "group callback" (snapshotChainLink now args opts true)
      let pending ← snapshotEach (snapshotMember now groupID cbLink g.members.length) 0 g.members
      return .createGroup cbLink.queue groupID
          ((List.range g.members.length).map (memberID groupID)) ::
        pending.map fun p => dispatchMessage now p.1 p.2

end ChronosGo
