import ChronosGo.Builders

/-! # The tasks of a workflow

A workflow is never stored as a whole: each message carries what is left of it,
and the next task is built from the message of the last one.  Everything in a
message but its state, its attempts and its results is settled when the workflow
is built.  That part, `TaskMessage.static`, is the task the message is for, and a
`Workflow` is the set of all its tasks: it contains, with a task, every task that
the server or the group script builds from it.

`chainWorkflow` and `groupWorkflow` are the workflows of a chain and of a group.
Their tasks have identifiers that tell them apart.
-/
namespace ChronosGo

variable {m p p' : TaskMessage} {link : ChainLink} {c g : String} {rest tail : List ChainLink}
  {j : Nat} {opts : List TaskOption} {o : EnqueueOptions} {ch : Chain}

/-! ## Messages and the tasks they are for -/

/-- The message without its state, its attempts and its results. -/
def TaskMessage.static (m : TaskMessage) : TaskMessage :=
  { m with
    state := .pending, retried := 0, lastErr := "", completedAt := 0, result := [], prevResult := []
    groupResults := [] }

/-- The message without its successors, as a retained copy is stored. -/
def TaskMessage.cleared (m : TaskMessage) : TaskMessage := { m with chain := [] }

@[simp] theorem static_withResult (m : TaskMessage) (r : Option Bytes) :
    (withResult m r).static = m.static := by
  cases r <;> rfl

/-- A successor is built from what is static. -/
theorem static_nextLink (h : m.static = p) (rest : List ChainLink) :
    (nextLink m link rest).static = (nextLink p link rest).static := by
  subst h
  rfl

theorem static_stageMember (h : m.static = p) (rest : List ChainLink) (j : Nat)
    (gm : GroupMemberLink) :
    (stageMember m link rest j gm).static = (stageMember p link rest j gm).static := by
  subst h
  rfl

/-- A callback is built from what is static, with or without successors. -/
theorem static_groupCallback (link : ChainLink) (h : m.static = p ∨ m.static = p.cleared) :
    (groupCallbackMessage m link).static = (groupCallbackMessage p link).static := by
  have hm : (groupCallbackMessage m link).static = (groupCallbackMessage m.static link).static :=
    rfl
  rw [hm]
  rcases h with h | h
  · rw [h]
  · rw [h]
    rfl

/-- The tasks of a workflow. -/
structure Workflow where
  /-- What all its identifiers begin with. -/
  root : String
  Task : TaskMessage → Prop
  static : ∀ {p}, Task p → p.static = p
  unique : ∀ {p p'}, Task p → Task p' → p.id = p'.id → p = p'
  under : ∀ {p}, Task p → Under root p.id
  underChain : ∀ {p}, Task p → p.chain ≠ [] → Under root p.chainID
  underGroup : ∀ {p}, Task p → p.groupID ≠ "" → Under root p.groupID
  named : ∀ {p}, Task p → p.groupCallback ≠ none → p.groupID ≠ ""
  /-- Only a task that nothing follows may be discarded. -/
  last : ∀ {p}, Task p → p.noArchive = true → p.chain = [] ∧ p.groupID = ""
  link : ∀ {p link rest}, Task p → p.chain = link :: rest → link.group = [] →
    Task (nextLink p link rest).static
  member : ∀ {p link rest j gm}, Task p → p.chain = link :: rest → link.group[j]? = some gm →
    Task (stageMember p link rest j gm).static
  callback : ∀ {p link}, Task p → p.groupCallback = some link →
    Task (groupCallbackMessage p link).static

/-! ## Other tasks -/

/-- A message with which no identifier that begins with `c` can be built. -/
structure Foreign (c : String) (m : TaskMessage) : Prop where
  id : Apart c m.id
  chain : m.chain ≠ [] → Apart c m.chainID
  group : m.groupID ≠ "" ∨ m.groupCallback ≠ none → Apart c m.groupID
  callbackChain : m.groupCallbackChain ≠ [] → Apart c m.chainID

namespace Foreign
variable {m' : TaskMessage}

theorem of_static (h : Foreign c m) (hs : m'.static = m.static ∨ m'.static = m.static.cleared) :
    Foreign c m' := by
  have h' : Foreign c m'.static := by
    rcases hs with hs | hs <;> rw [hs]
    · exact ⟨h.id, h.chain, h.group, h.callbackChain⟩
    · exact ⟨h.id, fun hne => absurd rfl hne, h.group, h.callbackChain⟩
  exact ⟨h'.id, h'.chain, h'.group, h'.callbackChain⟩

theorem stamp (h : Foreign c m) (key : String) (st : TaskState) :
    Foreign c { m with uniqueKey := key, state := st } :=
  ⟨h.id, h.chain, h.group, h.callbackChain⟩

theorem nextLink (h : Foreign c m) (hc : m.chain = link :: rest) :
    Foreign c (nextLink m link rest) where
  id := (h.chain (by simp [hc])).linkID _
  chain := fun _ => h.chain (by simp [hc])
  group := h.group
  callbackChain := fun hne => absurd rfl hne

theorem stageMember (h : Foreign c m) (hc : m.chain = link :: rest) (j : Nat)
    (gm : GroupMemberLink) : Foreign c (stageMember m link rest j gm) where
  id := ((h.chain (by simp [hc])).linkID _).memberID j
  chain := fun hne => absurd rfl hne
  group := fun _ => (h.chain (by simp [hc])).linkID _
  callbackChain := fun _ => h.chain (by simp [hc])

theorem callback (h : Foreign c m) (hc : m.groupCallback = some link) :
    Foreign c (groupCallbackMessage m link) where
  id := (h.group (Or.inr (by simp [hc]))).callbackID
  chain := fun hne => by
    have hne' : m.groupCallbackChain ≠ [] := hne
    simpa [groupCallbackMessage, hne'] using h.callbackChain hne'
  group := fun hne => by simp [groupCallbackMessage] at hne
  callbackChain := fun hne => absurd rfl hne

end Foreign

/-! ## Positions -/

/-- The place of a task in a chain or a group. -/
inductive Position where
  | link (i : Nat)
  | stageMember (i j : Nat)
  | stageCallback (i : Nat)
  | member (j : Nat)
  | memberLink (j i : Nat)
  | callback
deriving DecidableEq, Repr

namespace Position
variable {root root' : String} {p p' : Position}

/-- The identifier of a position in the workflow `root`. -/
def id (root : String) : Position → String
  | .link i => linkID root i
  | stageMember i j => memberID (linkID root i) j
  | stageCallback i => callbackID (linkID root i)
  | member j => memberID root j
  | memberLink j i => linkID (memberID root j) i
  | callback => callbackID root

/-- Whether the position is one of a chain, and not of a group. -/
def inChain : Position → Bool
  | .link _ | stageMember .. | stageCallback _ => true
  | member _ | memberLink .. | callback => false

/-- The member of a group that a position belongs to, and the place in its chain. -/
def place : Position → Option (Nat × Nat)
  | member j => some (j, 0)
  | memberLink j i => some (j, i)
  | .link _ | stageMember .. | stageCallback _ | callback => none

theorem colon_mem_linkID (c : String) (i : Nat) : ':' ∈ (linkID c i).toList := by
  rw [toList_linkID]
  exact List.mem_append_right _ List.mem_cons_self

theorem colon_mem_memberID (g : String) (j : Nat) : ':' ∈ (memberID g j).toList := by
  rw [toList_memberID]
  exact List.mem_append_right _ List.mem_cons_self

/-- **Different positions have different identifiers**, in one workflow and in two.  A chain
and a group are told apart by their roots having no colons. -/
theorem id_inj (hr : p.inChain ≠ p'.inChain → ':' ∉ root.toList ∧ ':' ∉ root'.toList)
    (h : p.id root = p'.id root') : root = root' ∧ p = p' := by
  cases p with
  | link i =>
    cases p' with
    | link i' =>
      obtain ⟨hroot, hi⟩ := linkID_inj h
      exact ⟨hroot, congrArg Position.link hi⟩
    | memberLink j' i' => exact absurd ((linkID_inj h).1 ▸ colon_mem_memberID _ _) (hr nofun).1
    | stageMember | member => exact absurd h (linkID_ne_memberID _ _ _ _)
    | stageCallback | callback => exact absurd h (linkID_ne_callbackID _ _ _)
  | stageMember i j =>
    cases p' with
    | stageMember i' j' =>
      obtain ⟨hstage, hj⟩ := memberID_inj h
      obtain ⟨hroot, hi⟩ := linkID_inj hstage
      exact ⟨hroot, by rw [hi, hj]⟩
    | member j' => exact absurd ((memberID_inj h).1 ▸ colon_mem_linkID _ _) (hr nofun).2
    | link | memberLink => exact absurd h.symm (linkID_ne_memberID _ _ _ _)
    | stageCallback | callback => exact absurd h (memberID_ne_callbackID _ _ _)
  | stageCallback i =>
    cases p' with
    | stageCallback i' =>
      obtain ⟨hroot, hi⟩ := linkID_inj (callbackID_inj h)
      exact ⟨hroot, congrArg stageCallback hi⟩
    | callback => exact absurd (callbackID_inj h ▸ colon_mem_linkID _ _) (hr nofun).2
    | link | memberLink => exact absurd h.symm (linkID_ne_callbackID _ _ _)
    | stageMember | member => exact absurd h.symm (memberID_ne_callbackID _ _ _)
  | member j =>
    cases p' with
    | member j' =>
      obtain ⟨hroot, hj⟩ := memberID_inj h
      exact ⟨hroot, congrArg member hj⟩
    | stageMember i' j' => exact absurd ((memberID_inj h).1 ▸ colon_mem_linkID _ _) (hr nofun).1
    | link | memberLink => exact absurd h.symm (linkID_ne_memberID _ _ _ _)
    | stageCallback | callback => exact absurd h (memberID_ne_callbackID _ _ _)
  | memberLink j i =>
    cases p' with
    | memberLink j' i' =>
      obtain ⟨hmember, hi⟩ := linkID_inj h
      obtain ⟨hroot, hj⟩ := memberID_inj hmember
      exact ⟨hroot, by rw [hi, hj]⟩
    | link i' => exact absurd ((linkID_inj h).1 ▸ colon_mem_memberID _ _) (hr nofun).2
    | stageMember | member => exact absurd h (linkID_ne_memberID _ _ _ _)
    | stageCallback | callback => exact absurd h (linkID_ne_callbackID _ _ _)
  | callback =>
    cases p' with
    | callback => exact ⟨callbackID_inj h, rfl⟩
    | stageCallback i' => exact absurd (callbackID_inj h ▸ colon_mem_linkID _ _) (hr nofun).1
    | link | memberLink => exact absurd h.symm (linkID_ne_callbackID _ _ _)
    | stageMember | member => exact absurd h.symm (memberID_ne_callbackID _ _ _)

theorem under (p : Position) : Under root (p.id root) := by
  cases p with
  | link i => exact (Under.refl _).linkID i
  | stageMember i j => exact ((Under.refl _).linkID i).memberID j
  | stageCallback i => exact ((Under.refl _).linkID i).callbackID
  | member j => exact (Under.refl _).memberID j
  | memberLink j i => exact ((Under.refl _).memberID j).linkID i
  | callback => exact (Under.refl _).callbackID

end Position

/-! ## Chains -/

/-- A single link of a chain. -/
def linkTask (c : String) (i : Nat) (link : ChainLink) (rest : List ChainLink) : TaskMessage where
  id := linkID c i
  kind := link.kind
  payload := link.payload
  queue := link.queue
  maxRetry := link.maxRetry
  noArchive := link.noArchive
  retention := link.retention
  chain := rest
  chainID := c
  chainIndex := i

/-- A member of a parallel stage. -/
def memberTask (c : String) (i : Nat) (link : ChainLink) (rest : List ChainLink) (j : Nat)
    (gm : GroupMemberLink) : TaskMessage where
  id := memberID (linkID c i) j
  kind := gm.kind
  payload := gm.payload
  queue := gm.queue
  maxRetry := gm.maxRetry
  retention := gm.retention
  groupID := linkID c i
  groupQueue := link.queue
  groupCallback := some (callbackLink link)
  groupIndex := j
  groupSize := link.group.length
  groupCallbackChain := rest
  chainID := c
  chainIndex := i

/-- The callback of a parallel stage. -/
def callbackTask (c : String) (i : Nat) (link : ChainLink) (rest : List ChainLink) :
    TaskMessage where
  id := callbackID (linkID c i)
  kind := link.kind
  payload := link.payload
  queue := link.queue
  maxRetry := link.maxRetry
  noArchive := link.noArchive
  retention := link.retention
  chain := rest
  chainID := if rest ≠ [] then c else ""
  chainIndex := if rest ≠ [] then i else 0

/-- The first link of a chain that was accepted.  Only the last link may be
discarded. -/
structure FirstLink (m : TaskMessage) : Prop where
  plain : m = {
    id := linkID m.chainID 0, kind := m.kind, payload := m.payload, queue := m.queue
    maxRetry := m.maxRetry, noArchive := m.noArchive, retention := m.retention, chain := m.chain
    chainID := m.chainID }
  kept : m.chain ≠ [] → m.noArchive = false
  tailKept : ∀ i link, m.chain[i]? = some link → i + 1 < m.chain.length → link.noArchive = false

/-- The tasks of the chain that starts with `m`. -/
inductive ChainTask (m : TaskMessage) : TaskMessage → Prop where
  | first : ChainTask m m
  | link {i : Nat} {link : ChainLink} (hi : m.chain[i]? = some link) (hg : link.group = []) :
      ChainTask m (linkTask m.chainID (i + 1) link (m.chain.drop (i + 1)))
  | member {i j : Nat} {link : ChainLink} {gm : GroupMemberLink} (hi : m.chain[i]? = some link)
      (hj : link.group[j]? = some gm) :
      ChainTask m (memberTask m.chainID (i + 1) link (m.chain.drop (i + 1)) j gm)
  | callback {i : Nat} {link : ChainLink} (hi : m.chain[i]? = some link) (hg : link.group ≠ []) :
      ChainTask m (callbackTask m.chainID (i + 1) link (m.chain.drop (i + 1)))

/-- The tasks of the chain that starts with `m`, by position. -/
inductive ChainAt (m : TaskMessage) : Position → TaskMessage → Prop where
  | first : ChainAt m (.link 0) m
  | link {i : Nat} {l : ChainLink} (hi : m.chain[i]? = some l) (hg : l.group = []) :
      ChainAt m (.link (i + 1)) (linkTask m.chainID (i + 1) l (m.chain.drop (i + 1)))
  | member {i j : Nat} {l : ChainLink} {gm : GroupMemberLink} (hi : m.chain[i]? = some l)
      (hj : l.group[j]? = some gm) : ChainAt m (.stageMember (i + 1) j)
        (memberTask m.chainID (i + 1) l (m.chain.drop (i + 1)) j gm)
  | callback {i : Nat} {l : ChainLink} (hi : m.chain[i]? = some l) (hg : l.group ≠ []) :
      ChainAt m (.stageCallback (i + 1)) (callbackTask m.chainID (i + 1) l (m.chain.drop (i + 1)))

namespace ChainAt
variable {p p' : Position} {t t' : TaskMessage}

theorem task (h : ChainAt m p t) : ChainTask m t := by
  cases h with
  | first => exact .first
  | link hi hg => exact .link hi hg
  | member hi hj => exact .member hi hj
  | callback hi hg => exact .callback hi hg

theorem id (hm : FirstLink m) (h : ChainAt m p t) : t.id = p.id m.chainID := by
  cases h with
  | first => rw [hm.plain]; rfl
  | _ => rfl

theorem unique (h : ChainAt m p t) (h' : ChainAt m p t') : t = t' := by
  cases h with
  | first => cases h' with
    | first => rfl
  | link hi => cases h' with
    | link hi' =>
      cases hi.symm.trans hi'
      rfl
  | member hi hj => cases h' with
    | member hi' hj' =>
      cases hi.symm.trans hi'
      cases hj.symm.trans hj'
      rfl
  | callback hi => cases h' with
    | callback hi' =>
      cases hi.symm.trans hi'
      rfl

theorem inChain (h : ChainAt m p t) : p.inChain = true := by
  cases h <;> rfl

end ChainAt

theorem ChainTask.exists_at (hp : ChainTask m p) : ∃ pos, ChainAt m pos p := by
  cases hp with
  | first => exact ⟨_, .first⟩
  | link hi hg => exact ⟨_, .link hi hg⟩
  | member hi hj => exact ⟨_, .member hi hj⟩
  | callback hi hg => exact ⟨_, .callback hi hg⟩

theorem drop_eq_cons {α : Type} {l rest : List α} {a : α} {i : Nat} (h : l.drop i = a :: rest) :
    l[i]? = some a ∧ rest = l.drop (i + 1) := by
  refine ⟨?_, ?_⟩
  · rw [← List.head?_drop, h]
    rfl
  · rw [← List.tail_drop, h]
    rfl

section
variable (hm : FirstLink m) (hp : ChainTask m p)
include hm hp

/-- A task with successors is on the chain itself: the links after it are the rest
of the chain. -/
theorem ChainTask.successor (hc : p.chain = link :: rest) :
    ∃ i, m.chain[i]? = some link ∧
      rest = m.chain.drop (i + 1) ∧ p.chainID = m.chainID ∧ p.chainIndex = i ∧
      p = { id := p.id, kind := p.kind, payload := p.payload, queue := p.queue
            maxRetry := p.maxRetry, noArchive := p.noArchive, retention := p.retention
            chain := p.chain, chainID := p.chainID, chainIndex := p.chainIndex } := by
  cases hp with
  | first =>
    obtain ⟨hi, hrest⟩ := drop_eq_cons (i := 0) (l := m.chain) hc
    have hplain := hm.plain
    refine ⟨0, hi, hrest, rfl, ?_, ?_⟩
    · rw [hplain]
    · rw [hplain]
  | link =>
    obtain ⟨hi', hrest⟩ := drop_eq_cons hc
    exact ⟨_, hi', hrest, rfl, rfl, rfl⟩
  | member => cases hc
  | @callback i l hi hg =>
    have hne : m.chain.drop (i + 1) ≠ [] := by
      intro hnil
      have hc' : m.chain.drop (i + 1) = link :: rest := hc
      rw [hnil] at hc'
      cases hc'
    obtain ⟨hi', hrest⟩ := drop_eq_cons (l := m.chain) (i := i + 1) hc
    refine ⟨i + 1, hi', hrest, if_pos hne, if_pos hne, rfl⟩

/-- Only members of parallel stages report to a group. -/
theorem ChainTask.reporter (hc : p.groupCallback = some link) : ∃ i j l gm, m.chain[i]? = some l ∧
      l.group[j]? = some gm ∧ link = callbackLink l ∧
      p = memberTask m.chainID (i + 1) l (m.chain.drop (i + 1)) j gm := by
  cases hp with
  | first =>
    rw [hm.plain] at hc
    cases hc
  | link => cases hc
  | member hi hj => exact ⟨_, _, _, _, hi, hj, (Option.some.inj hc).symm, rfl⟩
  | callback => cases hc

theorem ChainTask.static : p.static = p := by
  cases hp with
  | first =>
    rw [hm.plain]
    rfl
  | _ => rfl

/-- A task of the chain is determined by its identifier. -/
theorem ChainTask.unique (hp' : ChainTask m p') (hid : p.id = p'.id) : p = p' := by
  obtain ⟨pos, h⟩ := hp.exists_at
  obtain ⟨pos', h'⟩ := hp'.exists_at
  have heq : pos.id m.chainID = pos'.id m.chainID := (h.id hm).symm.trans (hid.trans (h'.id hm))
  obtain rfl := (Position.id_inj (fun hne => absurd (h.inChain.trans h'.inChain.symm) hne) heq).2
  exact h.unique h'

theorem ChainTask.under : Under m.chainID p.id := by
  obtain ⟨pos, h⟩ := hp.exists_at
  exact h.id hm ▸ pos.under

theorem ChainTask.underGroup (hne : p.groupID ≠ "") :
    Under m.chainID p.groupID := by
  cases hp with
  | first =>
    rw [hm.plain] at hne
    exact absurd rfl hne
  | link => exact absurd rfl hne
  | member => exact (Under.refl _).linkID _
  | callback => exact absurd rfl hne

/-- Only the last task of a chain may be discarded. -/
theorem ChainTask.last_of_noArchive (hn : p.noArchive = true) : p.chain = [] ∧ p.groupID = "" := by
  have hdrop : ∀ {i link}, m.chain[i]? = some link → link.noArchive = true →
      m.chain.drop (i + 1) = [] := by
    intro i link hi hl
    by_contra hne
    have hlen : i + 1 < m.chain.length := by
      by_contra hge
      exact hne (List.drop_eq_nil_of_le (by omega))
    rw [hm.tailKept i link hi hlen] at hl
    cases hl
  cases hp with
  | first =>
    refine ⟨?_, by rw [hm.plain]⟩
    by_contra hne
    rw [hm.kept hne] at hn
    cases hn
  | link hi => exact ⟨hdrop hi hn, rfl⟩
  | member => cases hn
  | callback hi => exact ⟨hdrop hi hn, rfl⟩

end

/-- **The workflow of a chain.** -/
def chainWorkflow (m : TaskMessage) (hm : FirstLink m) : Workflow where
  root := m.chainID
  Task := ChainTask m
  static := ChainTask.static hm
  unique := ChainTask.unique hm
  under := ChainTask.under hm
  underChain := fun hp hne => by
    obtain ⟨link, rest, hc⟩ := List.exists_cons_of_ne_nil hne
    obtain ⟨i, -, -, hid, -⟩ := hp.successor hm hc
    exact hid ▸ Under.refl _
  underGroup := ChainTask.underGroup hm
  named := fun hp hne => by
    obtain ⟨link, hc⟩ := Option.ne_none_iff_exists'.mp hne
    obtain ⟨i, j, l, gm, -, -, -, rfl⟩ := hp.reporter hm hc
    exact linkID_ne_empty _ _
  last := ChainTask.last_of_noArchive hm
  link := by
    intro p link rest hp hc hg
    obtain ⟨i, hi, rfl, hid, hidx, hplain⟩ := hp.successor hm hc
    have h := ChainTask.link hi hg
    rw [hplain]
    simpa only [nextLink, TaskMessage.static, linkTask, hid, hidx] using h
  member := by
    intro p link rest j gm hp hc hj
    obtain ⟨i, hi, rfl, hid, hidx, -⟩ := hp.successor hm hc
    have h := ChainTask.member hi hj
    simpa only [stageMember, stageID, TaskMessage.static, memberTask, hid, hidx] using h
  callback := by
    intro p link hp hc
    obtain ⟨i, j, l, gm, hi, hj, rfl, rfl⟩ := hp.reporter hm hc
    have h := ChainTask.callback hi (List.ne_nil_of_mem (List.mem_of_getElem? hj))
    exact h

/-! ## Groups -/

/-- The first task of member `j` in a group of `n`: a flat member's only task, or the
first link of its chain. -/
inductive FirstMember (g : String) (cb : ChainLink) (n j : Nat) : TaskMessage → Prop where
  | flat (kind : String) (payload : Bytes) (queue : String) (maxRetry : Nat) (retention : Int) :
      FirstMember g cb n j {
        id := memberID g j, kind := kind, payload := payload, queue := queue, maxRetry := maxRetry
        retention := retention, groupID := g, groupQueue := cb.queue, groupCallback := some cb
        groupIndex := j, groupSize := n }
  | chain (kind : String) (payload : Bytes) (queue : String) (maxRetry : Nat) (retention : Int)
      (tail : List ChainLink) (ht : ∀ link ∈ tail, link.group = [] ∧ link.noArchive = false) :
      FirstMember g cb n j {
        id := linkID (memberID g j) 0, kind := kind, payload := payload, queue := queue
        maxRetry := maxRetry, retention := retention, chain := tail, chainID := memberID g j
        groupID := g, groupQueue := cb.queue, groupCallback := some cb, groupIndex := j
        groupSize := n, groupMemberID := memberID g j }

/-- A group that was accepted: its callback and the first tasks of its members. -/
structure GroupStart (g : String) (cb : ChainLink) (ms : List TaskMessage) : Prop where
  named : g ≠ ""
  nonempty : ms ≠ []
  single : cb.group = []
  member : ∀ j m, ms[j]? = some m → FirstMember g cb ms.length j m

/-- A later link of a member chain. -/
def memberLink (g : String) (cb : ChainLink) (n j i : Nat) (link : ChainLink)
    (rest : List ChainLink) : TaskMessage :=
  { linkTask (memberID g j) i link rest with
    groupID := g, groupQueue := cb.queue, groupCallback := some cb, groupIndex := j, groupSize := n
    groupMemberID := memberID g j }

/-- The callback of a group. -/
def groupCallbackTask (g : String) (cb : ChainLink) : TaskMessage where
  id := callbackID g
  kind := cb.kind
  payload := cb.payload
  queue := cb.queue
  maxRetry := cb.maxRetry
  noArchive := cb.noArchive
  retention := cb.retention

/-- The tasks of a group. -/
inductive GroupTask (g : String) (cb : ChainLink) (ms : List TaskMessage) : TaskMessage → Prop where
  | first {j : Nat} {m : TaskMessage} (hj : ms[j]? = some m) : GroupTask g cb ms m
  | link {i j : Nat} {m : TaskMessage} {link : ChainLink} (hj : ms[j]? = some m)
      (hi : m.chain[i]? = some link) :
      GroupTask g cb ms (memberLink g cb ms.length j (i + 1) link (m.chain.drop (i + 1)))
  | callback : GroupTask g cb ms (groupCallbackTask g cb)

section GroupTask
variable {cb : ChainLink} {ms : List TaskMessage}

/-- What all tasks of member `j` of a group of `n` say about their group. -/
structure InMember (g : String) (cb : ChainLink) (n j : Nat) (m : TaskMessage) : Prop where
  groupID : m.groupID = g
  groupQueue : m.groupQueue = cb.queue
  groupCallback : m.groupCallback = some cb
  groupIndex : m.groupIndex = j
  groupSize : m.groupSize = n
  callbackChain : m.groupCallbackChain = []
  slot : memberSlot m = memberID g j

theorem FirstMember.inMember {n : Nat} (h : FirstMember g cb n j m) : InMember g cb n j m := by
  cases h with
  | flat => exact ⟨rfl, rfl, rfl, rfl, rfl, rfl, rfl⟩
  | chain => exact ⟨rfl, rfl, rfl, rfl, rfl, rfl, if_neg (memberID_ne_empty g j)⟩

/-- The callback that they ask for. -/
theorem InMember.static_callback {n : Nat} (h : InMember g cb n j m) :
    (groupCallbackMessage m cb).static = groupCallbackTask g cb := by
  simp [groupCallbackMessage, TaskMessage.static, groupCallbackTask, h.groupID, h.callbackChain]

/-- What the tasks of a member have in common, and the links after one of them. -/
theorem GroupTask.cases (hs : GroupStart g cb ms) (hp : GroupTask g cb ms p) :
    p = groupCallbackTask g cb ∨ ∃ j m, ms[j]? = some m ∧ InMember g cb ms.length j p ∧
      p.noArchive = false ∧ ((p = m ∧ p.chain = []) ∨
        (p.groupMemberID = memberID g j ∧ p.chainID = memberID g j ∧
        p.id = linkID (memberID g j) p.chainIndex ∧ p.chain = m.chain.drop p.chainIndex ∧
        (p.chainIndex = 0 → p = m) ∧ ∀ link ∈ m.chain, link.group = [])) := by
  cases hp with
  | @first j m hj =>
    have hm := hs.member j p hj
    refine Or.inr ⟨j, p, hj, hm.inMember, ?_⟩
    cases hm with
    | flat => exact ⟨rfl, Or.inl ⟨rfl, rfl⟩⟩
    | chain kind payload queue maxRetry retention tail ht =>
      exact ⟨rfl, Or.inr ⟨rfl, rfl, rfl, rfl, fun _ => rfl, fun link hl => (ht link hl).1⟩⟩
  | @link i j m l hj hi =>
    refine Or.inr ⟨j, m, hj,
      ⟨rfl, rfl, rfl, rfl, rfl, rfl, if_neg (memberID_ne_empty g j)⟩, ?_⟩
    cases hs.member j m hj with
    | flat => cases hi
    | chain kind payload queue maxRetry retention tail ht =>
      exact ⟨(ht l (List.mem_of_getElem? hi)).2,
        Or.inr ⟨rfl, rfl, rfl, rfl, fun h => (nomatch h), fun link hl => (ht link hl).1⟩⟩
  | callback => exact Or.inl rfl

theorem GroupTask.static (hs : GroupStart g cb ms) (hp : GroupTask g cb ms p) : p.static = p := by
  cases hp with
  | @first j m hj => cases hs.member j p hj <;> rfl
  | _ => rfl

/-- The identifier of a member's first task. -/
theorem FirstMember.id {n : Nat} (h : FirstMember g cb n j m) :
    m.id = memberID g j ∨ m.id = linkID (memberID g j) 0 := by
  cases h with
  | flat => exact Or.inl rfl
  | chain => exact Or.inr rfl

/-- The tasks of the group `g` whose members start with `ms`, by position. -/
inductive GroupAt (g : String) (cb : ChainLink) (ms : List TaskMessage) :
    Position → TaskMessage → Prop where
  | flat {j : Nat} {m : TaskMessage} (hj : ms[j]? = some m) (hid : m.id = memberID g j) :
      GroupAt g cb ms (.member j) m
  | first {j : Nat} {m : TaskMessage} (hj : ms[j]? = some m)
      (hid : m.id = linkID (memberID g j) 0) :
      GroupAt g cb ms (.memberLink j 0) m
  | link {i j : Nat} {m : TaskMessage} {l : ChainLink} (hj : ms[j]? = some m)
      (hi : m.chain[i]? = some l) : GroupAt g cb ms (.memberLink j (i + 1))
        (memberLink g cb ms.length j (i + 1) l (m.chain.drop (i + 1)))
  | callback : GroupAt g cb ms .callback (groupCallbackTask g cb)

namespace GroupAt
variable {p p' : Position} {t t' : TaskMessage}

theorem task (h : GroupAt g cb ms p t) : GroupTask g cb ms t := by
  cases h with
  | flat hj | first hj => exact .first hj
  | link hj hi => exact .link hj hi
  | callback => exact .callback

theorem id (h : GroupAt g cb ms p t) : t.id = p.id g := by
  cases h with
  | flat _ hid | first _ hid => exact hid
  | _ => rfl

theorem unique (h : GroupAt g cb ms p t) (h' : GroupAt g cb ms p t') : t = t' := by
  cases h with
  | flat hj => cases h' with
    | flat hj' => exact Option.some.inj (hj.symm.trans hj')
  | first hj => cases h' with
    | first hj' => exact Option.some.inj (hj.symm.trans hj')
  | link hj hi => cases h' with
    | link hj' hi' =>
      cases hj.symm.trans hj'
      cases hi.symm.trans hi'
      rfl
  | callback => cases h' with
    | callback => rfl

theorem inChain (h : GroupAt g cb ms p t) : p.inChain = false := by
  cases h <;> rfl

end GroupAt

theorem GroupTask.exists_at (hs : GroupStart g cb ms) (hp : GroupTask g cb ms p) :
    ∃ pos, GroupAt g cb ms pos p := by
  cases hp with
  | @first j m hj =>
    rcases (hs.member j p hj).id with h | h
    · exact ⟨_, .flat hj h⟩
    · exact ⟨_, .first hj h⟩
  | link hj hi => exact ⟨_, .link hj hi⟩
  | callback => exact ⟨_, .callback⟩

/-- A task of the group is determined by its identifier. -/
theorem GroupTask.unique (hs : GroupStart g cb ms) (hp : GroupTask g cb ms p)
    (hp' : GroupTask g cb ms p') (hid : p.id = p'.id) : p = p' := by
  obtain ⟨pos, h⟩ := hp.exists_at hs
  obtain ⟨pos', h'⟩ := hp'.exists_at hs
  have heq : pos.id g = pos'.id g := h.id.symm.trans (hid.trans h'.id)
  obtain rfl := (Position.id_inj (fun hne => absurd (h.inChain.trans h'.inChain.symm) hne) heq).2
  exact h.unique h'

theorem GroupTask.under (hs : GroupStart g cb ms) (hp : GroupTask g cb ms p) : Under g p.id := by
  obtain ⟨pos, h⟩ := hp.exists_at hs
  exact h.id ▸ pos.under

/-- The task after a link of a member chain. -/
theorem GroupTask.next (hs : GroupStart g cb ms) (hp : GroupTask g cb ms p)
    (hc : p.chain = link :: rest) : link.group = [] ∧
      GroupTask g cb ms (nextLink p link rest).static := by
  rcases hp.cases hs with rfl | ⟨j, m, hj, hin, -, ⟨-, hnil⟩ | ⟨hmid, hcid, -, hch, -, hgr⟩⟩
  · cases hc
  · rw [hnil] at hc
    cases hc
  · rw [hch] at hc
    obtain ⟨hi, rfl⟩ := drop_eq_cons hc
    have h : GroupTask g cb ms _ := GroupTask.link hj hi
    refine ⟨hgr link (List.mem_of_getElem? hi), ?_⟩
    simpa only [nextLink, TaskMessage.static, memberLink, linkTask, hcid, hin.groupID,
      hin.groupQueue, hin.groupCallback, hin.groupIndex, hin.groupSize, hmid] using h

end GroupTask

/-- **The workflow of a group.** -/
def groupWorkflow (g : String) (cb : ChainLink) (ms : List TaskMessage)
    (hs : GroupStart g cb ms) : Workflow where
  root := g
  Task := GroupTask g cb ms
  static := GroupTask.static hs
  unique := GroupTask.unique hs
  under := GroupTask.under hs
  underChain := fun hp hne => by
    rcases hp.cases hs with rfl | ⟨j, m, -, -, -, ⟨-, hnil⟩ | ⟨-, hid, -⟩⟩
    · exact absurd rfl hne
    · exact absurd hnil hne
    · exact hid ▸ (Under.refl _).memberID j
  underGroup := fun hp hne => by
    rcases hp.cases hs with rfl | ⟨j, m, -, hin, -⟩
    · exact absurd rfl hne
    · exact hin.groupID ▸ Under.refl _
  named := fun hp hne => by
    rcases hp.cases hs with rfl | ⟨j, m, -, hin, -⟩
    · exact absurd rfl hne
    · exact hin.groupID ▸ hs.named
  last := fun hp hn => by
    rcases hp.cases hs with rfl | ⟨j, m, -, -, hkept, -⟩
    · exact ⟨rfl, rfl⟩
    · rw [hkept] at hn
      cases hn
  link := fun hp hc _ => (hp.next hs hc).2
  member := by
    intro p link rest j gm hp hc hj
    rw [(hp.next hs hc).1] at hj
    cases hj
  callback := by
    intro p link hp hc
    rcases hp.cases hs with rfl | ⟨j, m, -, hin, -⟩
    · cases hc
    · obtain rfl := Option.some.inj (hin.groupCallback.symm.trans hc)
      rw [hin.static_callback]
      exact .callback

/-! ## What the builders accept -/

section Accepted
variable {α β : Type} {now : Int}

theorem bind_ok {x : Except String α} {f : α → Except String β} {b : β}
    (h : (x >>= f) = .ok b) : ∃ a, x = .ok a ∧ f a = .ok b := by
  cases x with
  | error e => cases h
  | ok a => exact ⟨a, rfl, h⟩

theorem about_ok {what : String} {x : Except String α} {a : α} (h : about what x = .ok a) :
    x = .ok a := by
  cases x with
  | error e => cases h
  | ok a => exact h

theorem refuseIf_ok {c : Prop} [Decidable c] {err : String} {u : Unit}
    (h : refuseIf c err = .ok u) : ¬ c := by
  intro hc
  rw [refuseIf, if_pos hc] at h
  cases h

theorem resolveChainOptions_ok (h : resolveChainOptions now opts = .ok o) : ¬ 0 < o.uniqueTTL := by
  obtain ⟨_, -, h⟩ := bind_ok h
  obtain ⟨_, hu, h⟩ := bind_ok h
  cases h
  exact refuseIf_ok hu

/-- A task that is not unique is enqueued or scheduled. -/
theorem dispatchMessage_eq (now : Int) (msg : TaskMessage) (ho : ¬ 0 < o.uniqueTTL) :
    dispatchMessage now msg o = .enqueue msg ∨
      ∃ t, dispatchMessage now msg o = .schedule msg t := by
  unfold dispatchMessage
  simp only [if_neg ho]
  split
  · rename_i t ht
    split
    · exact Or.inr ⟨t, rfl⟩
    · exact Or.inl rfl
  · exact Or.inl rfl

theorem snapshotChainLink_ok {args : TaskArgs} {isLast : Bool}
    (h : snapshotChainLink now args opts isLast = .ok link) :
    link.group = [] ∧ (isLast = false → link.noArchive = false) := by
  obtain ⟨o, -, h⟩ := bind_ok h
  obtain ⟨_, -, h⟩ := bind_ok h
  obtain ⟨_, hn, h⟩ := bind_ok h
  obtain ⟨payload, -, h⟩ := bind_ok h
  cases h
  refine ⟨rfl, fun hl => ?_⟩
  by_contra hne
  exact refuseIf_ok hn ⟨by simpa using hne, hl⟩

theorem snapshotGroupStage_ok {g : Option Group} {i : Nat} {isLast : Bool}
    (h : snapshotGroupStage now g i isLast = .ok link) (hl : isLast = false) :
    link.noArchive = false := by
  unfold snapshotGroupStage at h
  split at h
  · cases h
  · split at h
    · cases h
    · split at h
      · cases h
      · obtain ⟨l, hlink, h⟩ := bind_ok h
        obtain ⟨ms, -, h⟩ := bind_ok h
        cases h
        exact (snapshotChainLink_ok (about_ok hlink)).2 hl

theorem snapshotEach_ok {f : Nat → α → Except String β} {as : List α} {bs : List β}
    (h : snapshotEach f j as = .ok bs) : bs.length = as.length ∧
      ∀ i b, bs[i]? = some b → ∃ a, as[i]? = some a ∧ f (j + i) a = .ok b := by
  induction as generalizing j bs with
  | nil =>
    cases h
    exact ⟨rfl, fun i b hb => by simp at hb⟩
  | cons a as ih =>
    obtain ⟨b, hb, h⟩ := bind_ok h
    obtain ⟨bs', hbs, h⟩ := bind_ok h
    cases h
    obtain ⟨hlen, hall⟩ := ih hbs
    refine ⟨by simp [hlen], fun i b' hb' => ?_⟩
    cases i with
    | zero =>
      cases hb'
      exact ⟨a, rfl, hb⟩
    | succ i =>
      obtain ⟨a', ha', hf⟩ := hall i b' (by simpa using hb')
      exact ⟨a', by simpa using ha', by rwa [Nat.add_comm i 1, ← Nat.add_assoc]⟩

/-- Only the last link of a tail may be discarded. -/
theorem snapshotTail_ok (h : ch.snapshotTail now = .ok tail) : tail.length = ch.stages.length - 1 ∧
      ∀ i link, tail[i]? = some link → i + 1 < tail.length → link.noArchive = false := by
  obtain ⟨hlen, hall⟩ := snapshotEach_ok h
  rw [List.length_drop] at hlen
  refine ⟨hlen, fun i link hi hlt => ?_⟩
  obtain ⟨st, -, hst⟩ := hall i link hi
  have hlast : decide (1 + i + 1 = ch.stages.length) = false := decide_eq_false (by omega)
  cases st with
  | single args opts =>
    rw [snapshotStage, hlast] at hst
    exact (snapshotChainLink_ok (about_ok hst)).2 rfl
  | parallel g =>
    rw [snapshotStage, hlast] at hst
    exact snapshotGroupStage_ok hst rfl

/-- **A chain that is accepted** starts with its first link. -/
theorem Chain.enqueue_ok {op : Op} (h : ch.enqueue now c = .ok op) :
    ∃ m, FirstLink m ∧ m.chainID = c ∧ ch.snapshotTail now = .ok m.chain ∧
      (op = .enqueue m ∨ ∃ t, op = .schedule m t) := by
  unfold Chain.enqueue at h
  split at h
  · cases h
  · cases h
  · rename_i args opts stages hst
    obtain ⟨tail, htail, h⟩ := bind_ok h
    obtain ⟨o, ho, h⟩ := bind_ok h
    obtain ⟨_, hn, h⟩ := bind_ok h
    obtain ⟨payload, -, h⟩ := bind_ok h
    obtain ⟨hlen, hkept⟩ := snapshotTail_ok htail
    cases h
    refine ⟨_, ⟨rfl, fun hne => ?_, hkept⟩, rfl, htail,
      dispatchMessage_eq _ _ (resolveChainOptions_ok (about_ok ho))⟩
    have hne' : stages ≠ [] := by
      rintro rfl
      rw [hst] at hlen
      exact hne (List.length_eq_zero_iff.mp hlen)
    by_contra hno
    exact refuseIf_ok (about_ok hn) ⟨hne', by simpa using hno⟩

/-- The links after the first of a member chain are single tasks. -/
theorem snapshotTail_single {st : ChainStage} {stages : List ChainStage}
    (h : ch.snapshotTail now = .ok tail) (hst : ch.stages = st :: stages)
    (hany : ¬ stages.any ChainStage.isGroup) : ∀ link ∈ tail, link.group = [] := by
  intro link hl
  obtain ⟨i, hi⟩ := List.mem_iff_getElem?.mp hl
  obtain ⟨-, hall⟩ := snapshotEach_ok h
  obtain ⟨st', hst', hf⟩ := hall i link hi
  rw [hst] at hst'
  cases st' with
  | single args opts => exact (snapshotChainLink_ok (about_ok hf)).1
  | parallel g => exact absurd (List.any_eq_true.mpr ⟨_, List.mem_of_getElem? hst', rfl⟩) hany

/-- The last task of member `j`: a flat member's only task, or the last link of its
chain. -/
def GroupMember.lastID (g : String) (j : Nat) : GroupMember → String
  | single .. => memberID g j
  | chain ch => linkID (memberID g j) ((ch.map fun c => c.stages.length).getD 0 - 1)

/-- The last task of the member whose first task is `m`. -/
def lastID (g : String) (j : Nat) (m : TaskMessage) : String :=
  if m.chain = [] then m.id else linkID (memberID g j) m.chain.length

/-- What a chain that is accepted as a member consists of. -/
theorem Chain.snapshotForMember_parts {ch : Option Chain}
    (h : Chain.snapshotForMember now c ch = .ok (m, o)) :
    ∃ ch' args opts stages payload, ch = some ch' ∧ ch'.stages = .single args opts :: stages ∧
      ¬ stages.any ChainStage.isGroup ∧ ch'.snapshotTail now = .ok m.chain ∧
      resolveChainOptions now opts = .ok o ∧ o.noArchive = false ∧
      encodeArgs args = .ok payload ∧ ¬ m.chain.any ChainLink.noArchive ∧
      m = { id := linkID c 0, kind := args.kind, payload := payload, queue := o.queue
            maxRetry := o.maxRetry, retention := o.retention.tdiv second, chain := m.chain
            chainID := c } := by
  unfold Chain.snapshotForMember at h
  cases ch with
  | none => cases h
  | some ch =>
    dsimp only at h
    split at h
    · cases h
    · cases h
    · rename_i args opts stages hst
      obtain ⟨_, hany, h⟩ := bind_ok h
      obtain ⟨tail, htail, h⟩ := bind_ok h
      obtain ⟨o', ho, h⟩ := bind_ok h
      obtain ⟨_, hkeep, h⟩ := bind_ok h
      obtain ⟨_, hn, h⟩ := bind_ok h
      obtain ⟨payload, hp, h⟩ := bind_ok h
      cases h
      exact ⟨ch, args, opts, stages, payload, rfl, hst, refuseIf_ok hany, htail, about_ok ho,
        by simpa using refuseIf_ok hkeep, about_ok hp, refuseIf_ok hn, rfl⟩

/-- The first task of a member is not unique either. -/
theorem snapshotMember_ok {cb : ChainLink} {n : Nat} {gm : GroupMember}
    (h : snapshotMember now g cb n j gm = .ok (m, o)) :
    FirstMember g cb n j m ∧ ¬ 0 < o.uniqueTTL ∧ lastID g j m = gm.lastID g j := by
  cases gm with
  | single args opts =>
    obtain ⟨o', ho, h⟩ := bind_ok (about_ok h)
    obtain ⟨_, -, h⟩ := bind_ok h
    obtain ⟨_, -, h⟩ := bind_ok h
    obtain ⟨payload, -, h⟩ := bind_ok h
    cases h
    exact ⟨.flat .., resolveChainOptions_ok ho, rfl⟩
  | chain ch =>
    obtain ⟨⟨m', o'⟩, hs, h⟩ := bind_ok (about_ok h)
    obtain ⟨_, -, h⟩ := bind_ok h
    cases h
    obtain ⟨ch, args, opts, stages, payload, rfl, hst, hany, htail, ho, -, -, hn, hm⟩ :=
      Chain.snapshotForMember_parts hs
    rw [hm]
    refine ⟨.chain _ _ _ _ _ m'.chain fun link hl =>
      ⟨snapshotTail_single htail hst hany link hl, ?_⟩, resolveChainOptions_ok ho, ?_⟩
    · by_contra hno
      exact hn (List.any_eq_true.mpr ⟨link, hl, by simpa using hno⟩)
    · have hlen := (snapshotTail_ok htail).1
      unfold lastID GroupMember.lastID
      dsimp only [Option.map_some, Option.getD_some]
      rw [← hlen]
      split
      · rename_i hnil
        rw [hnil]
        rfl
      · rfl

/-- What an accepted group sends: its pending set, and what came of each member's
checks. -/
theorem Group.enqueue_parts {grp : Group} {ops : List Op} (h : grp.enqueue now g = .ok ops) :
    ∃ (cb : ChainLink)
      (pending : List (TaskMessage × EnqueueOptions)), grp.members ≠ [] ∧ cb.group = [] ∧
      ops = .createGroup cb.queue g ((List.range grp.members.length).map (memberID g)) ::
        pending.map (fun p => dispatchMessage now p.1 p.2) ∧
      pending.length = grp.members.length ∧ ∀ (j : Nat) p, pending[j]? = some p →
        ∃ gm, grp.members[j]? = some gm ∧
          snapshotMember now g cb grp.members.length j gm = .ok p := by
  unfold Group.enqueue at h
  split at h
  · cases h
  · rename_i hne
    split at h
    · cases h
    · obtain ⟨cb, hcb, h⟩ := bind_ok h
      obtain ⟨pending, hp, h⟩ := bind_ok h
      cases h
      obtain ⟨hlen, hall⟩ := snapshotEach_ok hp
      refine ⟨cb, pending, hne, (snapshotChainLink_ok (about_ok hcb)).1, rfl, hlen,
        fun j p hj => ?_⟩
      obtain ⟨gm, hgm, hf⟩ := hall j p hj
      rw [Nat.zero_add] at hf
      exact ⟨gm, hgm, hf⟩

/-- **A group that is accepted** starts with its pending set and then with the first
task of each member. -/
theorem Group.enqueue_ok {grp : Group} {ops : List Op} (hg : g ≠ "")
    (h : grp.enqueue now g = .ok ops) : ∃ cb ms starts, GroupStart g cb ms ∧
      ops = .createGroup cb.queue g ((List.range ms.length).map (memberID g)) :: starts ∧
      starts.length = ms.length ∧ ms.length = grp.members.length ∧
      (∀ (j : Nat) m, ms[j]? = some m →
        starts[j]? = some (.enqueue m) ∨ ∃ t, starts[j]? = some (.schedule m t)) ∧
      ∀ (j : Nat) m gm, ms[j]? = some m → grp.members[j]? = some gm →
        ∃ o, snapshotMember now g cb ms.length j gm = .ok (m, o) := by
  obtain ⟨cb, pending, hne, hcb, rfl, hlen, hall⟩ := Group.enqueue_parts h
  have hmem : ∀ j m, (pending.map Prod.fst)[j]? = some m → ∃ o, pending[j]? = some (m, o) ∧
      ∃ gm, grp.members[j]? = some gm ∧
        snapshotMember now g cb grp.members.length j gm = .ok (m, o) := by
    intro j m hj
    rw [List.getElem?_map, Option.map_eq_some_iff] at hj
    obtain ⟨⟨m', o⟩, hj, rfl⟩ := hj
    exact ⟨o, hj, hall j _ hj⟩
  refine ⟨cb, pending.map Prod.fst, pending.map fun p => dispatchMessage now p.1 p.2,
    ⟨hg, ?_, hcb, ?_⟩, ?_, ?_, ?_, ?_, ?_⟩
  · intro hnil
    have hlen' := congrArg List.length hnil
    rw [List.length_map, hlen] at hlen'
    exact hne (List.length_eq_zero_iff.mp hlen')
  · intro j m hj
    obtain ⟨o, -, gm, -, hf⟩ := hmem j m hj
    rw [List.length_map, hlen]
    exact (snapshotMember_ok hf).1
  · rw [List.length_map, hlen]
  · rw [List.length_map, List.length_map]
  · rw [List.length_map, hlen]
  · intro j m hj
    obtain ⟨o, hj, gm, -, hf⟩ := hmem j m hj
    rw [List.getElem?_map, hj]
    rcases dispatchMessage_eq now m (snapshotMember_ok hf).2.1 with h | ⟨t, h⟩
    · exact Or.inl (congrArg some h)
    · exact Or.inr ⟨t, congrArg some h⟩
  · intro j m gm hj hgm
    obtain ⟨o, -, gm', hgm', hf⟩ := hmem j m hj
    obtain rfl := Option.some.inj (hgm.symm.trans hgm')
    rw [List.length_map, hlen]
    exact ⟨o, hf⟩

end Accepted

end ChronosGo
