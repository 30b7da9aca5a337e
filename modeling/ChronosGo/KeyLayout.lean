import ChronosGo.Task
import Mathlib.Data.List.DropRight
import Mathlib.Data.List.Infix

/-! # The key layout and its namespaces

Every key is a namespace, a colon and a rest (`internal/base/keys.go`).  The keys of
a queue go on with the queue's name in braces, which a namespace cannot contain
(`NormalizePrefix`); the global ones with a fixed word, except for the last fired
time of a schedule, which embeds the schedule's free-form identifier.

A namespace may contain colons, so one namespace can lie inside another.  That is
harmless for all keys but one: the last fired times of a namespace `p` lie under
`p:sched:`, and a deployment in a namespace there shares them
(`nested_namespaces_share`).  All other namespaces are disjoint
(`namespaces_disjoint_iff`).
-/
namespace ChronosGo

variable {given p : String} {sha256 : Bytes → String}

/-! ## Namespaces -/

/-- Why `NormalizePrefix` panics, with the text it was given. -/
inductive PrefixPanic where
  | empty (given : String)
  | braces (given : String)
  | globMetacharacters (given : String)
  | whitespaceOrControl (given : String)
deriving DecidableEq, Repr

/-- `unicode.IsSpace`. -/
def isSpace (r : Char) : Bool :=
  let c := r.toNat
  (9 ≤ c && c ≤ 13) || c = 0x20 || c = 0x85 || c = 0xA0 || c = 0x1680 ||
    (0x2000 ≤ c && c ≤ 0x200A) || c = 0x2028 || c = 0x2029 || c = 0x202F || c = 0x205F || c = 0x3000

/-- `unicode.IsControl`. -/
def isControl (r : Char) : Bool :=
  let c := r.toNat
  c ≤ 0x1F || (0x7F ≤ c && c ≤ 0x9F)

/-- `strings.Trim(.., ":")`. -/
def trimColons (s : String) : String :=
  String.ofList ((s.toList.dropWhile (· = ':')).rdropWhile (· = ':'))

/-- The loop over the characters of a namespace. -/
def checkRunes (given : String) : List Char → Except PrefixPanic Unit
  | [] => .ok ()
  | r :: rs =>
    if r = '\x7b' ∨ r = '\x7d' then .error (.braces given)
    else if r = '*' ∨ r = '?' ∨ r = '[' ∨ r = ']' then .error (.globMetacharacters given)
    else if isSpace r ∨ isControl r then .error (.whitespaceOrControl given)
    else checkRunes given rs

def normalizePrefix (given : String) : Except PrefixPanic String :=
  let p := trimColons given
  if p = "" then .error (.empty given)
  else
    match checkRunes given p.toList with
    | .ok () => .ok p
    | .error e => .error e

/-- What the loop lets through. -/
theorem not_rejected_of_checkRunes {rs : List Char} (h : checkRunes given rs = .ok ()) {r : Char}
    (hr : r ∈ rs) :
    ¬ (r = '\x7b' ∨ r = '\x7d') ∧ ¬ (r = '*' ∨ r = '?' ∨ r = '[' ∨ r = ']') := by
  induction rs with
  | nil => cases hr
  | cons r' rs ih =>
    unfold checkRunes at h
    split at h
    · cases h
    · rename_i hbrace
      split at h
      · cases h
      · rename_i hglob
        split at h
        · cases h
        · rcases List.mem_cons.mp hr with rfl | hr
          · exact ⟨hbrace, hglob⟩
          · exact ih h hr

/-- A namespace has been through the loop. -/
theorem checkRunes_of_normalizePrefix (h : normalizePrefix given = .ok p) :
    checkRunes given p.toList = .ok () := by
  unfold normalizePrefix at h
  dsimp only at h
  split at h
  · cases h
  · split at h
    · rename_i hcheck
      cases h
      exact hcheck
    · cases h

/-- `NewKeys`, with the digest that unique locks use. -/
def newKeys (sha256 : Bytes → String) (given : String) : Except PrefixPanic Keys :=
  match normalizePrefix given with
  | .ok p => .ok ⟨p, sha256⟩
  | .error e => .error e

theorem normalizePrefix_of_newKeys {k : Keys} (h : newKeys sha256 given = .ok k) :
    normalizePrefix given = .ok k.keyPrefix := by
  unfold newKeys at h
  split at h
  · rename_i hp
    cases h
    exact hp
  · cases h

/-- What a namespace does not contain. -/
theorem not_rejected_of_newKeys {k : Keys} (h : newKeys sha256 given = .ok k) {r : Char}
    (hr : r ∈ k.keyPrefix.toList) :
    ¬ (r = '\x7b' ∨ r = '\x7d') ∧ ¬ (r = '*' ∨ r = '?' ∨ r = '[' ∨ r = ']') :=
  not_rejected_of_checkRunes (checkRunes_of_normalizePrefix (normalizePrefix_of_newKeys h)) hr

theorem brace_not_mem_of_newKeys {k : Keys} (h : newKeys sha256 given = .ok k) :
    '\x7b' ∉ k.keyPrefix.toList :=
  fun hr => (not_rejected_of_newKeys h hr).1 (.inl rfl)

/-! ## The builders -/

namespace Keys
variable (k : Keys)

def streamKey (qname : String) : String := k.queueKeyPrefix qname ++ "stream"

def taskKey (qname id : String) : String := k.queueKeyPrefix qname ++ "t:" ++ id

def queuesKey : String := k.keyPrefix ++ ":queues"

def pausedKey : String := k.keyPrefix ++ ":paused"

def schedulesKey : String := k.keyPrefix ++ ":schedules"

def taskKeyPrefix (qname : String) : String := k.queueKeyPrefix qname ++ "t:"

def retryKey (qname : String) : String := k.queueKeyPrefix qname ++ "retry"

def archivedKey (qname : String) : String := k.queueKeyPrefix qname ++ "archived"

def completedKey (qname : String) : String := k.queueKeyPrefix qname ++ "completed"

def groupKey (cbQueue groupID : String) : String := k.queueKeyPrefix cbQueue ++ "group:" ++ groupID

def groupResultKey (cbQueue groupID : String) : String :=
  k.queueKeyPrefix cbQueue ++ "groupresult:" ++ groupID

def scheduledKey (qname : String) : String := k.queueKeyPrefix qname ++ "scheduled"

def leaderKey : String := k.keyPrefix ++ ":leader"

def leaderResignChannel : String := k.keyPrefix ++ ":leader:resign"

def periodicDedupKey (qname id : String) : String := k.queueKeyPrefix qname ++ "pdedup:" ++ id

def scheduleLastFiredKey (scheduleID : String) : String :=
  k.keyPrefix ++ ":sched:" ++ scheduleID ++ ":last"

/-- A call of a builder. -/
inductive Builder where
  | queueKeyPrefix (qname : String)
  | streamKey (qname : String)
  | taskKey (qname id : String)
  | queuesKey
  | pausedKey
  | schedulesKey
  | taskKeyPrefix (qname : String)
  | retryKey (qname : String)
  | archivedKey (qname : String)
  | completedKey (qname : String)
  | groupKey (cbQueue groupID : String)
  | groupResultKey (cbQueue groupID : String)
  | scheduledKey (qname : String)
  | uniqueKey (qname suffix : String)
  | leaderKey
  | leaderResignChannel
  | periodicDedupKey (qname id : String)
  | scheduleLastFiredKey (scheduleID : String)

/-- What the builder returns. -/
def build : Builder → String
  | .queueKeyPrefix qname => k.queueKeyPrefix qname
  | .streamKey qname => k.streamKey qname
  | .taskKey qname id => k.taskKey qname id
  | .queuesKey => k.queuesKey
  | .pausedKey => k.pausedKey
  | .schedulesKey => k.schedulesKey
  | .taskKeyPrefix qname => k.taskKeyPrefix qname
  | .retryKey qname => k.retryKey qname
  | .archivedKey qname => k.archivedKey qname
  | .completedKey qname => k.completedKey qname
  | .groupKey cbQueue groupID => k.groupKey cbQueue groupID
  | .groupResultKey cbQueue groupID => k.groupResultKey cbQueue groupID
  | .scheduledKey qname => k.scheduledKey qname
  | .uniqueKey qname suffix => k.uniqueKey qname suffix
  | .leaderKey => k.leaderKey
  | .leaderResignChannel => k.leaderResignChannel
  | .periodicDedupKey qname id => k.periodicDedupKey qname id
  | .scheduleLastFiredKey scheduleID => k.scheduleLastFiredKey scheduleID

/-! ## What follows the namespace -/

/-- For a key of a queue: the queue, and what follows its prefix. -/
def Builder.inQueue : Builder → Option (String × String)
  | .queueKeyPrefix qname => some (qname, "")
  | .streamKey qname => some (qname, "stream")
  | .taskKey qname id => some (qname, "t:" ++ id)
  | .taskKeyPrefix qname => some (qname, "t:")
  | .retryKey qname => some (qname, "retry")
  | .archivedKey qname => some (qname, "archived")
  | .completedKey qname => some (qname, "completed")
  | .groupKey cbQueue groupID => some (cbQueue, "group:" ++ groupID)
  | .groupResultKey cbQueue groupID => some (cbQueue, "groupresult:" ++ groupID)
  | .scheduledKey qname => some (qname, "scheduled")
  | .uniqueKey qname suffix => some (qname, "unique:" ++ suffix)
  | .periodicDedupKey qname id => some (qname, "pdedup:" ++ id)
  | .queuesKey | .pausedKey | .schedulesKey | .leaderKey | .leaderResignChannel
  | .scheduleLastFiredKey _ => none

variable {k}

theorem build_of_inQueue {b : Builder} {qname rest : String} (h : b.inQueue = some (qname, rest)) :
    k.build b = k.queueKeyPrefix qname ++ rest := by
  cases b <;> cases h <;>
    first | rfl | exact String.append_assoc .. | exact String.append_empty.symm

theorem toList_queueKeyPrefix (qname : String) :
    (k.queueKeyPrefix qname).toList =
      k.keyPrefix.toList ++ ':' :: '\x7b' :: (qname.toList ++ ['\x7d', ':']) := by
  simp [queueKeyPrefix, String.toList_append]

/-- The global keys without an identifier. -/
def globals : List String := ["queues", "paused", "schedules", "leader", "leader:resign"]

/-- What stands after the namespace and its colon. -/
inductive IsRest : List Char → Prop
  | queue (t : List Char) : IsRest ('\x7b' :: t)
  | global {g : String} (hg : g ∈ globals) : IsRest g.toList
  | lastFired (scheduleID : String) :
      IsRest ("sched".toList ++ ':' :: (scheduleID.toList ++ ":last".toList))

theorem exists_rest_of_queue {b : Builder} {qname rest : String}
    (h : b.inQueue = some (qname, rest)) :
    ∃ t, IsRest t ∧ (k.build b).toList = k.keyPrefix.toList ++ ':' :: t := by
  refine ⟨_, .queue (qname.toList ++ ['\x7d', ':'] ++ rest.toList), ?_⟩
  simp [build_of_inQueue h, String.toList_append, toList_queueKeyPrefix]

theorem exists_rest_of_global {g : String} (hg : g ∈ globals) :
    ∃ t, IsRest t ∧ (k.keyPrefix ++ (":" ++ g)).toList = k.keyPrefix.toList ++ ':' :: t :=
  ⟨_, .global hg, by simp [String.toList_append]⟩

/-- Every key is the namespace, a colon and a rest. -/
theorem exists_rest_of_build (b : Builder) :
    ∃ t, IsRest t ∧ (k.build b).toList = k.keyPrefix.toList ++ ':' :: t := by
  cases b with
  | queuesKey => exact exists_rest_of_global (g := "queues") (by decide)
  | pausedKey => exact exists_rest_of_global (g := "paused") (by decide)
  | schedulesKey => exact exists_rest_of_global (g := "schedules") (by decide)
  | leaderKey => exact exists_rest_of_global (g := "leader") (by decide)
  | leaderResignChannel => exact exists_rest_of_global (g := "leader:resign") (by decide)
  | scheduleLastFiredKey scheduleID =>
    refine ⟨_, .lastFired scheduleID, ?_⟩
    simp [build, scheduleLastFiredKey, String.toList_append]
  | _ => exact exists_rest_of_queue rfl

/-! ## Disjoint namespaces -/

/-- The namespace `q` lies among the last fired times of the namespace `p`: it is
`p:sched`, or begins with `p:sched:`. -/
def UnderSched (p q : String) : Prop := (p ++ ":sched:").toList <+: (q ++ ":").toList

instance (p q : String) : Decidable (UnderSched p q) :=
  inferInstanceAs (Decidable (_ <+: _))

/-- After a colon in a global key there is not another rest. -/
theorem not_isRest_of_global {g : String} (hg : g ∈ globals) {x t : List Char} (ht : IsRest t) :
    g.toList ≠ x ++ ':' :: t := by
  intro heq
  have hsuffixes : ∀ g ∈ globals, ∀ u ∈ g.toList.tails, u.head? = some ':' →
      u = ':' :: "resign".toList := by decide
  have hu := hsuffixes g hg (':' :: t) ((List.mem_tails _ _).mpr ⟨x, heq.symm⟩) rfl
  obtain ⟨-, rfl⟩ := List.cons.inj hu
  generalize hr : "resign".toList = r at ht
  cases ht with
  | queue u => cases hr
  | global hg =>
    rw [← String.toList_inj.mp hr] at hg
    exact absurd hg (by decide)
  | lastFired id => cases hr

/-- If one namespace is longer, a common key puts it among the last fired times of the
other. -/
theorem underSched_of_rest {q : String} {x t t' : List Char} (hq : '\x7b' ∉ q.toList)
    (hx : q.toList = p.toList ++ ':' :: x) (ht : IsRest t) (ht' : IsRest t')
    (heq : t = x ++ ':' :: t') : UnderSched p q := by
  cases ht with
  | queue u =>
    -- the rest begins with a brace, which is not in the namespace
    cases x with
    | nil => cases heq
    | cons c x =>
      obtain ⟨rfl, -⟩ := List.cons.inj heq
      exact absurd (hx ▸ by simp) hq
  | global hg => exact absurd heq (not_isRest_of_global hg ht')
  | lastFired scheduleID =>
    -- the longer namespace goes on with `sched`, up to a colon
    obtain ⟨z, hz⟩ : ∃ z, x ++ [':'] = "sched".toList ++ ':' :: z := by
      rcases List.append_eq_append_iff.mp heq with ⟨c, rfl, hc⟩ | ⟨c, hs, hc⟩
      · cases c with
        | nil => exact ⟨[], by simp⟩
        | cons y c =>
          obtain ⟨rfl, -⟩ := List.cons.inj hc
          exact ⟨c ++ [':'], by simp⟩
      · cases c with
        | nil => exact ⟨[], by rw [List.append_nil] at hs; rw [← hs]⟩
        | cons y c =>
          obtain ⟨rfl, -⟩ := List.cons.inj hc
          exact absurd (hs ▸ by simp : ':' ∈ "sched".toList) (by decide)
    refine ⟨z, ?_⟩
    have happ : (q ++ ":").toList = p.toList ++ ':' :: (x ++ [':']) := by
      simp [String.toList_append, hx]
    rw [happ, hz]
    simp [String.toList_append]

/-- Two namespaces with a common key are the same, or one lies among the last fired times
of the other. -/
theorem underSched_of_build_eq {k k' : Keys} (hk : '\x7b' ∉ k.keyPrefix.toList)
    (hk' : '\x7b' ∉ k'.keyPrefix.toList) {b b' : Builder} (h : k.build b = k'.build b') :
    k.keyPrefix = k'.keyPrefix ∨ UnderSched k.keyPrefix k'.keyPrefix ∨
      UnderSched k'.keyPrefix k.keyPrefix := by
  obtain ⟨t, ht, hb⟩ := exists_rest_of_build (k := k) b
  obtain ⟨t', ht', hb'⟩ := exists_rest_of_build (k := k') b'
  have heq : k.keyPrefix.toList ++ ':' :: t = k'.keyPrefix.toList ++ ':' :: t' := by
    rw [← hb, ← hb', h]
  rcases List.append_eq_append_iff.mp heq with ⟨c, hc, hrest⟩ | ⟨c, hc, hrest⟩
  · cases c with
    | nil => exact .inl (String.toList_inj.mp (by simpa using hc.symm))
    | cons y x =>
      obtain ⟨rfl, htail⟩ := List.cons.inj hrest
      exact .inr (.inl (underSched_of_rest hk' hc ht ht' htail))
  · cases c with
    | nil => exact .inl (String.toList_inj.mp (by simpa using hc))
    | cons y x =>
      obtain ⟨rfl, htail⟩ := List.cons.inj hrest
      exact .inr (.inr (underSched_of_rest hk hc ht' ht htail))

/-- A namespace among the last fired times of another shares its own last fired times with
it. -/
theorem exists_shared_of_underSched {k k' : Keys} (h : UnderSched k.keyPrefix k'.keyPrefix)
    (scheduleID : String) : ∃ outer,
      k.build (.scheduleLastFiredKey outer) = k'.build (.scheduleLastFiredKey scheduleID) := by
  obtain ⟨z, hz⟩ := h
  have hprefix : k'.keyPrefix ++ ":" = k.keyPrefix ++ ":sched:" ++ String.ofList z := by
    apply String.toList_inj.mp
    rw [← hz]
    simp [String.toList_append]
  have hsched : ":sched:" = ":" ++ "sched:" := rfl
  refine ⟨String.ofList z ++ "sched:" ++ scheduleID, ?_⟩
  simp only [build, scheduleLastFiredKey]
  rw [← String.append_assoc, ← String.append_assoc, ← hprefix]
  simp only [hsched, String.append_assoc]

/-- **Namespace isolation.**  Two deployments in different namespaces share no key or
channel, unless one namespace lies among the last fired times of the other. -/
theorem namespaces_disjoint_iff {sha256 sha256' : Bytes → String} {given given' : String}
    {k k' : Keys} (hk : newKeys sha256 given = .ok k) (hk' : newKeys sha256' given' = .ok k')
    (hne : k.keyPrefix ≠ k'.keyPrefix) :
    (∀ b b', k.build b ≠ k'.build b') ↔
      ¬ UnderSched k.keyPrefix k'.keyPrefix ∧ ¬ UnderSched k'.keyPrefix k.keyPrefix := by
  constructor
  · intro hdisj
    refine ⟨fun h => ?_, fun h => ?_⟩
    · obtain ⟨outer, heq⟩ := exists_shared_of_underSched h ""
      exact hdisj _ _ heq
    · obtain ⟨outer, heq⟩ := exists_shared_of_underSched h ""
      exact hdisj _ _ heq.symm
  · rintro ⟨hsub, hsub'⟩ b b' heq
    rcases underSched_of_build_eq (brace_not_mem_of_newKeys hk) (brace_not_mem_of_newKeys hk') heq
      with h | h | h
    · exact hne h
    · exact hsub h
    · exact hsub' h

theorem newKeys_of_normalizePrefix (h : normalizePrefix given = .ok p) :
    newKeys sha256 given = .ok ⟨p, sha256⟩ := by
  rw [newKeys, h]

/-- One namespace inside another, but not among its last fired times. -/
theorem inner_namespace_disjoint :
    newKeys (fun _ => "") "chronos" = .ok ⟨"chronos", fun _ => ""⟩ ∧
      newKeys (fun _ => "") "chronos:billing:" = .ok ⟨"chronos:billing", fun _ => ""⟩ ∧
      ∀ b b', (⟨"chronos", fun _ => ""⟩ : Keys).build b ≠
        (⟨"chronos:billing", fun _ => ""⟩ : Keys).build b' := by
  have hk : newKeys (fun _ => "") "chronos" = .ok ⟨"chronos", fun _ => ""⟩ :=
    newKeys_of_normalizePrefix (by decide +kernel)
  have hk' : newKeys (fun _ => "") "chronos:billing:" = .ok ⟨"chronos:billing", fun _ => ""⟩ :=
    newKeys_of_normalizePrefix (by decide +kernel)
  exact ⟨hk, hk', (namespaces_disjoint_iff hk hk' (by decide)).mpr (by decide +kernel)⟩

/-- A namespace among the last fired times of another: a schedule of one application has
the key of a schedule of the other. -/
theorem nested_namespaces_share :
    newKeys (fun _ => "") "chronos" = .ok ⟨"chronos", fun _ => ""⟩ ∧
      newKeys (fun _ => "") "chronos:sched:billing" = .ok ⟨"chronos:sched:billing", fun _ => ""⟩ ∧
      (⟨"chronos", fun _ => ""⟩ : Keys).build
          (.scheduleLastFiredKey "billing:sched:mail:@every 1s#0f") =
        (⟨"chronos:sched:billing", fun _ => ""⟩ : Keys).build
          (.scheduleLastFiredKey "mail:@every 1s#0f") :=
  ⟨newKeys_of_normalizePrefix (by decide +kernel), newKeys_of_normalizePrefix (by decide +kernel),
    by decide +kernel⟩

end Keys
end ChronosGo
