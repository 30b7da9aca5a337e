import ChronosGo.KeyLayout

/-! # No two keys of a namespace are the same

A key says where its data is: in the hash slot of a queue or in none, under a word for
the kind of data, and under an identifier if there are several of the kind.  That is
its `Address`, and the key determines it: a queue name ends at the first closing brace
and a word at the first colon, whatever characters the identifier after it has.  So
the key builders of one namespace never meet (`keys_never_alias`), and what a script
makes of a task key's beginning and an identifier is the key of that task of that queue
and nothing else.
-/
namespace ChronosGo.Keys

/-! ## Addresses -/

/-- Where data is kept. -/
@[ext]
structure Address where
  queue : Option String
  word : String
  id : Option String
deriving DecidableEq

namespace Address

/-- The word and the identifier. -/
def named (a : Address) : List Char :=
  a.word.toList ++ (a.id.map fun id => ':' :: id.toList).getD []

/-- What stands after the namespace and its colon. -/
def rest (a : Address) : List Char :=
  match a.queue with
  | none => a.named
  | some q => '\x7b' :: (q.toList ++ '\x7d' :: ':' :: a.named)

/-- The name of the queue has no braces, and the word neither a brace nor a colon. -/
structure WellFormed (a : Address) : Prop where
  queue : ∀ q ∈ a.queue, '\x7b' ∉ q.toList ∧ '\x7d' ∉ q.toList
  brace : '\x7b' ∉ a.word.toList
  colon : ':' ∉ a.word.toList

/-- What ends at the first `x`, or at the end, is determined. -/
theorem split_first {α : Type} {x : α} {a a' t t' : List α} (ha : x ∉ a) (ha' : x ∉ a')
    (ht : ∀ y ∈ t.head?, y = x) (ht' : ∀ y ∈ t'.head?, y = x) (h : a ++ t = a' ++ t') :
    a = a' ∧ t = t' := by
  rcases List.append_eq_append_iff.mp h with ⟨c, rfl, hc⟩ | ⟨c, rfl, hc⟩
  · cases c with
    | nil => exact ⟨(List.append_nil a).symm, hc⟩
    | cons y c =>
      obtain rfl := ht y (by rw [hc]; rfl)
      exact absurd (List.mem_append_right a List.mem_cons_self) ha'
  · cases c with
    | nil => exact ⟨List.append_nil a', hc.symm⟩
    | cons y c =>
      obtain rfl := ht' y (by rw [hc]; rfl)
      exact absurd (List.mem_append_right a' List.mem_cons_self) ha

variable {a b : Address}

theorem named_injective (ha : a.WellFormed) (hb : b.WellFormed) (h : a.named = b.named) :
    a.word = b.word ∧ a.id = b.id := by
  have hhead : ∀ i : Option String, ∀ y ∈ ((i.map fun id => ':' :: id.toList).getD []).head?,
      y = ':' := by
    rintro (_ | id) y hy
    · cases hy
    · exact (Option.some.inj hy).symm
  obtain ⟨hword, hid⟩ := split_first ha.colon hb.colon (hhead a.id) (hhead b.id) h
  refine ⟨String.toList_inj.mp hword, ?_⟩
  cases hai : a.id <;> cases hbi : b.id <;> rw [hai, hbi] at hid
  · cases hid
  · cases hid
  · exact congrArg some (String.toList_inj.mp (List.cons.inj hid).2)

/-- A word does not begin with a brace. -/
theorem head_named (ha : a.WellFormed) : ∀ t, a.named ≠ '\x7b' :: t := by
  intro t h
  unfold named at h
  cases hw : a.word.toList with
  | nil =>
    rw [hw, List.nil_append] at h
    cases hi : a.id with
    | none => rw [hi] at h; cases h
    | some id =>
      rw [hi] at h
      exact absurd (List.cons.inj h).1 (by decide)
  | cons c w =>
    rw [hw] at h
    have hc : c = '\x7b' := (List.cons.inj h).1
    exact ha.brace (by rw [hw, hc]; exact List.mem_cons_self)

/-- **An address is determined by what it looks like.** -/
theorem rest_injective (ha : a.WellFormed) (hb : b.WellFormed) (h : a.rest = b.rest) : a = b := by
  unfold rest at h
  cases hqa : a.queue with
  | none =>
    rw [hqa] at h
    cases hqb : b.queue with
    | none =>
      rw [hqb] at h
      obtain ⟨hword, hid⟩ := named_injective ha hb h
      exact Address.ext (hqa.trans hqb.symm) hword hid
    | some q =>
      rw [hqb] at h
      exact absurd h (head_named ha _)
  | some p =>
    rw [hqa] at h
    cases hqb : b.queue with
    | none =>
      rw [hqb] at h
      exact absurd h.symm (head_named hb _)
    | some q =>
      rw [hqb] at h
      have hhead : ∀ t : List Char, ∀ y ∈ ('\x7d' :: t).head?, y = '\x7d' :=
        fun t y hy => (Option.some.inj hy).symm
      obtain ⟨hq, htail⟩ := split_first (ha.queue p hqa).2 (hb.queue q hqb).2 (hhead _) (hhead _)
        (List.cons.inj h).2
      obtain ⟨hword, hid⟩ := named_injective ha hb (List.cons.inj (List.cons.inj htail).2).2
      exact Address.ext (by rw [hqa, hqb, String.toList_inj.mp hq]) hword hid

end Address

/-! ## The addresses of the builders -/

namespace Builder

/-- Where the data of a key is. -/
def address : Builder → Address
  | queueKeyPrefix qname => ⟨some qname, "", none⟩
  | streamKey qname => ⟨some qname, "stream", none⟩
  | taskKey qname id => ⟨some qname, "t", some id⟩
  | queuesKey => ⟨none, "queues", none⟩
  | pausedKey => ⟨none, "paused", none⟩
  | schedulesKey => ⟨none, "schedules", none⟩
  | taskKeyPrefix qname => ⟨some qname, "t", some ""⟩
  | retryKey qname => ⟨some qname, "retry", none⟩
  | archivedKey qname => ⟨some qname, "archived", none⟩
  | completedKey qname => ⟨some qname, "completed", none⟩
  | groupKey cbQueue groupID => ⟨some cbQueue, "group", some groupID⟩
  | groupResultKey cbQueue groupID => ⟨some cbQueue, "groupresult", some groupID⟩
  | scheduledKey qname => ⟨some qname, "scheduled", none⟩
  | uniqueKey qname suffix => ⟨some qname, "unique", some suffix⟩
  | leaderKey => ⟨none, "leader", none⟩
  | leaderResignChannel => ⟨none, "leader", some "resign"⟩
  | periodicDedupKey qname id => ⟨some qname, "pdedup", some id⟩
  | scheduleLastFiredKey scheduleID => ⟨none, "sched", some (scheduleID ++ ":last")⟩

/-- The builders of keys: not the two that return the beginning of keys, and not the
channel. -/
def IsKey : Builder → Prop
  | queueKeyPrefix _ | taskKeyPrefix _ | leaderResignChannel => False
  | _ => True

/-- The queue has a name without braces. -/
def BraceFree (b : Builder) : Prop :=
  ∀ q ∈ b.address.queue, '\x7b' ∉ q.toList ∧ '\x7d' ∉ q.toList

theorem address_wellFormed {b : Builder} (h : b.BraceFree) : b.address.WellFormed :=
  ⟨h, by cases b <;> simp [address], by cases b <;> simp [address]⟩

/-- Different keys have different addresses. -/
theorem address_injective {b b' : Builder} (hb : b.IsKey) (hb' : b'.IsKey)
    (h : b.address = b'.address) : b = b' := by
  cases b <;> cases b' <;> simp_all [address, IsKey]

end Builder

variable {k : Keys}

/-- A key is the namespace and the address. -/
theorem toList_build (b : Builder) :
    (k.build b).toList = k.keyPrefix.toList ++ ':' :: b.address.rest := by
  cases b <;> simp [build, Builder.address, Address.rest, Address.named, queueKeyPrefix, streamKey,
    taskKey, queuesKey, pausedKey, schedulesKey, taskKeyPrefix, retryKey, archivedKey, completedKey,
    groupKey, groupResultKey, scheduledKey, uniqueKey, leaderKey, leaderResignChannel,
    periodicDedupKey, scheduleLastFiredKey]

/-- Different calls of the key builders return different keys. -/
theorem build_injective {b b' : Builder} (hb : b.IsKey) (hb' : b'.IsKey) (hf : b.BraceFree)
    (hf' : b'.BraceFree) (h : k.build b = k.build b') : b = b' := by
  have hlist : k.keyPrefix.toList ++ ':' :: b.address.rest =
      k.keyPrefix.toList ++ ':' :: b'.address.rest := by
    rw [← toList_build, ← toList_build, h]
  refine Builder.address_injective hb hb' ?_
  exact Address.rest_injective (Builder.address_wellFormed hf) (Builder.address_wellFormed hf')
    (List.cons.inj (List.append_cancel_left hlist)).2

/-- **Keys of one namespace never alias.**  For queue names without braces, different calls
of the key builders return different keys, whatever the identifiers are; and the keys that
begin as the task keys of a queue do are the task keys of that queue. -/
theorem keys_never_alias (k : Keys) :
    (∀ b b' : Builder, b.IsKey → b'.IsKey → b.BraceFree → b'.BraceFree →
      k.build b = k.build b' → b = b') ∧
    ∀ qname : String, '\x7b' ∉ qname.toList → '\x7d' ∉ qname.toList →
      (∀ id, k.taskKeyPrefix qname ++ id = k.build (.taskKey qname id)) ∧
      ∀ b : Builder, b.IsKey → b.BraceFree →
        (k.taskKeyPrefix qname).toList <+: (k.build b).toList → ∃ id, b = .taskKey qname id := by
  refine ⟨fun b b' hb hb' hf hf' h => build_injective hb hb' hf hf' h, fun qname ho hc =>
    ⟨fun id => rfl, fun b hb hf hstart => ?_⟩⟩
  obtain ⟨t, ht⟩ := hstart
  have hq : (Builder.taskKey qname (String.ofList t)).BraceFree := by
    rintro q ⟨⟩
    exact ⟨ho, hc⟩
  have heq : k.build b = k.build (.taskKey qname (String.ofList t)) := by
    apply String.toList_inj.mp
    rw [← ht]
    simp [build, taskKey, taskKeyPrefix]
  exact ⟨_, build_injective hb trivial hf hq heq⟩

/-- Identifiers that imitate other keys: a group whose name goes on as the results of
another group do, and a task of one queue whose name is the key of a task of another. -/
theorem imitations_differ :
    (⟨"chronos", fun _ => ""⟩ : Keys).build (.groupKey "mail" "result:7") ≠
        (⟨"chronos", fun _ => ""⟩ : Keys).build (.groupResultKey "mail" "7") ∧
      ¬ ((⟨"chronos", fun _ => ""⟩ : Keys).taskKeyPrefix "mail").toList <+:
        ((⟨"chronos", fun _ => ""⟩ : Keys).build
          (.taskKey "sms" "chronos:\x7bmail\x7d:t:7")).toList := by
  have halias := keys_never_alias ⟨"chronos", fun _ => ""⟩
  have hmail : '\x7b' ∉ "mail".toList ∧ '\x7d' ∉ "mail".toList := by simp
  have hsms : '\x7b' ∉ "sms".toList ∧ '\x7d' ∉ "sms".toList := by simp
  refine ⟨fun h => ?_, fun h => ?_⟩
  · have heq := halias.1 (.groupKey "mail" "result:7") (.groupResultKey "mail" "7") trivial trivial
      (by rintro q ⟨⟩; exact hmail) (by rintro q ⟨⟩; exact hmail) h
    cases heq
  · obtain ⟨id, hid⟩ := (halias.2 "mail" hmail.1 hmail.2).2
      (.taskKey "sms" "chronos:\x7bmail\x7d:t:7") trivial (by rintro q ⟨⟩; exact hsms) h
    injection hid with hq
    exact absurd hq (by decide)

end ChronosGo.Keys
