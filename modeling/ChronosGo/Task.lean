import Mathlib.Data.Int.Basic
import Mathlib.Data.Nat.Digits.Defs

/-! # Tasks, their messages, and their identifiers

`TaskMessage` is the body of a task as it is stored in its Redis hash
(`internal/base/task.go`).  Encoding is taken as faithful: a stored message
decodes to the message that was encoded, so the model stores messages, not JSON.
A Go `[]byte` or slice field that is omitted when empty is a list, empty for nil.

Instants are integers, in nanoseconds; durations too.  Go's `time.Duration` is an
`int64` that wraps, which `wrap64` makes explicit where the code does arithmetic
on durations.
-/
namespace ChronosGo

abbrev Bytes := List UInt8

/-- One second, in nanoseconds. -/
def second : Int := 1000000000

/-- `time.Time.Unix`: whole seconds, rounded down. -/
def unix (t : Int) : Int := t / second

/-- The result of Go `int64` arithmetic. -/
def wrap64 (x : Int) : Int := x.bmod (2 ^ 64)

theorem wrap64_lt (x : Int) : wrap64 x < 2 ^ 63 := by
  have h := Int.bmod_lt (x := x) (m := 2 ^ 64) (by decide)
  unfold wrap64
  omega

/-- The number is an `int64`. -/
def IsInt64 (x : Int) : Prop := -2 ^ 63 ≤ x ∧ x < 2 ^ 63

theorem IsInt64.wrap64_eq {x : Int} (h : IsInt64 x) : wrap64 x = x := by
  unfold IsInt64 at h
  exact Int.bmod_eq_of_le_mul_two (by omega) (by omega)

/-- The lifecycle stage of a task. -/
inductive TaskState where
  | pending
  | active
  | completed
  | retry
  | archived
  | scheduled
deriving DecidableEq, Repr

/-- One member of a parallel stage: the enqueue parameters frozen when the chain
was built. -/
structure GroupMemberLink where
  kind : String
  payload : Bytes
  queue : String
  maxRetry : Nat
  retention : Int
  delay : Int
deriving DecidableEq, Repr

/-- One pending successor, carried inside its predecessor's message.  A non-empty
`group` makes it a parallel stage, and the link's own fields then describe the
stage's callback. -/
structure ChainLink where
  kind : String
  payload : Bytes
  queue : String
  maxRetry : Nat
  noArchive : Bool
  retention : Int
  delay : Int
  group : List GroupMemberLink := []
deriving DecidableEq, Repr

/-- The canonical representation of a task, stored in the task hash. -/
structure TaskMessage where
  id : String
  kind : String
  payload : Bytes
  queue : String
  state : TaskState := .pending
  retried : Nat := 0
  maxRetry : Nat
  noArchive : Bool := false
  uniqueKey : String := ""
  lastErr : String := ""
  retention : Int := 0
  completedAt : Int := 0
  chain : List ChainLink := []
  chainID : String := ""
  chainIndex : Nat := 0
  groupID : String := ""
  groupQueue : String := ""
  groupCallback : Option ChainLink := none
  result : Bytes := []
  prevResult : Bytes := []
  groupResults : List (Option Bytes) := []
  groupIndex : Nat := 0
  groupSize : Nat := 0
  groupMemberID : String := ""
  groupCallbackChain : List ChainLink := []
deriving DecidableEq, Repr

/-! ## Identifiers of workflow tasks -/

/-- `"<chainID>:<index>"`: the task of a chain link, and the group of a parallel
stage. -/
def linkID (chainID : String) (index : Nat) : String := chainID ++ ":" ++ toString index

/-- `"<groupID>:m<index>"`: a member's slot in the pending set of its group. -/
def memberID (groupID : String) (index : Nat) : String := groupID ++ ":m" ++ toString index

/-- `"<groupID>:cb"`: the group's callback task. -/
def callbackID (groupID : String) : String := groupID ++ ":cb"

/-- A decimal numeral has no character outside the digits. -/
theorem isDigit_of_mem_toString {n : Nat} {c : Char} (h : c ∈ (toString n).toList) :
    c.isDigit := by
  rw [show toString n = n.repr from rfl, Nat.toList_repr] at h
  exact Nat.isDigit_of_mem_toDigits (by decide) (by decide) h

theorem toString_nat_injective {m n : Nat} (h : toString m = toString n) : m = n := by
  have hd : Nat.toDigits 10 m = Nat.toDigits 10 n := by
    rw [← Nat.toList_repr, ← Nat.toList_repr]
    exact congrArg String.toList h
  rw [← Nat.ofDigitChars_ten_toDigits (n := m), hd, Nat.ofDigitChars_ten_toDigits]

theorem string_append_left_cancel {a b c : String} (h : a ++ b = a ++ c) : b = c := by
  have h' := congrArg String.toList h
  rw [String.toList_append, String.toList_append] at h'
  exact String.toList_inj.mp (List.append_cancel_left h')

/-- What stands before and after the last separator is determined. -/
theorem split_last {α : Type} {x : α} {a a' b b' : List α} (hb : x ∉ b) (hb' : x ∉ b')
    (h : a ++ x :: b = a' ++ x :: b') : a = a' ∧ b = b' := by
  rcases List.append_eq_append_iff.mp h with ⟨c, rfl, hc⟩ | ⟨c, rfl, hc⟩
  · cases c with
    | nil => exact ⟨(List.append_nil a).symm, (List.cons.inj hc).2⟩
    | cons y c =>
      obtain ⟨-, rfl⟩ := List.cons.inj hc
      exact absurd (List.mem_append_right c List.mem_cons_self) hb
  · cases c with
    | nil => exact ⟨List.append_nil a', (List.cons.inj hc).2.symm⟩
    | cons y c =>
      obtain ⟨-, rfl⟩ := List.cons.inj hc
      exact absurd (List.mem_append_right c List.mem_cons_self) hb'

theorem colon_not_mem_nat (n : Nat) : ':' ∉ (toString n).toList := fun h =>
  absurd (isDigit_of_mem_toString h) (by decide)

theorem toList_linkID (c : String) (i : Nat) :
    (linkID c i).toList = c.toList ++ ':' :: (toString i).toList := by
  simp [linkID, String.toList_append]

theorem toList_memberID (g : String) (j : Nat) :
    (memberID g j).toList = g.toList ++ ':' :: 'm' :: (toString j).toList := by
  simp [memberID, String.toList_append]

theorem toList_callbackID (g : String) :
    (callbackID g).toList = g.toList ++ ':' :: ['c', 'b'] := by
  simp [callbackID, String.toList_append]

theorem colon_not_mem_member (j : Nat) : ':' ∉ 'm' :: (toString j).toList := by
  simpa using colon_not_mem_nat j

theorem linkID_inj {c c' : String} {i i' : Nat} (h : linkID c i = linkID c' i') :
    c = c' ∧ i = i' := by
  obtain ⟨hc, hi⟩ := split_last (colon_not_mem_nat i) (colon_not_mem_nat i')
    (by rw [← toList_linkID, ← toList_linkID, h])
  exact ⟨String.toList_inj.mp hc, toString_nat_injective (String.toList_inj.mp hi)⟩

theorem memberID_inj {g g' : String} {j j' : Nat} (h : memberID g j = memberID g' j') :
    g = g' ∧ j = j' := by
  obtain ⟨hg, hj⟩ := split_last (colon_not_mem_member j) (colon_not_mem_member j')
    (by rw [← toList_memberID, ← toList_memberID, h])
  exact ⟨String.toList_inj.mp hg,
    toString_nat_injective (String.toList_inj.mp (List.cons.inj hj).2)⟩

theorem callbackID_inj {g g' : String} (h : callbackID g = callbackID g') : g = g' := by
  have hl := congrArg String.toList h
  rw [toList_callbackID, toList_callbackID] at hl
  exact String.toList_inj.mp (List.append_cancel_right hl)

theorem linkID_ne_memberID (c g : String) (i j : Nat) : linkID c i ≠ memberID g j := by
  intro h
  obtain ⟨-, hs⟩ := split_last (colon_not_mem_nat i) (colon_not_mem_member j)
    (by rw [← toList_linkID, ← toList_memberID, h])
  have hm : 'm' ∈ (toString i).toList := hs ▸ List.mem_cons_self
  exact absurd (isDigit_of_mem_toString hm) (by decide)

theorem linkID_ne_callbackID (c g : String) (i : Nat) : linkID c i ≠ callbackID g := by
  intro h
  have hl := congrArg String.toList h
  rw [toList_linkID, toList_callbackID] at hl
  obtain ⟨-, hs⟩ := split_last (colon_not_mem_nat i) (by decide) hl
  have hm : 'c' ∈ (toString i).toList := hs ▸ List.mem_cons_self
  exact absurd (isDigit_of_mem_toString hm) (by decide)

theorem memberID_ne_callbackID (g g' : String) (j : Nat) : memberID g j ≠ callbackID g' := by
  intro h
  have hl := congrArg String.toList h
  rw [toList_memberID, toList_callbackID] at hl
  obtain ⟨-, hs⟩ := split_last (colon_not_mem_member j) (by decide) hl
  exact absurd (List.cons.inj hs).1 (by decide)

theorem memberID_injective (groupID : String) : Function.Injective (memberID groupID) :=
  fun _ _ h => (memberID_inj h).2

theorem linkID_ne_empty (c : String) (i : Nat) : linkID c i ≠ "" := by
  intro h
  have hl := congrArg String.toList h
  rw [toList_linkID] at hl
  simp at hl

theorem memberID_ne_empty (g : String) (j : Nat) : memberID g j ≠ "" := by
  intro h
  have hl := congrArg String.toList h
  rw [toList_memberID] at hl
  simp at hl

/-! ## Namespaces

The identifiers of a workflow all begin with the identifier it was given.  Two
random identifiers are `Apart`, and so is everything that is built on them.
-/

/-- The identifier begins with `c`. -/
def Under (c s : String) : Prop := c.toList <+: s.toList

/-- Neither string is the beginning of the other. -/
def Apart (c s : String) : Prop := ¬ c.toList <+: s.toList ∧ ¬ s.toList <+: c.toList

section Namespaces
variable {c s t : String}

theorem Under.refl (c : String) : Under c c := List.prefix_refl _

theorem Under.append (h : Under c s) (t : String) : Under c (s ++ t) := by
  rw [Under, String.toList_append]
  exact h.trans (List.prefix_append ..)

theorem Apart.append (h : Apart c s) (t : String) : Apart c (s ++ t) := by
  rw [Apart, String.toList_append]
  refine ⟨fun hc => ?_, fun hs => h.2 ((List.prefix_append ..).trans hs)⟩
  rcases List.prefix_or_prefix_of_prefix hc (List.prefix_append s.toList t.toList) with h' | h'
  · exact h.1 h'
  · exact h.2 h'

theorem Apart.not_under (h : Apart c s) : ¬ Under c s := h.1

theorem Apart.ne (h : Apart c s) (ht : Under c t) : s ≠ t := fun he => h.1 (he ▸ ht)

theorem Under.linkID (h : Under c s) (i : Nat) : Under c (linkID s i) :=
  (h.append ":").append (toString i)

theorem Under.memberID (h : Under c s) (j : Nat) : Under c (memberID s j) :=
  (h.append ":m").append (toString j)

theorem Under.callbackID (h : Under c s) : Under c (callbackID s) := h.append ":cb"

theorem Apart.linkID (h : Apart c s) (i : Nat) : Apart c (linkID s i) :=
  (h.append ":").append (toString i)

theorem Apart.memberID (h : Apart c s) (j : Nat) : Apart c (memberID s j) :=
  (h.append ":m").append (toString j)

theorem Apart.callbackID (h : Apart c s) : Apart c (callbackID s) := h.append ":cb"

end Namespaces

/-! ## Keys of unique locks -/

/-- What the keys of a deployment depend on: its namespace, and the hexadecimal
SHA-256 digest of a payload. -/
structure Keys where
  keyPrefix : String
  sha256 : Bytes → String

/-- The common beginning of all keys of a queue, with the queue as hash tag. -/
def Keys.queueKeyPrefix (k : Keys) (qname : String) : String :=
  k.keyPrefix ++ ":\x7b" ++ qname ++ "\x7d:"

/-- The deduplication lock of a task. -/
def Keys.uniqueKey (k : Keys) (qname suffix : String) : String :=
  k.queueKeyPrefix qname ++ "unique:" ++ suffix

/-- `"<kind>:<sha256(payload) hex>"`. -/
def Keys.uniqueSuffix (k : Keys) (kind : String) (payload : Bytes) : String :=
  kind ++ ":" ++ k.sha256 payload

end ChronosGo
