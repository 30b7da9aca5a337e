import ChronosGo.Json
import ChronosGo.Builders

/-! # The codec of task messages, and the rewrite of the callback

`EncodeMessage` and `DecodeMessage` (`internal/base/task.go`) are `json.Marshal`
and `json.Unmarshal` of a struct, so they are given here by the struct tags:
`fields` lists what is written under which name, and `ofFields` reads it back.

The rest of the development stores messages, not documents, and takes the codec as
faithful.  For a message that Go alone writes and reads it is
(`decodeMessage_encodeMessage`).  The callback of a group is read and written by
Lua in between (`groupCompleteCmd`), and there it depends on the integers in the
message: `cjson` prints fourteen digits, so one of fifteen comes back with an
exponent, which no integer field takes.
-/
namespace ChronosGo
open Json Redis

variable {f : String → Value Literal} {l : ChainLink} {m : TaskMessage} {n : Int}

/-! ## Struct tags -/

/-- The `int` behind a state. -/
def TaskState.code : TaskState → Nat
  | .pending => 1
  | .active => 2
  | .completed => 3
  | .retry => 4
  | .archived => 5
  | .scheduled => 6

def TaskState.ofCode : Nat → Option TaskState
  | 1 => some .pending
  | 2 => some .active
  | 3 => some .completed
  | 4 => some .retry
  | 5 => some .archived
  | 6 => some .scheduled
  | _ => none

def readState (v : Value Literal) : Option TaskState := (readNat v).bind TaskState.ofCode

theorem TaskState.ofCode_code (s : TaskState) : TaskState.ofCode s.code = some s := by
  cases s <;> rfl

namespace GroupMemberLink

def fields (m : GroupMemberLink) : List (String × Option (Value Literal)) :=
  [("kind", some (.str m.kind)),
   ("payload", some (bytes m.payload)),
   ("queue", some (.str m.queue)),
   ("max_retry", some (int m.maxRetry)),
   ("retention", omitEmpty 0 int m.retention),
   ("delay", omitEmpty 0 int m.delay)]

def ofFields (f : String → Value Literal) : Option GroupMemberLink := do
  return {
    kind := ← readString (f "kind")
    payload := ← readBytes (f "payload")
    queue := ← readString (f "queue")
    maxRetry := ← readNat (f "max_retry")
    retention := ← readInt (f "retention")
    delay := ← readInt (f "delay") }

def encode (m : GroupMemberLink) : Value Literal := .obj (present m.fields)

def decode : Value Literal → Option GroupMemberLink := readStruct ofFields

/-- The integers of the document. -/
def numbers (m : GroupMemberLink) : List Int :=
  [(m.maxRetry : Int), m.retention, m.delay]

/-- Every field is read as its own, or the reading fails. -/
theorem ofFields_eq_some {m : GroupMemberLink} :
    ofFields f = some m ↔
      readString (f "kind") = some m.kind ∧
      readBytes (f "payload") = some m.payload ∧
      readString (f "queue") = some m.queue ∧
      readNat (f "max_retry") = some m.maxRetry ∧
      readInt (f "retention") = some m.retention ∧
      readInt (f "delay") = some m.delay := by
  cases m
  simp [ofFields, Option.bind_eq_some_iff, -Bool.exists_bool]

theorem keys_nodup (m : GroupMemberLink) : (m.fields.map Prod.fst).Nodup := by
  simp [fields]

end GroupMemberLink

namespace ChainLink

def fields (l : ChainLink) : List (String × Option (Value Literal)) :=
  [("kind", some (.str l.kind)),
   ("payload", some (bytes l.payload)),
   ("queue", some (.str l.queue)),
   ("max_retry", some (int l.maxRetry)),
   ("no_archive", omitEmpty false .bool l.noArchive),
   ("retention", omitEmpty 0 int l.retention),
   ("delay", omitEmpty 0 int l.delay),
   ("group", omitEmpty [] (list GroupMemberLink.encode) l.group)]

def ofFields (f : String → Value Literal) : Option ChainLink := do
  return {
    kind := ← readString (f "kind")
    payload := ← readBytes (f "payload")
    queue := ← readString (f "queue")
    maxRetry := ← readNat (f "max_retry")
    noArchive := ← readBool (f "no_archive")
    retention := ← readInt (f "retention")
    delay := ← readInt (f "delay")
    group := ← readList GroupMemberLink.decode (f "group") }

def encode (l : ChainLink) : Value Literal := .obj (present l.fields)

def decode : Value Literal → Option ChainLink := readStruct ofFields

/-- The integers of the document, those of the members of a parallel stage
included. -/
def numbers (l : ChainLink) : List Int :=
  [(l.maxRetry : Int), l.retention, l.delay] ++ l.group.flatMap GroupMemberLink.numbers

theorem ofFields_eq_some :
    ofFields f = some l ↔
      readString (f "kind") = some l.kind ∧
      readBytes (f "payload") = some l.payload ∧
      readString (f "queue") = some l.queue ∧
      readNat (f "max_retry") = some l.maxRetry ∧
      readBool (f "no_archive") = some l.noArchive ∧
      readInt (f "retention") = some l.retention ∧
      readInt (f "delay") = some l.delay ∧
      readList GroupMemberLink.decode (f "group") = some l.group := by
  cases l
  simp [ofFields, Option.bind_eq_some_iff, -Bool.exists_bool]

theorem keys_nodup (l : ChainLink) : (l.fields.map Prod.fst).Nodup := by
  simp [fields]

end ChainLink

/-- An entry of `group_results`: a `[]byte`, null for nil. -/
def encodeResult : Option Bytes → Value Literal
  | none => .null
  | some b => bytes b

def decodeResult : Value Literal → Option (Option Bytes) := readPointer readBytes

namespace TaskMessage

def fields (m : TaskMessage) : List (String × Option (Value Literal)) :=
  [("id", some (.str m.id)),
   ("kind", some (.str m.kind)),
   ("payload", some (bytes m.payload)),
   ("queue", some (.str m.queue)),
   ("state", some (int m.state.code)),
   ("retried", some (int m.retried)),
   ("max_retry", some (int m.maxRetry)),
   ("no_archive", some (.bool m.noArchive)),
   ("unique_key", some (.str m.uniqueKey)),
   ("last_err", omitEmpty "" .str m.lastErr),
   ("retention", omitEmpty 0 int m.retention),
   ("completed_at", omitEmpty 0 int m.completedAt),
   ("chain", omitEmpty [] (list ChainLink.encode) m.chain),
   ("chain_id", omitEmpty "" .str m.chainID),
   ("chain_index", omitEmpty 0 (fun n : Nat => int n) m.chainIndex),
   ("group_id", omitEmpty "" .str m.groupID),
   ("group_queue", omitEmpty "" .str m.groupQueue),
   ("group_callback", m.groupCallback.map ChainLink.encode),
   ("result", omitEmpty [] bytes m.result),
   ("prev_result", omitEmpty [] bytes m.prevResult),
   ("group_results", omitEmpty [] (list encodeResult) m.groupResults),
   ("group_index", some (int m.groupIndex)),
   ("group_size", omitEmpty 0 (fun n : Nat => int n) m.groupSize),
   ("group_member_id", omitEmpty "" .str m.groupMemberID),
   ("group_cb_chain", omitEmpty [] (list ChainLink.encode) m.groupCallbackChain)]

def ofFields (f : String → Value Literal) : Option TaskMessage := do
  return {
    id := ← readString (f "id")
    kind := ← readString (f "kind")
    payload := ← readBytes (f "payload")
    queue := ← readString (f "queue")
    state := ← readState (f "state")
    retried := ← readNat (f "retried")
    maxRetry := ← readNat (f "max_retry")
    noArchive := ← readBool (f "no_archive")
    uniqueKey := ← readString (f "unique_key")
    lastErr := ← readString (f "last_err")
    retention := ← readInt (f "retention")
    completedAt := ← readInt (f "completed_at")
    chain := ← readList ChainLink.decode (f "chain")
    chainID := ← readString (f "chain_id")
    chainIndex := ← readNat (f "chain_index")
    groupID := ← readString (f "group_id")
    groupQueue := ← readString (f "group_queue")
    groupCallback := ← readPointer ChainLink.decode (f "group_callback")
    result := ← readBytes (f "result")
    prevResult := ← readBytes (f "prev_result")
    groupResults := ← readList decodeResult (f "group_results")
    groupIndex := ← readNat (f "group_index")
    groupSize := ← readNat (f "group_size")
    groupMemberID := ← readString (f "group_member_id")
    groupCallbackChain := ← readList ChainLink.decode (f "group_cb_chain") }

/-- The integers of the document, those of all its links included. -/
def numbers (m : TaskMessage) : List Int :=
  [(m.state.code : Int), m.retried, m.maxRetry, m.retention, m.completedAt, m.chainIndex,
    m.groupIndex, m.groupSize] ++
  (m.chain ++ m.groupCallback.toList ++ m.groupCallbackChain).flatMap ChainLink.numbers

theorem ofFields_eq_some :
    ofFields f = some m ↔
      readString (f "id") = some m.id ∧
      readString (f "kind") = some m.kind ∧
      readBytes (f "payload") = some m.payload ∧
      readString (f "queue") = some m.queue ∧
      readState (f "state") = some m.state ∧
      readNat (f "retried") = some m.retried ∧
      readNat (f "max_retry") = some m.maxRetry ∧
      readBool (f "no_archive") = some m.noArchive ∧
      readString (f "unique_key") = some m.uniqueKey ∧
      readString (f "last_err") = some m.lastErr ∧
      readInt (f "retention") = some m.retention ∧
      readInt (f "completed_at") = some m.completedAt ∧
      readList ChainLink.decode (f "chain") = some m.chain ∧
      readString (f "chain_id") = some m.chainID ∧
      readNat (f "chain_index") = some m.chainIndex ∧
      readString (f "group_id") = some m.groupID ∧
      readString (f "group_queue") = some m.groupQueue ∧
      readPointer ChainLink.decode (f "group_callback") = some m.groupCallback ∧
      readBytes (f "result") = some m.result ∧
      readBytes (f "prev_result") = some m.prevResult ∧
      readList decodeResult (f "group_results") = some m.groupResults ∧
      readNat (f "group_index") = some m.groupIndex ∧
      readNat (f "group_size") = some m.groupSize ∧
      readString (f "group_member_id") = some m.groupMemberID ∧
      readList ChainLink.decode (f "group_cb_chain") = some m.groupCallbackChain := by
  constructor
  · intro h
    unfold ofFields at h
    iterate 25 obtain ⟨_, _, h⟩ := Option.bind_eq_some_iff.mp h
    cases h
    and_intros <;> assumption
  · rintro ⟨h1, h2, h3, h4, h5, h6, h7, h8, h9, h10, h11, h12, h13, h14, h15, h16, h17, h18, h19,
      h20, h21, h22, h23, h24, h25⟩
    simp only [ofFields, h1, h2, h3, h4, h5, h6, h7, h8, h9, h10, h11, h12, h13, h14, h15,
      h16, h17, h18, h19, h20, h21, h22, h23, h24, h25, Option.bind_eq_bind, Option.bind_some,
      Option.pure_def]

theorem keys_nodup (m : TaskMessage) : (m.fields.map Prod.fst).Nodup := by
  simp [fields]

end TaskMessage

/-- `EncodeMessage`. -/
def encodeMessage (m : TaskMessage) : Value Literal := .obj (present m.fields)

/-- `DecodeMessage`; `none` is its error. -/
def decodeMessage : Value Literal → Option TaskMessage := readStruct TaskMessage.ofFields

/-! ## What is read back after a rewriting -/

section Rewritten
variable {g : Value Literal → Value Literal} (hg : Rewriting g)

theorem readState_kept {s : TaskState} (h : g (int s.code) = int s.code) :
    readState (g (int s.code)) = some s := by
  rw [readState, readNat_kept h, Option.bind_some, TaskState.ofCode_code]

include hg

theorem GroupMemberLink.decode_kept {m : GroupMemberLink}
    (h : ∀ n ∈ m.numbers, g (int n) = int n) : decode (g m.encode) = some m := by
  rw [decode, encode, readStruct_rewriting hg m.keys_nodup, ofFields_eq_some]
  simp [written, fields, List.lookup_cons, readString_rewriting hg, readBytes_rewriting hg,
    readNat_kept (h m.maxRetry (by simp [numbers])),
    readInt_omitEmpty hg (h m.retention (by simp [numbers])),
    readInt_omitEmpty hg (h m.delay (by simp [numbers]))]

theorem GroupMemberLink.decode_lost {m : GroupMemberLink} (hn : n ∈ m.numbers)
    (h : readInt (g (int n)) = none) : decode (g m.encode) = none := by
  rw [Option.eq_none_iff_forall_ne_some]
  intro m' hm'
  rw [decode, encode, readStruct_rewriting hg m.keys_nodup, ofFields_eq_some] at hm'
  simp only [written, fields, List.lookup_cons] at hm'
  simp only [numbers, List.mem_cons, List.not_mem_nil, or_false] at hn
  rcases hn with rfl | rfl | rfl
  · simp [readNat_lost h] at hm'
  all_goals simp [readInt_omitEmpty_lost hg h] at hm'

theorem ChainLink.decode_kept (h : ∀ n ∈ l.numbers, g (int n) = int n) :
    decode (g l.encode) = some l := by
  have hgroup : ∀ m ∈ l.group, GroupMemberLink.decode (g m.encode) = some m := fun m hm =>
    GroupMemberLink.decode_kept hg fun n hn =>
      h n (List.mem_append_right _ (List.mem_flatMap.mpr ⟨m, hm, hn⟩))
  rw [decode, encode, readStruct_rewriting hg l.keys_nodup, ofFields_eq_some]
  simp [written, fields, List.lookup_cons, readString_rewriting hg, readBytes_rewriting hg,
    readNat_kept (h l.maxRetry (by simp [numbers])), readBool_omitEmpty hg,
    readInt_omitEmpty hg (h l.retention (by simp [numbers])),
    readInt_omitEmpty hg (h l.delay (by simp [numbers])), readList_omitEmpty hg hgroup]

theorem ChainLink.decode_lost (hn : n ∈ l.numbers) (h : readInt (g (int n)) = none) :
    decode (g l.encode) = none := by
  rw [Option.eq_none_iff_forall_ne_some]
  intro l' hl'
  rw [decode, encode, readStruct_rewriting hg l.keys_nodup, ofFields_eq_some] at hl'
  simp only [written, fields, List.lookup_cons] at hl'
  simp only [numbers, List.mem_append, List.mem_cons, List.not_mem_nil, or_false,
    List.mem_flatMap] at hn
  rcases hn with (rfl | rfl | rfl) | ⟨m, hm, hn⟩
  · simp [readNat_lost h] at hl'
  · simp [readInt_omitEmpty_lost hg h] at hl'
  · simp [readInt_omitEmpty_lost hg h] at hl'
  · have hlost := readList_omitEmpty_lost hg hm (GroupMemberLink.decode_lost hg hn h)
    simp [hlost] at hl'

theorem decodeResult_kept (r : Option Bytes) : decodeResult (g (encodeResult r)) = some r := by
  cases r with
  | none => rw [encodeResult, hg.null]; rfl
  | some b =>
    have hb := readBytes_rewriting hg b
    rw [encodeResult]
    rw [bytes, hg.str] at hb ⊢
    simp [decodeResult, readPointer, hb]

theorem groupCallback_kept {c : Option ChainLink}
    (h : ∀ l ∈ c, ChainLink.decode (g l.encode) = some l) :
    readPointer ChainLink.decode (g ((c.map ChainLink.encode).getD .null)) = some c := by
  cases c with
  | none => rw [Option.map_none, Option.getD_none, hg.null]; rfl
  | some l =>
    have hl := h l rfl
    rw [ChainLink.decode, ChainLink.encode] at hl
    rw [Option.map_some, Option.getD_some, ChainLink.decode, ChainLink.encode,
      readPointer_rewriting hg l.keys_nodup, hl, Option.map_some]

theorem groupCallback_lost (h : ChainLink.decode (g l.encode) = none) :
    readPointer ChainLink.decode (g (((some l).map ChainLink.encode).getD .null)) = none := by
  rw [ChainLink.decode, ChainLink.encode] at h
  rw [Option.map_some, Option.getD_some, ChainLink.decode, ChainLink.encode,
    readPointer_rewriting hg l.keys_nodup, h, Option.map_none]

/-- **A message whose integers are kept is read back as it was written.** -/
theorem decodeMessage_kept (h : ∀ n ∈ m.numbers, g (int n) = int n) :
    decodeMessage (g (encodeMessage m)) = some m := by
  have hlink : ∀ l ∈ m.chain ++ m.groupCallback.toList ++ m.groupCallbackChain,
      ChainLink.decode (g l.encode) = some l := fun l hl =>
    ChainLink.decode_kept hg fun n hn =>
      h n (List.mem_append_right _ (List.mem_flatMap.mpr ⟨l, hl, hn⟩))
  have hchain := readList_omitEmpty hg fun l hl =>
    hlink l (List.mem_append_left _ (List.mem_append_left _ hl))
  have hcallback := groupCallback_kept hg fun l hl =>
    hlink l (List.mem_append_left _ (List.mem_append_right _ (Option.mem_toList.mpr hl)))
  have htail := readList_omitEmpty hg fun l hl => hlink l (List.mem_append_right _ hl)
  have hresults := readList_omitEmpty hg fun r (_ : r ∈ m.groupResults) => decodeResult_kept hg r
  rw [decodeMessage, encodeMessage, readStruct_rewriting hg m.keys_nodup,
    TaskMessage.ofFields_eq_some]
  simp [written, TaskMessage.fields, List.lookup_cons, readString_rewriting hg,
    readBytes_rewriting hg, readBool_rewriting hg, readString_omitEmpty hg, readBytes_omitEmpty hg,
    readState_kept (h m.state.code (by simp [TaskMessage.numbers])),
    readNat_kept (h m.retried (by simp [TaskMessage.numbers])),
    readNat_kept (h m.maxRetry (by simp [TaskMessage.numbers])),
    readInt_omitEmpty hg (h m.retention (by simp [TaskMessage.numbers])),
    readInt_omitEmpty hg (h m.completedAt (by simp [TaskMessage.numbers])),
    readNat_omitEmpty hg (h m.chainIndex (by simp [TaskMessage.numbers])),
    readNat_kept (h m.groupIndex (by simp [TaskMessage.numbers])),
    readNat_omitEmpty hg (h m.groupSize (by simp [TaskMessage.numbers])),
    hchain, hcallback, hresults, htail]

/-- **A message with a lost integer, however deep, is not read at all.** -/
theorem decodeMessage_lost (hn : n ∈ m.numbers) (h : readInt (g (int n)) = none) :
    decodeMessage (g (encodeMessage m)) = none := by
  rw [Option.eq_none_iff_forall_ne_some]
  intro m' hm'
  rw [decodeMessage, encodeMessage, readStruct_rewriting hg m.keys_nodup,
    TaskMessage.ofFields_eq_some] at hm'
  simp only [written, TaskMessage.fields, List.lookup_cons] at hm'
  simp only [TaskMessage.numbers, List.mem_append, List.mem_cons, List.not_mem_nil, or_false,
    List.mem_flatMap, Option.mem_toList] at hn
  rcases hn with (rfl | rfl | rfl | rfl | rfl | rfl | rfl | rfl) | ⟨l, (hl | hl) | hl, hn⟩
  · simp [readState, readNat_lost h] at hm'
  · simp [readNat_lost h] at hm'
  · simp [readNat_lost h] at hm'
  · simp [readInt_omitEmpty_lost hg h] at hm'
  · simp [readInt_omitEmpty_lost hg h] at hm'
  · simp [readNat_omitEmpty_lost hg h] at hm'
  · simp [readNat_lost h] at hm'
  · simp [readNat_omitEmpty_lost hg h] at hm'
  · have hlost := readList_omitEmpty_lost hg hl (ChainLink.decode_lost hg hn h)
    simp [hlost] at hm'
  · have hlost := groupCallback_lost hg (ChainLink.decode_lost hg hn h)
    rw [← hl] at hlost
    simp [hlost] at hm'
  · have hlost := readList_omitEmpty_lost hg hl (ChainLink.decode_lost hg hn h)
    simp [hlost] at hm'

end Rewritten

/-- **What Go encodes, Go decodes.** -/
theorem decodeMessage_encodeMessage (m : TaskMessage) :
    decodeMessage (encodeMessage m) = some m :=
  decodeMessage_kept rewriting_id fun _ _ => rfl

/-! ## The rewrite of the callback -/

/-- The `results` table of `groupCompleteCmd`: what the result hash holds under
each index, null where it holds nothing. -/
def luaResults (fields : List (Nat × Bytes)) (size : Nat) : Value Int :=
  .arr <| (List.range size).map fun i =>
    match hget fields i with
    | some b => .str (Base64.encode b)
    | none => .null

/-- The message that `groupCompleteCmd` stores for the callback. -/
def storedCallback (o : TableOrder) (cb : Value Literal) (fields : List (Nat × Bytes))
    (size : Nat) : Value Literal :=
  if fields ≠ [] ∧ 0 < size then
    Cjson.encode o (Cjson.setField "group_results" (luaResults fields size) (Cjson.decode cb))
  else cb

theorem written_groupResults {rs : List (Option Bytes)} {k : String} (hk : k ≠ "group_results") :
    written ({ m with groupResults := rs } : TaskMessage).fields k = written m.fields k := by
  have hk' : (k == "group_results") = false := beq_eq_false_iff_ne.mpr hk
  simp [written, TaskMessage.fields, List.lookup_cons, hk']

/-- The table of results is what Lua makes of the field that Go would write. -/
theorem encode_luaResults (o : TableOrder) (m : TaskMessage) (fields : List (Nat × Bytes))
    {size : Nat} (h : 0 < size) :
    Cjson.encode o (luaResults fields size) =
      Cjson.reprint o (written ({ m with
        groupResults := (List.range size).map (hget fields) } : TaskMessage).fields
          "group_results") := by
  have hne : (List.range size).map (hget fields) ≠ [] := by
    simp [Nat.ne_of_gt h]
  have hw : written ({ m with
      groupResults := (List.range size).map (hget fields) } : TaskMessage).fields "group_results" =
      list encodeResult ((List.range size).map (hget fields)) := by
    simp only [written, TaskMessage.fields, List.lookup_cons, omitEmpty, if_neg hne]
    rfl
  have hd : Cjson.decode (list encodeResult ((List.range size).map (hget fields))) =
      luaResults fields size := by
    simp only [Cjson.decode, list, Value.map, mapElems_eq, luaResults, List.map_map]
    congr 1
    refine List.map_congr_left fun i _ => ?_
    cases h : hget fields i <;> simp [h, encodeResult, bytes, Value.map]
  rw [hw, Cjson.reprint, hd]

/-- The script stores what Lua would make of the message with the results in it. -/
theorem decodeMessage_rewritten (o : TableOrder) (cb : TaskMessage)
    (fields : List (Nat × Bytes)) {size : Nat} (h : 0 < size) :
    decodeMessage (Cjson.encode o
      (Cjson.setField "group_results" (luaResults fields size) (Cjson.decode (encodeMessage cb)))) =
    decodeMessage (Cjson.reprint o (encodeMessage
      { cb with groupResults := (List.range size).map (hget fields) })) := by
  obtain ⟨fs', hfs, hfield⟩ := Cjson.encode_setField o
    ((keys_present_sublist cb.fields).nodup cb.keys_nodup) "group_results" (luaResults fields size)
  rw [encodeMessage, hfs, decodeMessage, encodeMessage,
    readStruct_rewriting (Cjson.rewriting_reprint o) (TaskMessage.keys_nodup _), readStruct]
  congr 1
  funext k
  rw [hfield, field_present cb.keys_nodup]
  split
  · next hk => rw [hk, encode_luaResults o cb fields h]
  · next hk => exact congrArg _ (written_groupResults hk).symm

/-- **The rewrite of the callback keeps the message exactly when its integers have
at most fourteen digits.** -/
theorem storedCallback_decodes_iff (o : TableOrder) (cb : TaskMessage)
    (fields : List (Nat × Bytes)) (size : Nat) :
    decodeMessage (storedCallback o (encodeMessage cb) fields size) =
        some (Slot.withResults cb fields size) ↔
      (fields ≠ [] ∧ 0 < size → ∀ n ∈ cb.numbers, n.natAbs < 10 ^ 14) := by
  unfold storedCallback Slot.withResults
  split
  · next h =>
    rw [decodeMessage_rewritten o cb fields h.2]
    constructor
    · intro hdec _ n hn
      by_contra hlarge
      have hlost := decodeMessage_lost (Cjson.rewriting_reprint o)
        (m := { cb with groupResults := (List.range size).map (hget fields) }) hn
        (Cjson.readInt_reprint o (not_lt.mp hlarge))
      cases hlost.symm.trans hdec
    · intro hsmall
      exact decodeMessage_kept (Cjson.rewriting_reprint o) fun n hn =>
        Cjson.reprint_int o (hsmall h n hn)
  · next h => exact ⟨fun _ h' => absurd h' h, fun _ => decodeMessage_encodeMessage cb⟩

/-- Fields written in the order in which they were read. -/
def keptOrder : TableOrder where
  arrange fs := fs
  perm fs := .refl fs

/-- The only member of a group. -/
def loneMember : TaskMessage where
  id := "g:m0"
  kind := "fetch"
  payload := [123, 125]
  queue := "default"
  maxRetry := 25
  groupID := "g"
  groupSize := 1

/-- A callback with the default retry budget receives the member's result. -/
theorem default_retry_decodes :
    ∃ link, snapshotChainLink 0 ⟨"report", .ok [123, 125]⟩ [] true = .ok link ∧
      decodeMessage (storedCallback keptOrder
        (encodeMessage (groupCallbackMessage loneMember link)) [(0, [52, 50])] 1) =
      some (Slot.withResults (groupCallbackMessage loneMember link) [(0, [52, 50])] 1) :=
  ⟨_, rfl, (storedCallback_decodes_iff ..).mpr (by decide)⟩

/-- A callback built with `WithMaxRetry(100000000000000)` cannot be decoded once a
member has a result: the worker that reads it finds no message. -/
theorem large_retry_undecodable :
    ∃ link, snapshotChainLink 0 ⟨"report", .ok [123, 125]⟩ [.withMaxRetry 100000000000000] true =
        .ok link ∧
      decodeMessage (storedCallback keptOrder
        (encodeMessage (groupCallbackMessage loneMember link)) [(0, [52, 50])] 1) = none :=
  ⟨_, rfl, by decide +kernel⟩

end ChronosGo
