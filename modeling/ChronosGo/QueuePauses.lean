import ChronosGo.FetchOrder

/-! # Pausing a queue

Operators pause and resume queues in Redis while a server works; its loop goes by a copy
that it looks up once a second.  With the order of a round this says what they see: which
queue is served before which and that the loop waits only when no queue has work
(`queries_in_order`), how long a change takes to be seen (`pause_seen_in_time`), and that
without pauses the queues come first as often as their weights say (`firsts_by_weight`).
-/
namespace ChronosGo.FetchLoop.Rounds
open Interleaving

variable {s : Server} {fails : Prop} {rounds i : Nat} {paused : List String} {c : Instr}
  {q : String}

/-! ## The server and its operator -/

/-- A server, the set of paused queues in Redis and what the goroutines have seen;
`changed` is a record of when a queue was last paused or resumed. -/
structure World where
  base : FetchLoop.World := {}
  now : Int := 0
  paused : List String := []
  changed : String → Int := fun _ => 0
  view : Nat → View := fun _ => {}

variable {w : World}

namespace World

/-- `PauseQueue`. -/
def pauseQueue (w : World) (q : String) : World :=
  if q ∈ w.paused then w
  else { w with paused := q :: w.paused, changed := Function.update w.changed q w.now }

/-- `ResumeQueue`. -/
def resumeQueue (w : World) (q : String) : World :=
  if q ∈ w.paused then
    { w with paused := w.paused.filter (· ≠ q), changed := Function.update w.changed q w.now }
  else w

/-- The answer of `PausedQueues`: the members in some order, or an error where there can
be one. -/
def PausedQueues (w : World) (fails : Prop) : Option (List String) → Prop
  | none => fails
  | some names => names.Perm w.paused

/-- What the clock and Redis answer. -/
def Answers (w : World) (fails : Prop) : (c : Instr) → c.Reply → Prop
  | .now, t => t = w.now
  | .pausedQueues, names => w.PausedQueues fails names
  | _, _ => True

/-- An answer is seen by its goroutine. -/
def Exec (s : Server) (fails : Prop) (w : World) (i : Nat) (c : Instr) (r : c.Reply) (w' : World) :
    Prop :=
  ∃ b, w.base.Exec s c r b ∧ w.Answers fails c r ∧
    w' = { w with base := b, view := Function.update w.view i ((w.view i).see c r) }

/-- A shutdown begins, time passes, or an operator pauses or resumes a queue. -/
inductive Env (w : World) : World → Prop
  | cancel : Env w { w with base := { w.base with cancelled := true } }
  | pass {t : Int} (ht : w.now ≤ t) : Env w { w with now := t }
  | pauseQueue (q : String) : Env w (w.pauseQueue q)
  | resumeQueue (q : String) : Env w (w.resumeQueue q)

theorem Env.view_eq {w' : World} (h : w.Env w') : w'.view = w.view := by
  cases h with
  | cancel => rfl
  | pass => rfl
  | pauseQueue q =>
    unfold World.pauseQueue
    split <;> rfl
  | resumeQueue q =>
    unfold World.resumeQueue
    split <;> rfl

end World

/-- A server at work while queues are paused and resumed; `fails` says whether a look-up
of the paused queues can fail. -/
def machine (s : Server) (fails : Prop) : Machine Instr Instr.Reply Goroutine World where
  start := Goroutine.start s
  spawn := fun _ => False
  exec := fun i c w r w' => w.Exec s fails i c r w'
  give := fun _ _ j w => { w with base := w.base.give j }
  env := World.Env
  crash := False

/-- A server that starts its loop when some queues are paused. -/
def boot (s : Server) (fails : Prop) (rounds : Nat) (paused : List String) :
    Config Instr Instr.Reply Goroutine World :=
  (machine s fails).boot { paused := paused } [.fetchLoop rounds]

/-- **The goroutines ask in order**, whatever they are answered. -/
theorem obeys_order (s : Server) (fails : Prop) : (machine s fails).Obeys (order s) := by
  intro j
  cases j with
  | fetchLoop rounds =>
    refine ((orderOutline s).fetchLoop rounds _).mono (fun _ h => h) (fun _ _ _ => trivial) [] ?_
    exact rested_init s
  | worker dt => exact ((keeps_worker dt).mono (fun _ h => h) fun _ _ _ => trivial) [] rfl
  | routine j => exact ((keeps_run j.start).mono (fun _ h => h) fun _ _ _ => trivial) [] rfl

variable {d : Config Instr Instr.Reply Goroutine World}

/-- What a goroutine is about to do is allowed at its view. -/
theorem allows_of_reachable (hr : (machine s fails).Reachable (boot s fails rounds paused) d)
    {k : c.Reply → Thread Unit} (hp : d.procs[i]? = some (some (.call c k))) :
    Allows s (d.world.view i) c := by
  have hact : ∀ t t', Trace.Tied View.see {} World.view t → (machine s fails).Act (order s) t t' →
      Trace.Tied View.see {} World.view t' := by
    intro t t' hI hact
    refine hI.act hact ?_ (fun _ _ _ _ => rfl) fun w w' => World.Env.view_eq
    rintro i c r ⟨b, -, -, hw⟩
    rw [hw]
  obtain ⟨hs, htied, hm⟩ := Discipline.invariant (obeys_order s fails)
    (Trace.Tied.init _ _ fun _ => rfl) hact hr
  obtain ⟨a, ha, hfollows⟩ := Discipline.matches_getElem hm hp
  have hview := htied i
  rw [Trace.histOf_eq ha] at hview
  rw [hview]
  exact (hfollows _ rfl).1

/-! ## How old a view can be -/

/-- A batch has a task. -/
theorem tasks_ne_nil {consumer : String} {count : Int} {r : Fetched}
    (h : (dequeueBatch consumer q count).Yields HonoursCount r) : r ≠ .tasks [] := by
  obtain ⟨entries, -, h⟩ := Prog.yields_bind.mp h
  rcases entries with _ | entries
  · cases h
    simp
  dsimp only at h
  split at h
  · cases h
    simp
  obtain ⟨bodies, -, h⟩ := Prog.yields_bind.mp h
  rcases bodies with _ | bodies
  · cases h
    simp
  obtain ⟨-, -, h⟩ := Prog.yields_bind.mp h
  split at h
  · cases h
    simp
  · rename_i hne
    obtain ⟨ok, -, h⟩ := Prog.yields_bind.mp h
    cases ok with
    | false =>
      cases h
      simp
    | true =>
      cases h
      simpa using hne

/-- The readings of a view are in order, and its set of paused queues is the one in Redis
but for the queues that were paused or resumed since it was read. -/
structure Dated (fails : Prop) (w : World) (v : View) : Prop where
  clock : v.clock ≤ w.now
  checked : v.checked ≤ w.now
  read : v.read ≤ v.checked
  second : v.readings = 2 → v.clock ≤ v.checked
  paused : ∀ q, (q ∈ v.paused ↔ q ∈ w.paused) ∨ v.read ≤ w.changed q
  hollow : v.hollow = false
  behind : ¬ fails → v.behind = false

/-- No change is in the future, and every view is dated. -/
structure Fresh (fails : Prop) (w : World) : Prop where
  changed : ∀ q, 0 ≤ w.changed q ∧ w.changed q ≤ w.now
  views : ∀ i, Dated fails w (w.view i)

section Kept
variable {w' : World} {v : View}

theorem Fresh.init (fails : Prop) (paused : List String) : Fresh fails { paused := paused } where
  changed := fun _ => ⟨Int.le_refl _, Int.le_refl _⟩
  views := fun _ =>
    have hzero : zeroTime ≤ 0 := by decide
    ⟨hzero, hzero, Int.le_refl _, fun _ => Int.le_refl _, fun _ => Or.inr hzero, rfl, fun _ => rfl⟩

theorem Dated.time (h : Dated fails w v) : Dated fails w (v.time w.now) := by
  unfold View.time
  split
  · exact ⟨Int.le_refl _, h.checked, h.read, fun h2 => absurd h2 (by simp), h.paused, h.hollow,
      h.behind⟩
  · exact ⟨h.clock, Int.le_refl _, h.read.trans h.checked, fun _ => h.clock, h.paused, h.hollow,
      h.behind⟩

theorem Dated.learn (h : Dated fails w v) {names : Option (List String)}
    (hn : w.PausedQueues fails names) : Dated fails w (v.learn names) := by
  cases names with
  | none =>
    exact ⟨h.clock, h.checked, h.read, h.second, h.paused, h.hollow, fun hno => absurd hn hno⟩
  | some names =>
    exact ⟨h.clock, h.checked, Int.le_refl _, h.second, fun q => Or.inl (List.Perm.mem_iff hn),
      h.hollow, fun _ => rfl⟩

/-- An answer leaves the view dated. -/
theorem Dated.see (h : Dated fails w v) {r : c.Reply} {b : FetchLoop.World}
    (hb : w.base.Exec s c r b) (ha : w.Answers fails c r) : Dated fails w (v.see c r) := by
  cases c with
  | acquire =>
    change Dated fails w (v.enter r)
    unfold View.enter
    split
    · exact ⟨h.clock, h.checked, h.read, fun h2 => absurd h2 (by simp), h.paused, h.hollow,
        h.behind⟩
    · exact h
  | now =>
    change r = w.now at ha
    rw [ha]
    exact h.time
  | pausedQueues => exact h.learn ha
  | dequeueBatch block q count =>
    refine ⟨h.clock, h.checked, h.read, h.second, h.paused, ?_, h.behind⟩
    change (v.hollow || decide (r = .tasks [])) = false
    rw [h.hollow, decide_eq_false (tasks_ne_nil hb.1)]
    rfl
  | ctxDone | ctxErr | slotFor | waitSlotFor | release | semLen | pauseWait | sleep | requeue
  | trackInflight | untrackInflight | routine => exact h

/-- Time passes, and the set changes at most where a change is recorded. -/
theorem Dated.world (h : Dated fails w v) (hnow : w.now ≤ w'.now)
    (hset : ∀ q, ((q ∈ w'.paused ↔ q ∈ w.paused) ∧ w'.changed q = w.changed q) ∨
      w'.changed q = w.now) : Dated fails w' v where
  clock := h.clock.trans hnow
  checked := h.checked.trans hnow
  read := h.read
  second := h.second
  paused := by
    intro q
    rcases hset q with ⟨hmem, hchanged⟩ | hchanged
    · rw [hmem, hchanged]
      exact h.paused q
    · rw [hchanged]
      exact Or.inr (h.read.trans h.checked)
  hollow := h.hollow
  behind := h.behind

theorem Fresh.world (h : Fresh fails w) (hview : w'.view = w.view) (hnow : w.now ≤ w'.now)
    (hset : ∀ q, ((q ∈ w'.paused ↔ q ∈ w.paused) ∧ w'.changed q = w.changed q) ∨
      w'.changed q = w.now) : Fresh fails w' := by
  refine ⟨fun q => ?_, fun i => ?_⟩
  · have hq := h.changed q
    rcases hset q with ⟨-, hchanged⟩ | hchanged
    · rw [hchanged]
      exact ⟨hq.1, hq.2.trans hnow⟩
    · rw [hchanged]
      exact ⟨hq.1.trans hq.2, hnow⟩
  · rw [hview]
    exact (h.views i).world hnow hset

/-- One queue of the set changes now. -/
theorem changed_update {q' : String} (hne : q' ≠ q → (q' ∈ paused ↔ q' ∈ w.paused)) :
    ((q' ∈ paused ↔ q' ∈ w.paused) ∧ Function.update w.changed q w.now q' = w.changed q') ∨
      Function.update w.changed q w.now q' = w.now := by
  by_cases h : q' = q
  · subst h
    exact Or.inr (Function.update_self _ _ _)
  · exact Or.inl ⟨hne h, Function.update_of_ne h _ _⟩

theorem Fresh.env (h : Fresh fails w) (he : w.Env w') : Fresh fails w' := by
  have hsame : ∀ q, ((q ∈ w.paused ↔ q ∈ w.paused) ∧ w.changed q = w.changed q) ∨
      w.changed q = w.now := fun _ => Or.inl ⟨Iff.rfl, rfl⟩
  cases he with
  | cancel => exact h.world rfl (Int.le_refl _) hsame
  | pass ht => exact h.world rfl ht hsame
  | pauseQueue q =>
    unfold World.pauseQueue
    split
    · exact h
    · refine h.world rfl (Int.le_refl _) fun q' => changed_update fun hne => ?_
      rw [List.mem_cons, or_iff_right hne]
  | resumeQueue q =>
    unfold World.resumeQueue
    split
    · refine h.world rfl (Int.le_refl _) fun q' => changed_update fun hne => ?_
      rw [List.mem_filter, and_iff_left (decide_eq_true hne)]
    · exact h

theorem Fresh.exec (h : Fresh fails w) {r : c.Reply} (he : w.Exec s fails i c r w') :
    Fresh fails w' := by
  obtain ⟨b, hb, ha, rfl⟩ := he
  refine ⟨h.changed, fun j => ?_⟩
  have hsame : ∀ {v views}, Dated fails w v → Dated fails { w with base := b, view := views } v :=
    fun hv => hv.world (Int.le_refl _) fun _ => Or.inl ⟨Iff.rfl, rfl⟩
  by_cases hj : j = i
  · subst hj
    change Dated fails _ (Function.update w.view j _ j)
    rw [Function.update_self]
    exact hsame ((h.views j).see hb ha)
  · change Dated fails _ (Function.update w.view i _ j)
    rw [Function.update_of_ne hj]
    exact hsame (h.views j)

/-- **Views stay dated**, in every interleaving. -/
theorem fresh_of_reachable (hr : (machine s fails).Reachable (boot s fails rounds paused) d) :
    Fresh fails d.world :=
  hr.world_invariant (Fresh.init fails paused) (fun _ _ _ _ _ h he => h.exec he)
    (fun _ _ _ _ h => h.world rfl (Int.le_refl _) fun _ => Or.inl ⟨Iff.rfl, rfl⟩)
    fun _ _ h he => h.env he

end Kept

/-! ## What an operator sees -/

section Seen
variable {block : Int} {count : Int} {k : Fetched → Thread Unit}

/-- Whatever queue is asked next, it is in order. -/
theorem asks_of_reachable (hr : (machine s fails).Reachable (boot s fails rounds paused) d)
    (hp : d.procs[i]? = some (some (.call (.dequeueBatch block q count) k))) :
    (d.world.view i).Asks s block q ∧ (d.world.view i).Current ∧ (d.world.view i).Sound := by
  obtain ⟨hasks, hcurrent, hsound⟩ := (allows_of_reachable hr hp).2 block q count rfl
  exact ⟨hasks ((fresh_of_reachable hr).views i).hollow, hcurrent, hsound⟩

/-- **Queues are served in order and the loop does not wait on one while another has
work.**  A queue that is asked is configured and not paused as far as the loop knows.  A
query that does not block is the first of this queue in the round, and every other such
queue ahead of it was asked in the round and had nothing; a query that blocks comes after
all of them were asked and had nothing. -/
theorem queries_in_order (hq : s.cfg.queues.entries ≠ [])
    (hr : (machine s fails).Reachable (boot s fails rounds paused) d)
    (hp : d.procs[i]? = some (some (.call (.dequeueBatch block q count) k))) :
    q ∈ s.queueNames ∧ q ∉ (d.world.view i).paused ∧
      ((block = -1 ∧ q ∉ (d.world.view i).asked ∧
          ∀ q' ∈ s.queueNames, q' ∉ (d.world.view i).paused →
            Ahead s ((d.world.view i).rounds - 1) q' q → q' ∈ (d.world.view i).asked) ∨
        (block = pollBlock ∧
          ∀ q' ∈ s.queueNames, q' ∉ (d.world.view i).paused → q' ∈ (d.world.view i).asked)) := by
  obtain ⟨hasks, -, -⟩ := asks_of_reachable hr hp
  obtain ⟨hname, hpaused⟩ := (mem_roundOrder hq).mp hasks.mem
  refine ⟨hname, hpaused, ?_⟩
  rcases hasks with ⟨hblock, rest, horder⟩ | ⟨hblock, hall, -⟩
  · exact Or.inl ⟨hblock, asked_of_ahead hq horder⟩
  · refine Or.inr ⟨hblock, fun q' hname' hpaused' => ?_⟩
    rw [← hall]
    exact (mem_roundOrder hq).mpr ⟨hname', hpaused'⟩

/-- A change that is an interval old is in the view. -/
theorem paused_iff_of_old (hr : (machine s False).Reachable (boot s False rounds paused) d)
    (hcurrent : (d.world.view i).Current) (hsound : (d.world.view i).Sound) {q' : String}
    (hold : d.world.changed q' + pauseCheckInterval ≤ (d.world.view i).clock) :
    q' ∈ (d.world.view i).paused ↔ q' ∈ d.world.paused := by
  have hdated := (fresh_of_reachable hr).views i
  have hread := hsound (hdated.behind not_false)
  refine (hdated.paused q').resolve_right fun hle => ?_
  have hinterval : 0 < pauseCheckInterval := by decide
  rcases hcurrent with htwo | hlt
  · have hsecond := hdated.second htwo
    omega
  · omega

/-- **A pause is seen within a second.**  If look-ups do not fail, a queue that is paused
is asked only in a round that began less than a second after it was paused; and the loop
blocks in a round that began at least a second after a queue was resumed only if that
queue was asked. -/
theorem pause_seen_in_time (hq : s.cfg.queues.entries ≠ [])
    (hr : (machine s False).Reachable (boot s False rounds paused) d)
    (hp : d.procs[i]? = some (some (.call (.dequeueBatch block q count) k))) :
    (q ∈ d.world.paused → (d.world.view i).clock < d.world.changed q + pauseCheckInterval) ∧
      (block ≠ -1 → ∀ q' ∈ s.queueNames, q' ∉ d.world.paused →
        d.world.changed q' + pauseCheckInterval ≤ (d.world.view i).clock →
          q' ∈ (d.world.view i).asked) := by
  obtain ⟨hasks, hcurrent, hsound⟩ := asks_of_reachable hr hp
  constructor
  · intro hpaused
    by_contra hold
    have hview := (paused_iff_of_old hr hcurrent hsound (Int.not_lt.mp hold)).mpr hpaused
    exact ((mem_roundOrder hq).mp hasks.mem).2 hview
  · intro hblock q' hname hpaused hold
    rcases hasks with ⟨hneg, -⟩ | ⟨-, hall, -⟩
    · exact absurd hneg hblock
    · rw [← hall]
      refine (mem_roundOrder hq).mpr ⟨hname, fun hview => hpaused ?_⟩
      exact (paused_iff_of_old hr hcurrent hsound hold).mp hview

/-- After whole cycles of the picker each queue had its share. -/
theorem count_of_cycles (queues : QueueWeights) {w : Int} (hq : (q, w) ∈ queues.entries) (m : Nat) :
    (((newWRRPicker queues).window 0 (m * (newWRRPicker queues).total.toNat)).count q : Int) =
      m * normalizeWeight w := by
  obtain ⟨j, rfl, hw⟩ := WRRPicker.exists_index queues hq
  have hpos : 0 < queues.entries.length := List.length_pos_of_mem hq
  have htotal := WRRPicker.total_pos queues hpos
  obtain ⟨bs, hbs⟩ := WRRPicker.exists_course (WRRPicker.sized_new queues) hpos
    (WRRPicker.counter_new queues _) (m * (newWRRPicker queues).total.toNat)
  have hshare := hbs.share (WRRPicker.sized_new queues) (WRRPicker.nodup_names queues) j
  rw [WRRPicker.after_cycle, WRRPicker.counter_new, hw] at hshare
  refine mul_right_cancel₀ htotal.ne' ?_
  rw [Pi.zero_apply, add_zero, Nat.cast_mul, Int.toNat_of_nonneg htotal.le] at hshare
  rw [hshare]
  ring

/-- **Queues come first as often as their weights say.**  A loop that goes by the picker
and has seen no paused queue asks first, round after round, the queues that the picker
picks; so after any number of cycles of the picker each queue was asked first in as many
rounds of each cycle as its weight says. -/
theorem firsts_by_weight (hs : s.cfg.strictPriority = false)
    (hr : (machine s fails).Reachable (boot s fails rounds paused) d) {c : Instr}
    {k : c.Reply → Thread Unit} (hp : d.procs[i]? = some (some (.call c k)))
    (hnever : (d.world.view i).everPaused = false) :
    (d.world.view i).firsts =
        (newWRRPicker s.cfg.queues).window 0 (d.world.view i).firsts.length ∧
      (d.world.view i).firsts.length ≤ (d.world.view i).rounds ∧
      (d.world.view i).rounds ≤ (d.world.view i).firsts.length + 1 ∧
      ∀ q w m, (q, w) ∈ s.cfg.queues.entries →
        (d.world.view i).firsts.length = m * (newWRRPicker s.cfg.queues).total.toNat →
          ((d.world.view i).firsts.count q : Int) = m * normalizeWeight w := by
  obtain ⟨n, hle, hge, htally⟩ := (allows_of_reachable hr hp).1
  have hfirsts := htally hs hnever ((fresh_of_reachable hr).views i).hollow
  have hlength : (d.world.view i).firsts.length = n := by simp [hfirsts, WRRPicker.window]
  rw [hlength]
  refine ⟨hfirsts, hge, hle, fun q w m hq hn => ?_⟩
  rw [hfirsts, hn]
  exact count_of_cycles s.cfg.queues hq m

end Seen

/-! An idle server of two queues, one of which is paused for a while. -/

/-- The answers of a run in which no queue has a task. -/
def reply (s : Server) (c : Instr) (w : World) : Option (c.Reply × FetchLoop.World) :=
  match c with
  | .ctxDone => some (w.base.cancelled, w.base)
  | .acquire =>
    if w.base.sem < s.cap then some (true, { w.base with sem := w.base.sem + 1 }) else none
  | .release => if 0 < w.base.sem then some ((), { w.base with sem := w.base.sem - 1 }) else none
  | .semLen => some (w.base.sem, w.base)
  | .now => some (w.now, w.base)
  | .pausedQueues => some (some w.paused, w.base)
  | .dequeueBatch _ _ _ => some (.noTask, { w.base with claimed := w.base.claimed ++ [] })
  | _ => none

/-- What happens around the server. -/
inductive Happening where
  | pass (t : Int)
  | pauseQueue (q : String)
  | resumeQueue (q : String)

def idlePlayer (s : Server) : Player Instr Instr.Reply Goroutine World Unit Happening where
  start := Goroutine.start s
  give := fun _ _ j w => { w with base := w.base.give j }
  answer := fun _ i c w => (reply s c w).map fun a =>
    (a.1, { w with base := a.2, view := Function.update w.view i ((w.view i).see c a.1) })
  env
    | .pass t, w => if w.now ≤ t then some { w with now := t } else none
    | .pauseQueue q, w => some (w.pauseQueue q)
    | .resumeQueue q, w => some (w.resumeQueue q)

theorem yields_noTask (consumer q : String) (count : Int) :
    (dequeueBatch consumer q count).Yields HonoursCount .noTask :=
  Prog.yields_bind.mpr ⟨some [], Prog.yields_cmd.mpr (Nat.zero_le _), rfl⟩

theorem exec_reply (fails : Prop) {a : c.Reply × FetchLoop.World} (h : reply s c w = some a) :
    w.base.Exec s c a.1 a.2 ∧ w.Answers fails c a.1 := by
  cases c with
  | ctxDone | semLen =>
    cases h
    exact ⟨⟨rfl, rfl⟩, trivial⟩
  | now =>
    cases h
    exact ⟨rfl, rfl⟩
  | pausedQueues =>
    cases h
    exact ⟨rfl, List.Perm.refl _⟩
  | acquire =>
    simp only [reply] at h
    split at h
    · rename_i hlt
      cases h
      exact ⟨Or.inl ⟨rfl, hlt, rfl⟩, trivial⟩
    · cases h
  | release =>
    simp only [reply] at h
    split at h
    · rename_i hlt
      cases h
      exact ⟨⟨hlt, rfl⟩, trivial⟩
    · cases h
  | dequeueBatch block q count =>
    cases h
    exact ⟨⟨yields_noTask _ _ _, rfl⟩, trivial⟩
  | _ => cases h

theorem idlePlayer_sound (s : Server) (fails : Prop) : (idlePlayer s).Sound (machine s fails) where
  start := rfl
  give := rfl
  answer := by
    intro _ i c w a h
    obtain ⟨b, hb, rfl⟩ := Option.map_eq_some_iff.mp h
    obtain ⟨hexec, hanswers⟩ := exec_reply fails hb
    exact ⟨b.2, hexec, hanswers, rfl⟩
  env := by
    intro e w w' h
    cases e with
    | pass t =>
      obtain ⟨ht, hw⟩ := Option.ite_none_right_eq_some.mp h
      cases hw
      exact .pass ht
    | pauseQueue q =>
      cases h
      exact .pauseQueue q
    | resumeQueue q =>
      cases h
      exact .resumeQueue q

/-- The query that a goroutine is about to make. -/
def queryOf : Option (Option (Thread Unit)) → Option (Int × String)
  | some (some (.call (.dequeueBatch block q _) _)) => some (block, q)
  | _ => none

theorem exists_of_queryOf {p : Option (Option (Thread Unit))} {block : Int}
    (h : queryOf p = some (block, q)) :
    ∃ count k, p = some (some (.call (.dequeueBatch block q count) k)) := by
  unfold queryOf at h
  split at h
  · cases h
    exact ⟨_, _, rfl⟩
  · cases h

def twoQueues : Server :=
  newServer { queues := ⟨[("a", 2), ("b", 1)], by decide⟩, concurrency := 1 } "c"

/-- So many steps of the loop. -/
def steps (n : Nat) : List (Choice Unit Happening Goroutine) := List.replicate n (.step 0 ())

/-- The lighter queue has its turn after the heavier one had nothing. -/
theorem lighter_queue_second : ∃ d, (machine twoQueues True).Reachable
    (boot twoQueues True 3 []) d ∧
    queryOf d.procs[0]? = some (-1, "b") ∧ "b" ∉ (d.world.view 0).asked ∧
      "a" ∈ (d.world.view 0).asked := by
  obtain ⟨d, hr, hd⟩ := (idlePlayer_sound twoQueues True).exists_config (steps 7)
    trivial (boot twoQueues True 3 [])
    (fun d => decide (queryOf d.procs[0]? = some (-1, "b") ∧ (d.world.view 0).rounds = 1 ∧
      (d.world.view 0).paused = []))
    (by decide +kernel)
  obtain ⟨hnext, hrounds, hpaused⟩ := of_decide_eq_true hd
  obtain ⟨count, k, hp⟩ := exists_of_queryOf hnext
  obtain ⟨-, -, ⟨-, hasked, hahead⟩ | ⟨hblock, -⟩⟩ := queries_in_order (by decide) hr hp
  · refine ⟨d, hr, hnext, hasked, hahead "a" (by decide) ?_ ?_⟩
    · rw [hpaused]
      exact List.not_mem_nil
    · rw [hrounds]
      decide +kernel
  · exact absurd hblock (by decide)

/-- The loop looks up the paused queues, one is paused, and the loop goes on for `n` steps. -/
def pausedRun (n : Nat) : List (Choice Unit Happening Goroutine) :=
  steps 5 ++ .env (.pauseQueue "b") :: steps n

/-- A queue that was paused after the look-up is still asked; two rounds later, after a
second, the loop blocks on the other queue. -/
theorem pause_takes_effect :
    (∃ d, (machine twoQueues False).Reachable (boot twoQueues False 3 []) d ∧
      queryOf d.procs[0]? = some (-1, "b") ∧ "b" ∈ d.world.paused ∧
      (d.world.view 0).clock < d.world.changed "b" + pauseCheckInterval) ∧
    ∃ d, (machine twoQueues False).Reachable (boot twoQueues False 3 []) d ∧
      queryOf d.procs[0]? = some (pollBlock, "a") ∧ "b" ∈ d.world.paused ∧
      "a" ∈ (d.world.view 0).asked := by
  constructor
  · obtain ⟨d, hr, hd⟩ := (idlePlayer_sound twoQueues False).exists_config
      (pausedRun 2) trivial (boot twoQueues False 3 [])
      (fun d => decide (queryOf d.procs[0]? = some (-1, "b") ∧ "b" ∈ d.world.paused))
      (by decide +kernel)
    obtain ⟨hnext, hpaused⟩ := of_decide_eq_true hd
    obtain ⟨count, k, hp⟩ := exists_of_queryOf hnext
    exact ⟨d, hr, hnext, hpaused, (pause_seen_in_time (by decide) hr hp).1 hpaused⟩
  · obtain ⟨d, hr, hd⟩ := (idlePlayer_sound twoQueues False).exists_config
      (pausedRun 5 ++ .env (.pass second) :: steps 7) trivial
      (boot twoQueues False 3 [])
      (fun d => decide (queryOf d.procs[0]? = some (pollBlock, "a") ∧ d.world.paused = ["b"] ∧
        d.world.changed "a" + pauseCheckInterval ≤ (d.world.view 0).clock))
      (by decide +kernel)
    obtain ⟨hnext, hpaused, hold⟩ := of_decide_eq_true hd
    obtain ⟨count, k, hp⟩ := exists_of_queryOf hnext
    have hseen := (pause_seen_in_time (by decide) hr hp).2 (by decide) "a" (by decide)
    rw [hpaused] at hseen
    refine ⟨d, hr, hnext, ?_, hseen (by decide) hold⟩
    rw [hpaused]
    exact List.mem_cons_self

/-- One cycle of the picker in three rounds of the loop. -/
theorem three_rounds_by_weight : ∃ d, (machine twoQueues True).Reachable
    (boot twoQueues True 3 []) d ∧
    (d.world.view 0).firsts.length = 3 ∧ (d.world.view 0).firsts.count "a" = 2 := by
  obtain ⟨d, hr, hd⟩ := (idlePlayer_sound twoQueues True).exists_config (steps 23) trivial
    (boot twoQueues True 3 [])
    (fun d => decide (queryOf d.procs[0]? = some (-1, "b") ∧ (d.world.view 0).firsts.length = 3 ∧
      (d.world.view 0).everPaused = false))
    (by decide +kernel)
  obtain ⟨hnext, hlength, hnever⟩ := of_decide_eq_true hd
  obtain ⟨count, k, hp⟩ := exists_of_queryOf hnext
  obtain ⟨-, -, -, hshare⟩ := firsts_by_weight (by decide) hr hp hnever
  refine ⟨d, hr, hlength, ?_⟩
  have htotal : (newWRRPicker twoQueues.cfg.queues).total.toNat = 3 := by decide
  have hcount := hshare "a" 2 1 (by decide) (by rw [hlength, htotal])
  have hweight : ((1 : Nat) : Int) * normalizeWeight 2 = (2 : Nat) := by decide
  exact Int.ofNat_inj.mp (hcount.trans hweight)

end ChronosGo.FetchLoop.Rounds
