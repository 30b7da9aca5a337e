import Mathlib.Logic.Relation
import Mathlib.Data.List.Basic
import Mathlib.Data.List.Forall2

/-! # Interleaved programs and their histories

A `Prog` is a sequential program that talks to a shared world through commands:
it has finished, or issues a command and goes on with the reply, or starts
another program and goes on.  A `Machine` runs any number of such programs over
one world.  One command is executed at a time, so a command is atomic and between
two commands of a program anything may happen: commands of the others, moves of
the environment, new programs, a program stopping for good.

Reasoning is split in two.  What one program does is a fact about the program
alone: `Prog.Follows` says that each of its commands is justified by what the
program has already seen, its *history*.  What many programs do together is then
a question about worlds and histories: `Discipline.simulates` replaces each
program by its history, and every run of the machine becomes a run of justified
commands (`Act`).  An invariant of the latter holds in every reachable world
(`Discipline.invariant`).
-/
namespace Interleaving

/-- A program over commands `C`, whose replies have type `R c`, that may start
the programs of jobs `J`. -/
inductive Prog (C : Type) (R : C → Type) (J α : Type) : Type where
  | pure (a : α)
  | call (c : C) (k : R c → Prog C R J α)
  | fork (j : J) (p : Prog C R J α)

/-- What a program can see happening: a command with its reply, or a job it
started. -/
inductive Event (C : Type) (R : C → Type) (J : Type) : Type where
  | call (c : C) (r : R c)
  | fork (j : J)

namespace Prog
variable {C : Type} {R : C → Type} {J α β γ : Type}

/-- Sequential composition. -/
def bind : Prog C R J α → (α → Prog C R J β) → Prog C R J β
  | .pure a, f => f a
  | .call c k, f => .call c fun r => (k r).bind f
  | .fork j p, f => .fork j (p.bind f)

instance : Monad (Prog C R J) where
  pure := .pure
  bind := .bind

/-- Issue one command and return its reply. -/
def cmd (c : C) : Prog C R J (R c) := .call c .pure

/-- Start one job. -/
def go (j : J) : Prog C R J Unit := .fork j (.pure ())

@[simp] theorem pure_eq (a : α) : (Pure.pure a : Prog C R J α) = .pure a := rfl

@[simp] theorem pure_bind (a : α) (f : α → Prog C R J β) :
    (Prog.pure a : Prog C R J α) >>= f = f a := rfl

@[simp] theorem call_bind (c : C) (k : R c → Prog C R J α) (f : α → Prog C R J β) :
    (Prog.call c k) >>= f = .call c fun r => k r >>= f := rfl

theorem bind_assoc (p : Prog C R J α) (f : α → Prog C R J β) (g : β → Prog C R J γ) :
    p >>= f >>= g = p >>= fun a => f a >>= g := by
  induction p with
  | pure a => rfl
  | call c k ih => exact congrArg (Prog.call c) (funext ih)
  | fork j p ih => exact congrArg (Prog.fork j) ih

/-- Every command and every fork of the program is justified by the history
before it, and the program returns only what its history accounts for. -/
def Follows (P : List (Event C R J) → C → Prop) (F : List (Event C R J) → J → Prop)
    (S : List (Event C R J) → α → Prop) : List (Event C R J) → Prog C R J α → Prop
  | h, .pure a => S h a
  | h, .call c k => P h c ∧ ∀ r, (k r).Follows P F S (h ++ [.call c r])
  | h, .fork j p => F h j ∧ p.Follows P F S (h ++ [.fork j])

variable {P : List (Event C R J) → C → Prop} {F : List (Event C R J) → J → Prop}

/-- Sequencing. -/
theorem Follows.bind {S : List (Event C R J) → α → Prop} {T : List (Event C R J) → β → Prop}
    {p : Prog C R J α} {f : α → Prog C R J β} {h : List (Event C R J)}
    (hp : p.Follows P F S h) (hf : ∀ h' a, S h' a → (f a).Follows P F T h') :
    (p >>= f).Follows P F T h := by
  induction p generalizing h with
  | pure a => exact hf h a hp
  | call c k ih => exact ⟨hp.1, fun r => ih r (hp.2 r)⟩
  | fork j p ih => exact ⟨hp.1, ih hp.2⟩

/-- Consequence. -/
theorem Follows.mono {S T : List (Event C R J) → α → Prop} {p : Prog C R J α}
    {h : List (Event C R J)} (hp : p.Follows P F S h) (hST : ∀ h' a, S h' a → T h' a) :
    p.Follows P F T h := by
  induction p generalizing h with
  | pure a => exact hST h a hp
  | call c k ih => exact ⟨hp.1, fun r => ih r (hp.2 r)⟩
  | fork j p ih => exact ⟨hp.1, ih hp.2⟩

/-! A program may be a part of programs over more commands, and a whole program may be
one step of another. -/

section Embed
variable {C' : Type} {R' : C' → Type} {J' : Type}

/-- The program among commands `C'` and jobs `J'`. -/
def embed (f : C → C') (g : (c : C) → R' (f c) → R c) (e : J → J') :
    Prog C R J α → Prog C' R' J' α
  | .pure a => .pure a
  | .call c k => .call (f c) fun r => (k (g c r)).embed f g e
  | .fork j p => .fork (e j) (p.embed f g e)

/-- A program that starts no other keeps, among other commands, what its commands
keep. -/
theorem Follows.embed {S : List (Event C R J) → α → Prop} {P' : List (Event C' R' J') → C' → Prop}
    {F' : List (Event C' R' J') → J' → Prop} {I : List (Event C' R' J') → Prop} {f : C → C'}
    {g : (c : C) → R' (f c) → R c} {e : J → J'} {p : Prog C R J α} {h : List (Event C R J)}
    {h' : List (Event C' R' J')} (hp : p.Follows P (fun _ _ => False) S h) (hI : I h')
    (hcall : ∀ h c, I h → P' h (f c)) (hnext : ∀ h c r, I h → I (h ++ [.call (f c) r])) :
    (p.embed f g e).Follows P' F' (fun h _ => I h) h' := by
  induction p generalizing h h' with
  | pure a => exact hI
  | call c k ih => exact ⟨hcall h' c hI, fun r => ih _ (hp.2 _) (hnext h' c r hI)⟩
  | fork j p ih => exact hp.1.elim

/-- What justifies everything justifies every program. -/
theorem follows_of_forall {S : List (Event C R J) → α → Prop} {I : List (Event C R J) → Prop}
    {p : Prog C R J α} {h : List (Event C R J)} (hI : I h) (hP : ∀ h c, I h → P h c)
    (hF : ∀ h j, I h → F h j) (hS : ∀ h a, I h → S h a) (hnext : ∀ h e, I h → I (h ++ [e])) :
    p.Follows P F S h := by
  induction p generalizing h with
  | pure a => exact hS h a hI
  | call c k ih => exact ⟨hP h c hI, fun r => ih r (hnext h _ hI)⟩
  | fork j p ih => exact ⟨hF h j hI, ih (hnext h _ hI)⟩

/-- The program returns `b` when its commands are answered in some way that `ok` admits. -/
def Yields (ok : (c : C) → R c → Prop) : Prog C R J α → α → Prop
  | .pure a, b => a = b
  | .call c k, b => ∃ r, ok c r ∧ (k r).Yields ok b
  | .fork _ p, b => p.Yields ok b

variable {ok : (c : C) → R c → Prop}

@[simp] theorem yields_pure {a b : α} : (Prog.pure a : Prog C R J α).Yields ok b ↔ a = b := Iff.rfl

@[simp] theorem yields_cmd {c : C} {r : R c} : (cmd c : Prog C R J (R c)).Yields ok r ↔ ok c r := by
  constructor
  · rintro ⟨r', hr, rfl⟩
    exact hr
  · intro hr
    exact ⟨r, hr, rfl⟩

theorem yields_bind {p : Prog C R J α} {f : α → Prog C R J β} {b : β} :
    (p >>= f).Yields ok b ↔ ∃ a, p.Yields ok a ∧ (f a).Yields ok b := by
  induction p with
  | pure a => simp
  | call c k ih =>
    constructor
    · rintro ⟨r, hr, h⟩
      obtain ⟨a, ha, hb⟩ := (ih r).mp h
      exact ⟨a, ⟨r, hr, ha⟩, hb⟩
    · rintro ⟨a, ⟨r, hr, ha⟩, hb⟩
      exact ⟨r, hr, (ih r).mpr ⟨a, ha, hb⟩⟩
  | fork j p ih => exact ih

end Embed

end Prog

/-- Programs started from jobs, over a shared world. -/
structure Machine (C : Type) (R : C → Type) (J σ : Type) where
  /-- The program a job runs. -/
  start : J → Prog C R J Unit
  /-- The jobs that may be started at any time, out of nothing. -/
  spawn : J → Prop
  /-- What a command of process `i` may do to the world, and reply. -/
  exec : Nat → (c : C) → σ → R c → σ → Prop
  /-- Bookkeeping in the world when process `i` hands a job to process `n`. -/
  give : Nat → Nat → J → σ → σ
  /-- What the environment may do. -/
  env : σ → σ → Prop
  /-- Whether a process may stop for good. -/
  crash : Prop

/-- A world and the processes over it, by number; `none` has crashed. -/
structure Config (C : Type) (R : C → Type) (J σ : Type) where
  world : σ
  procs : List (Option (Prog C R J Unit))

/-- A process as its history shows it. -/
structure Proc (C : Type) (R : C → Type) (J : Type) where
  job : J
  hist : List (Event C R J)

/-- A world and the histories of the processes over it. -/
structure Trace (C : Type) (R : C → Type) (J σ : Type) where
  world : σ
  procs : List (Proc C R J)

/-- What the history of a job's process justifies: its commands, the jobs it
starts, and its end. -/
structure Discipline (C : Type) (R : C → Type) (J : Type) where
  call : J → List (Event C R J) → C → Prop
  fork : J → List (Event C R J) → J → Prop
  done : J → List (Event C R J) → Prop

namespace Machine
variable {C : Type} {R : C → Type} {J σ : Type} (M : Machine C R J σ)

/-- The machine at the start of some jobs. -/
def boot (w : σ) (js : List J) : Config C R J σ := ⟨w, js.map fun j => some (M.start j)⟩

/-- One step of the machine. -/
inductive Step : Config C R J σ → Config C R J σ → Prop where
  | call {w w' : σ} {ps : List (Option (Prog C R J Unit))} {i : Nat} {c : C}
      {k : R c → Prog C R J Unit} {r : R c} (hp : ps[i]? = some (some (.call c k)))
      (he : M.exec i c w r w') : Step ⟨w, ps⟩ ⟨w', ps.set i (some (k r))⟩
  | fork {w : σ} {ps : List (Option (Prog C R J Unit))} {i : Nat} {j : J}
      {p : Prog C R J Unit} (hp : ps[i]? = some (some (.fork j p))) :
      Step ⟨w, ps⟩ ⟨M.give i ps.length j w, ps.set i (some p) ++ [some (M.start j)]⟩
  | spawn {w : σ} {ps : List (Option (Prog C R J Unit))} {j : J} (hj : M.spawn j) :
      Step ⟨w, ps⟩ ⟨w, ps ++ [some (M.start j)]⟩
  | env {w w' : σ} {ps : List (Option (Prog C R J Unit))} (he : M.env w w') :
      Step ⟨w, ps⟩ ⟨w', ps⟩
  | crash {w : σ} {ps : List (Option (Prog C R J Unit))} {i : Nat} (hc : M.crash) :
      Step ⟨w, ps⟩ ⟨w, ps.set i none⟩

/-- Any number of steps. -/
def Reachable : Config C R J σ → Config C R J σ → Prop := Relation.ReflTransGen M.Step

/-- Any number of steps from the start of some jobs. -/
abbrev Reaches (w : σ) (js : List J) : Config C R J σ → Prop := M.Reachable (M.boot w js)

/-- One step of the machine in which programs are replaced by their histories:
whatever a history justifies may happen. -/
inductive Act (D : Discipline C R J) : Trace C R J σ → Trace C R J σ → Prop where
  | call {w w' : σ} {ps : List (Proc C R J)} {i : Nat} {p : Proc C R J} {c : C} {r : R c}
      (hp : ps[i]? = some p) (hc : D.call p.job p.hist c) (he : M.exec i c w r w') :
      Act D ⟨w, ps⟩ ⟨w', ps.set i ⟨p.job, p.hist ++ [.call c r]⟩⟩
  | fork {w : σ} {ps : List (Proc C R J)} {i : Nat} {p : Proc C R J} {j : J}
      (hp : ps[i]? = some p) (hf : D.fork p.job p.hist j) :
      Act D ⟨w, ps⟩ ⟨M.give i ps.length j w,
        ps.set i ⟨p.job, p.hist ++ [.fork j]⟩ ++ [⟨j, []⟩]⟩
  | spawn {w : σ} {ps : List (Proc C R J)} {j : J} (hj : M.spawn j) :
      Act D ⟨w, ps⟩ ⟨w, ps ++ [⟨j, []⟩]⟩
  | env {w w' : σ} {ps : List (Proc C R J)} (he : M.env w w') : Act D ⟨w, ps⟩ ⟨w', ps⟩

/-- Every program keeps to the discipline. -/
def Obeys (D : Discipline C R J) : Prop :=
  ∀ j, (M.start j).Follows (D.call j) (D.fork j) (fun h _ => D.done j h) []

variable {M}

/-- Where nothing crashes, every process has its program. -/
theorem Reachable.isSome (hM : ¬ M.crash) {w : σ} {js : List J} {d : Config C R J σ}
    (hr : M.Reaches w js d) : ∀ p ∈ d.procs, p.isSome := by
  have hset : ∀ {ps : List (Option (Prog C R J Unit))} (i : Nat) (q : Prog C R J Unit),
      (∀ p ∈ ps, p.isSome) → ∀ p ∈ ps.set i (some q), p.isSome := by
    intro ps i q h p hp
    rcases List.mem_or_eq_of_mem_set hp with hp | rfl
    · exact h p hp
    · rfl
  have hsnoc : ∀ {ps : List (Option (Prog C R J Unit))} (q : Prog C R J Unit),
      (∀ p ∈ ps, p.isSome) → ∀ p ∈ ps ++ [some q], p.isSome := by
    intro ps q h p hp
    rcases List.mem_append.mp hp with hp | hp
    · exact h p hp
    · rw [List.mem_singleton.mp hp]
      rfl
  induction hr with
  | refl =>
    intro p hp
    obtain ⟨j, -, rfl⟩ := List.mem_map.mp hp
    rfl
  | tail _ hs ih =>
    cases hs with
    | call => exact hset _ _ ih
    | fork => exact hsnoc _ (hset _ _ ih)
    | spawn => exact hsnoc _ ih
    | env => exact ih
    | crash hc => exact absurd hc hM

/-- What the commands, the handovers and the environment keep of the world holds of it in
every reachable configuration, whatever the programs do. -/
theorem Reachable.world_invariant {I : σ → Prop} {c d : Config C R J σ} (hr : M.Reachable c d)
    (h0 : I c.world) (hexec : ∀ i c w r w', I w → M.exec i c w r w' → I w')
    (hgive : ∀ i n j w, I w → I (M.give i n j w)) (henv : ∀ w w', I w → M.env w w' → I w') :
    I d.world := by
  induction hr with
  | refl => exact h0
  | tail _ hs ih =>
    cases hs with
    | call _ he => exact hexec _ _ _ _ _ ih he
    | fork => exact hgive _ _ _ _ ih
    | spawn => exact ih
    | env he => exact henv _ _ ih he
    | crash => exact ih

end Machine

namespace Discipline
variable {C : Type} {R : C → Type} {J σ : Type} {M : Machine C R J σ} (D : Discipline C R J)

/-- A program that has not crashed still follows the discipline, from its history
on. -/
def Matches (p : Option (Prog C R J Unit)) (a : Proc C R J) : Prop :=
  ∀ q, p = some q → q.Follows (D.call a.job) (D.fork a.job) (fun h _ => D.done a.job h) a.hist

variable {D}
variable {ps : List (Option (Prog C R J Unit))} {hs : List (Proc C R J)}
  {p : Option (Prog C R J Unit)} {d : Config C R J σ}

theorem matches_start (hD : M.Obeys D) (j : J) : D.Matches (some (M.start j)) ⟨j, []⟩ := by
  rintro _ ⟨⟩
  exact hD j

theorem matches_set (h : List.Forall₂ D.Matches ps hs) (i : Nat) {a : Proc C R J}
    (ha : D.Matches p a) : List.Forall₂ D.Matches (ps.set i p) (hs.set i a) := by
  induction h generalizing i with
  | nil => exact .nil
  | cons hd tl ih =>
    cases i with
    | zero => exact .cons ha tl
    | succ i => exact .cons hd (ih i)

/-- A process that crashes leaves its history behind. -/
theorem matches_crash (h : List.Forall₂ D.Matches ps hs) (i : Nat) :
    List.Forall₂ D.Matches (ps.set i none) hs := by
  induction h generalizing i with
  | nil => exact .nil
  | cons hd tl ih =>
    cases i with
    | zero => exact .cons (fun _ h => nomatch h) tl
    | succ i => exact .cons hd (ih i)

theorem matches_getElem (h : List.Forall₂ D.Matches ps hs) {i : Nat} (hp : ps[i]? = some p) :
    ∃ a, hs[i]? = some a ∧ D.Matches p a := by
  induction h generalizing i with
  | nil => simp at hp
  | cons hd tl ih =>
    cases i with
    | zero => exact ⟨_, rfl, by simpa using (Option.some.inj hp) ▸ hd⟩
    | succ i => exact ih hp

/-- A step of the machine is a step, or no step, of the histories. -/
theorem step_simulates (hD : M.Obeys D) {c : Config C R J σ}
    (hm : List.Forall₂ D.Matches c.procs hs) (hs' : M.Step c d) :
    ∃ hs', Relation.ReflTransGen (M.Act D) ⟨c.world, hs⟩ ⟨d.world, hs'⟩ ∧
      List.Forall₂ D.Matches d.procs hs' := by
  cases hs' with
  | call hp he =>
    obtain ⟨a, ha, hf⟩ := matches_getElem hm hp
    obtain ⟨hc, hk⟩ := hf _ rfl
    refine ⟨_, .single (.call ha hc he), matches_set hm _ ?_⟩
    rintro _ ⟨⟩
    exact hk _
  | fork hp =>
    obtain ⟨a, ha, hf⟩ := matches_getElem hm hp
    obtain ⟨hj, hk⟩ := hf _ rfl
    rw [hm.length_eq]
    refine ⟨_, .single (.fork ha hj), List.rel_append (matches_set hm _ ?_)
      (.cons (matches_start hD _) .nil)⟩
    rintro _ ⟨⟩
    exact hk
  | spawn hj =>
    exact ⟨_, .single (.spawn hj), List.rel_append hm (.cons (matches_start hD _) .nil)⟩
  | env he => exact ⟨_, .single (.env he), hm⟩
  | crash => exact ⟨hs, .refl, matches_crash hm _⟩

/-- **Simulation.**  A run of disciplined programs is a run of justified
commands. -/
theorem simulates (hD : M.Obeys D) {w : σ} {js : List J} (hr : M.Reaches w js d) :
    ∃ hs, Relation.ReflTransGen (M.Act D) ⟨w, js.map fun j => ⟨j, []⟩⟩ ⟨d.world, hs⟩ ∧
      List.Forall₂ D.Matches d.procs hs := by
  induction hr with
  | refl =>
    refine ⟨_, .refl, ?_⟩
    change List.Forall₂ D.Matches (js.map _) (js.map _)
    rw [List.forall₂_map_left_iff, List.forall₂_map_right_iff]
    exact List.forall₂_same.mpr fun j _ => matches_start hD j
  | tail _ hs ih =>
    obtain ⟨hs₁, hrun, hm⟩ := ih
    obtain ⟨hs₂, hact, hm'⟩ := step_simulates hD hm hs
    exact ⟨hs₂, hrun.trans hact, hm'⟩

/-- **The invariant rule.**  What holds at the start and is kept by every
justified command holds in every reachable configuration. -/
theorem invariant (hD : M.Obeys D) {I : Trace C R J σ → Prop} {w : σ} {js : List J}
    (h0 : I ⟨w, js.map fun j => ⟨j, []⟩⟩) (hstep : ∀ s t, I s → M.Act D s t → I t)
    (hr : M.Reaches w js d) :
    ∃ hs, I ⟨d.world, hs⟩ ∧ List.Forall₂ D.Matches d.procs hs := by
  have hinv : ∀ t, Relation.ReflTransGen (M.Act D) ⟨w, js.map fun j => ⟨j, []⟩⟩ t → I t := by
    intro t ht
    induction ht with
    | refl => exact h0
    | tail _ hact ih => exact hstep _ _ ih hact
  obtain ⟨hs, hrun, hm⟩ := simulates hD hr
  exact ⟨hs, hinv _ hrun, hm⟩

end Discipline

namespace Trace
variable {C : Type} {R : C → Type} {J σ : Type} {M : Machine C R J σ} {D : Discipline C R J}

/-- Where the processes after a step come from: each was there before, possibly with a
shorter history, or was just started. -/
theorem proc_act {s t : Trace C R J σ} (ha : M.Act D s t) {i : Nat} {q : Proc C R J}
    (hq : t.procs[i]? = some q) :
    (∃ p es, s.procs[i]? = some p ∧ q = ⟨p.job, p.hist ++ es⟩) ∨
      i = s.procs.length ∧ q.hist = [] ∧
        (M.spawn q.job ∨ ∃ p ∈ s.procs, D.fork p.job p.hist q.job) := by
  have hkept : s.procs[i]? = some q →
      ∃ p es, s.procs[i]? = some p ∧ q = ⟨p.job, p.hist ++ es⟩ := fun h =>
    ⟨q, [], h, by rw [List.append_nil]⟩
  -- the process that has moved, and those that have not
  have hset : ∀ (n : Nat) (p : Proc C R J) (e : Event C R J), s.procs[n]? = some p →
      (s.procs.set n ⟨p.job, p.hist ++ [e]⟩)[i]? = some q →
      ∃ p es, s.procs[i]? = some p ∧ q = ⟨p.job, p.hist ++ es⟩ := by
    intro n p e hp hq
    by_cases hn : n = i
    · subst hn
      obtain ⟨hlt, -⟩ := List.getElem?_eq_some_iff.mp hp
      rw [List.getElem?_set_self hlt] at hq
      exact ⟨p, [e], hp, (Option.some.inj hq).symm⟩
    · rw [List.getElem?_set_ne hn] at hq
      exact hkept hq
  -- the process that was started, at the end of the list
  have hnew : ∀ (ps : List (Proc C R J)) (j : J), (ps ++ [⟨j, []⟩])[i]? = some q →
      ps[i]? = some q ∨ i = ps.length ∧ q = ⟨j, []⟩ := by
    intro ps j hq
    rcases Nat.lt_trichotomy i ps.length with hlt | rfl | hgt
    · rw [List.getElem?_append_left hlt] at hq
      exact Or.inl hq
    · rw [List.getElem?_concat_length] at hq
      exact Or.inr ⟨rfl, (Option.some.inj hq).symm⟩
    · rw [List.getElem?_eq_none (by simp; omega)] at hq
      cases hq
  cases ha with
  | call hp => exact Or.inl (hset _ _ _ hp hq)
  | @fork w ps n p j hp hf =>
    rcases hnew _ j hq with hq | ⟨hi, rfl⟩
    · exact Or.inl (hset n p _ hp hq)
    · exact Or.inr ⟨by simpa using hi, rfl, Or.inr ⟨p, List.mem_of_getElem? hp, hf⟩⟩
  | @spawn w ps j hj =>
    rcases hnew _ j hq with hq | ⟨hi, rfl⟩
    · exact Or.inl (hkept hq)
    · exact Or.inr ⟨hi, rfl, Or.inl hj⟩
  | env => exact Or.inl (hkept hq)

/-- No process disappears. -/
theorem exists_proc_act {s t : Trace C R J σ} (ha : M.Act D s t) {i : Nat} {p : Proc C R J}
    (hp : s.procs[i]? = some p) : ∃ es, t.procs[i]? = some ⟨p.job, p.hist ++ es⟩ := by
  have hlen : s.procs.length ≤ t.procs.length := by
    cases ha <;> simp
  obtain ⟨hlt, -⟩ := List.getElem?_eq_some_iff.mp hp
  have hq : t.procs[i]? = some t.procs[i] := List.getElem?_eq_getElem (by omega)
  rcases proc_act ha hq with ⟨p', es, hp', heq⟩ | ⟨rfl, -⟩
  · cases hp.symm.trans hp'
    exact ⟨es, heq ▸ hq⟩
  · omega

/-- What the processes know: a fact about each job that was started, and about
each thing a process has seen. -/
def Knows (jobFact : σ → J → Prop) (fact : σ → Event C R J → Prop) (t : Trace C R J σ) : Prop :=
  ∀ p ∈ t.procs, jobFact t.world p.job ∧ ∀ e ∈ p.hist, fact t.world e

/-- **Knowledge is kept** by facts that no step destroys, if each new event and
each new job comes with its fact. -/
theorem Knows.act {jobFact : σ → J → Prop} {fact : σ → Event C R J → Prop} {s t : Trace C R J σ}
    (hk : s.Knows jobFact fact) (ha : M.Act D s t)
    (hjob : ∀ j, jobFact s.world j → jobFact t.world j)
    (hfact : ∀ e, fact s.world e → fact t.world e)
    (hcall : ∀ (i : Nat) (p : Proc C R J) (c : C) (r : R c), s.procs[i]? = some p →
      D.call p.job p.hist c → M.exec i c s.world r t.world → fact t.world (.call c r))
    (hfork : ∀ (i : Nat) (p : Proc C R J) (j : J), s.procs[i]? = some p → D.fork p.job p.hist j →
      fact t.world (.fork j) ∧ jobFact t.world j)
    (hspawn : ∀ j, M.spawn j → jobFact t.world j) : t.Knows jobFact fact := by
  have hold : ∀ p ∈ s.procs, jobFact t.world p.job ∧ ∀ e ∈ p.hist, fact t.world e :=
    fun p hp => ⟨hjob _ (hk p hp).1, fun e he => hfact e ((hk p hp).2 e he)⟩
  -- a process that has just seen one more event
  have hnew : ∀ (i : Nat) (p : Proc C R J) (e : Event C R J), s.procs[i]? = some p →
      fact t.world e → ∀ q ∈ s.procs.set i ⟨p.job, p.hist ++ [e]⟩,
        jobFact t.world q.job ∧ ∀ e ∈ q.hist, fact t.world e := by
    intro i p e hp he q hq
    rcases List.mem_or_eq_of_mem_set hq with hq | rfl
    · exact hold q hq
    · obtain ⟨hj, hh⟩ := hold p (List.mem_of_getElem? hp)
      refine ⟨hj, fun e' he' => ?_⟩
      rcases List.mem_append.mp he' with he' | he'
      · exact hh e' he'
      · rwa [List.mem_singleton.mp he']
  cases ha with
  | call hp hc he => exact hnew _ _ _ hp (hcall _ _ _ _ hp hc he)
  | @fork w ps i p j hp hf =>
    intro q hq
    rcases List.mem_append.mp hq with hq | hq
    · exact hnew i p (.fork j) hp (hfork i p j hp hf).1 q hq
    · rw [List.mem_singleton.mp hq]
      exact ⟨(hfork i p j hp hf).2, fun _ he => absurd he List.not_mem_nil⟩
  | @spawn w ps j hj =>
    intro q hq
    rcases List.mem_append.mp hq with hq | hq
    · exact hold q hq
    · rw [List.mem_singleton.mp hq]
      exact ⟨hspawn j hj, fun _ he => absurd he List.not_mem_nil⟩
  | env => exact hold

/-! What a process has seen may be kept in the world as well, so that a run can be
restricted by it; the two agree. -/

section Views
variable {V : Type} (see : V → (c : C) → R c → V) (v₀ : V)

/-- What a history comes to, one answer after the other. -/
def viewOf (h : List (Event C R J)) : V :=
  h.foldl (fun v e => match e with
    | .call c r => see v c r
    | .fork _ => v) v₀

@[simp] theorem viewOf_call (h : List (Event C R J)) (c : C) (r : R c) :
    viewOf see v₀ (h ++ [.call c r]) = see (viewOf see v₀ h) c r := by
  simp [viewOf]

@[simp] theorem viewOf_fork (h : List (Event C R J)) (j : J) :
    viewOf see v₀ (h ++ [.fork j]) = viewOf see v₀ h := by
  simp [viewOf]

/-- The history of process `i`, empty before it starts. -/
def histOf (t : Trace C R J σ) (i : Nat) : List (Event C R J) := (t.procs[i]?.map Proc.hist).getD []

theorem histOf_eq {t : Trace C R J σ} {i : Nat} {p : Proc C R J} (hp : t.procs[i]? = some p) :
    t.histOf i = p.hist := by
  simp [histOf, hp]

/-- The view of each process in the world is the one its history gives. -/
def Tied (view : σ → Nat → V) (t : Trace C R J σ) : Prop :=
  ∀ i, view t.world i = viewOf see v₀ (t.histOf i)

variable {see v₀} {view : σ → Nat → V}

theorem Tied.init (w : σ) (js : List J) (hw : ∀ i, view w i = v₀) :
    Tied (C := C) (R := R) see v₀ view ⟨w, js.map fun j => ⟨j, []⟩⟩ := by
  intro i
  change view w i = _
  rw [hw]
  cases hj : js[i]? <;> simp [histOf, hj, viewOf]

/-- **Views stay tied to histories**, if an answer is seen by its process and nothing else
is seen. -/
theorem Tied.act {s t : Trace C R J σ} (h : Tied see v₀ view s) (ha : M.Act D s t)
    (hexec : ∀ i c r, M.exec i c s.world r t.world →
      view t.world = Function.update (view s.world) i (see (view s.world i) c r))
    (hgive : ∀ i n j w, view (M.give i n j w) = view w)
    (henv : ∀ w w', M.env w w' → view w' = view w) : Tied see v₀ view t := by
  have happend : ∀ (ps : List (Proc C R J)) (w : σ) (j : J) (i : Nat),
      Trace.histOf ⟨w, ps ++ [⟨j, []⟩]⟩ i = Trace.histOf ⟨w, ps⟩ i := by
    intro ps w j i
    rcases Nat.lt_trichotomy i ps.length with hlt | rfl | hgt
    · simp [histOf, List.getElem?_append_left hlt]
    · simp [histOf]
    · have hgt' : ps.length + 1 ≤ i := hgt
      simp [histOf, List.getElem?_eq_none (Nat.le_of_lt hgt),
        List.getElem?_eq_none (l := ps ++ [⟨j, []⟩]) (by simpa using hgt')]
  intro i
  cases ha with
  | @call w w' ps n p c r hp hc he =>
    have hlt : n < ps.length := (List.getElem?_eq_some_iff.mp hp).1
    change view w' i = _
    rw [hexec n c r he]
    by_cases hi : i = n
    · subst hi
      have hold := h i
      rw [histOf_eq hp] at hold
      rw [Function.update_self, hold]
      simp [histOf, hlt]
    · rw [Function.update_of_ne hi]
      exact (h i).trans (by simp [histOf, List.getElem?_set_ne (Ne.symm hi)])
  | @fork w ps n p j hp hf =>
    have hlt : n < ps.length := (List.getElem?_eq_some_iff.mp hp).1
    change view (M.give n ps.length j w) i = _
    rw [hgive, happend]
    by_cases hi : i = n
    · subst hi
      have hold := h i
      rw [histOf_eq hp] at hold
      rw [hold]
      simp [histOf, hlt]
    · exact (h i).trans (by simp [histOf, List.getElem?_set_ne (Ne.symm hi)])
  | @spawn w ps j hj =>
    rw [happend]
    exact h i
  | env he =>
    rw [henv _ _ he]
    exact h i

end Views

end Trace

/-! ## Replaying a run

A run is determined by choices: which process moves next and what its command is
answered, which job starts, what the environment does.  A `Player` computes the
next configuration from a choice, if the choice can be made.
-/

/-- One choice of a run; `O` are the ways a command can be answered, `E` the moves
of the environment. -/
inductive Choice (O E J : Type) where
  | spawn (j : J)
  | step (i : Nat) (o : O)
  | env (e : E)
  | crash (i : Nat)

/-- How choices are carried out. -/
structure Player (C : Type) (R : C → Type) (J σ O E : Type) where
  start : J → Prog C R J Unit
  give : Nat → Nat → J → σ → σ
  answer : O → Nat → (c : C) → σ → Option (R c × σ)
  env : E → σ → Option σ

namespace Player
variable {C : Type} {R : C → Type} {J σ O E : Type} (P : Player C R J σ O E)

/-- One choice, if it can be made. -/
def apply (c : Config C R J σ) : Choice O E J → Option (Config C R J σ)
  | .spawn j => some ⟨c.world, c.procs ++ [some (P.start j)]⟩
  | .step i o =>
    match c.procs[i]? with
    | some (some (.call cmd k)) =>
      (P.answer o i cmd c.world).map fun a => ⟨a.2, c.procs.set i (some (k a.1))⟩
    | some (some (.fork j p)) =>
      some ⟨P.give i c.procs.length j c.world, c.procs.set i (some p) ++ [some (P.start j)]⟩
    | _ => none
  | .env e => (P.env e c.world).map fun w => ⟨w, c.procs⟩
  | .crash i => some ⟨c.world, c.procs.set i none⟩

/-- Choices in order. -/
def replay (c : Config C R J σ) : List (Choice O E J) → Option (Config C R J σ)
  | [] => some c
  | a :: as => (P.apply c a).bind fun d => replay d as

/-- The choice is open in the machine: the job may be started, processes may crash. -/
def Open (M : Machine C R J σ) : Choice O E J → Prop
  | .spawn j => M.spawn j
  | .crash _ => M.crash
  | _ => True

/-- All choices are open in the machine. -/
def Admits (M : Machine C R J σ) : List (Choice O E J) → Prop
  | [] => True
  | .spawn j :: as => M.spawn j ∧ Admits M as
  | .crash _ :: as => M.crash ∧ Admits M as
  | .step _ _ :: as => Admits M as
  | .env _ :: as => Admits M as

/-- What the player does, the machine can do. -/
structure Sound (M : Machine C R J σ) : Prop where
  start : P.start = M.start
  give : P.give = M.give
  answer : ∀ o i c w a, P.answer o i c w = some a → M.exec i c w a.1 a.2
  env : ∀ e w w', P.env e w = some w' → M.env w w'

variable {P} {M : Machine C R J σ} {c d : Config C R J σ}

theorem Sound.apply (hP : P.Sound M) {a : Choice O E J} (ha : Open M a)
    (h : P.apply c a = some d) : M.Step c d := by
  obtain ⟨w, ps⟩ := c
  cases a with
  | spawn j =>
    cases h
    rw [hP.start]
    exact .spawn ha
  | crash i =>
    cases h
    exact .crash ha
  | env e =>
    obtain ⟨w', hw, rfl⟩ := Option.map_eq_some_iff.mp h
    exact .env (hP.env e w w' hw)
  | step i o =>
    simp only [Player.apply] at h
    split at h
    · rename_i cmd k hp
      obtain ⟨a, ha, rfl⟩ := Option.map_eq_some_iff.mp h
      exact .call hp (hP.answer o i cmd w a ha)
    · rename_i j p hp
      cases h
      rw [hP.start, hP.give]
      exact .fork hp
    · cases h

/-- **A replayed run is a run.** -/
theorem Sound.reachable (hP : P.Sound M) {as : List (Choice O E J)} (hs : Admits M as)
    (h : P.replay c as = some d) : M.Reachable c d := by
  induction as generalizing c with
  | nil =>
    cases h
    exact .refl
  | cons a as ih =>
    obtain ⟨e, he, hd⟩ := Option.bind_eq_some_iff.mp h
    cases a with
    | spawn j => exact .head (hP.apply (a := .spawn j) hs.1 he) (ih hs.2 hd)
    | crash i => exact .head (hP.apply (a := .crash i) hs.1 he) (ih hs.2 hd)
    | step i o => exact .head (hP.apply (a := .step i o) trivial he) (ih hs hd)
    | env t => exact .head (hP.apply (a := .env t) trivial he) (ih hs hd)

/-- What a replayed run shows is true of a configuration that can be reached. -/
theorem Sound.exists_config (hP : P.Sound M) (as : List (Choice O E J)) (hs : Admits M as)
    (c : Config C R J σ) (Q : Config C R J σ → Bool) (h : ((P.replay c as).any Q) = true) :
    ∃ d, M.Reachable c d ∧ Q d = true := by
  cases hd : P.replay c as with
  | none =>
    rw [hd] at h
    cases h
  | some d =>
    rw [hd] at h
    exact ⟨d, hP.reachable hs hd, h⟩

/-- What a replayed run shows is true of a state that can be reached. -/
theorem Sound.exists_reachable (hP : P.Sound M) (as : List (Choice O E J)) (hs : Admits M as)
    (c : Config C R J σ) (Q : σ → Bool) (h : ((P.replay c as).any fun d => Q d.world) = true) :
    ∃ d, M.Reachable c d ∧ Q d.world = true :=
  hP.exists_config as hs c (fun d => Q d.world) h

/-- The same from the start of some jobs. -/
theorem Sound.exists_reaches (hP : P.Sound M) (as : List (Choice O E J)) (hs : Admits M as) (w : σ)
    (js : List J) (Q : σ → Bool)
    (h : ((P.replay (M.boot w js) as).any fun d => Q d.world) = true) :
    ∃ d, M.Reaches w js d ∧ Q d.world = true :=
  hP.exists_reachable as hs _ Q h

end Player
end Interleaving
