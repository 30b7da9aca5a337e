import ChronosGo.Interleaving

/-! # Programs that run alone

A program that no other program interrupts can be reasoned about with pre- and
postconditions.  Only the environment moves in between, so an assertion has to be
stable under its moves; `Solo.pure`, `Solo.call` and `Solo.bind` are the rules for
the three forms of a program, and `Solo.follows` keeps an invariant of all commands
a program can issue.
-/
namespace Interleaving

/-- Run a program that starts no other, with given answers to its commands. -/
def Prog.execute {C : Type} {R : C → Type} {J σ α : Type} (answer : (c : C) → σ → R c × σ) :
    Prog C R J α → σ → Option (α × σ)
  | .pure a, w => some (a, w)
  | .call c k, w => (k (answer c w).1).execute answer (answer c w).2
  | .fork _ _, _ => none

namespace Machine
variable {C : Type} {R : C → Type} {J σ : Type} (M : Machine C R J σ)

/-- A program of process `i` runs from a world to its end, with nothing but moves of
the environment in between. -/
inductive Alone {α : Type} (i : Nat) : Prog C R J α → σ → α → σ → Prop where
  | pure (a : α) (w : σ) : Alone i (.pure a) w a w
  | call {c : C} {k : R c → Prog C R J α} {w w₁ w₂ : σ} {r : R c} {a : α}
      (he : M.exec i c w r w₁) (hk : Alone i (k r) w₁ a w₂) : Alone i (.call c k) w a w₂
  | env {p : Prog C R J α} {w w₁ w₂ : σ} {a : α} (he : M.env w w₁) (hp : Alone i p w₁ a w₂) :
      Alone i p w a w₂

/-- The environment does not disturb an assertion. -/
def Stable (P : σ → Prop) : Prop := ∀ w w', P w → M.env w w' → P w'

/-- Started alone where `P` holds, the program ends where `Q` holds. -/
def Solo {α : Type} (i : Nat) (P : σ → Prop) (p : Prog C R J α) (Q : α → σ → Prop) : Prop :=
  ∀ w a w', P w → M.Alone i p w a w' → Q a w'

variable {M} {α β : Type} {i : Nat} {P : σ → Prop}
variable {p : Prog C R J α} {Q : α → σ → Prop} {f : α → Prog C R J β}

/-- A fact that does not depend on the world is a hypothesis. -/
theorem Solo.of_and {φ : Prop} (h : φ → M.Solo i P p Q) :
    M.Solo i (fun w => φ ∧ P w) p Q := fun w a w' hw hrun => h hw.1 w a w' hw.2 hrun

theorem Solo.of_exists {ι : Type} {P : ι → σ → Prop} (h : ∀ x, M.Solo i (P x) p Q) :
    M.Solo i (fun w => ∃ x, P x w) p Q :=
  fun w a w' ⟨x, hx⟩ hrun => h x w a w' hx hrun

/-- Consequence. -/
theorem Solo.mono {Q' : α → σ → Prop} (h : M.Solo i P p Q) (hQ : ∀ a w, Q a w → Q' a w) :
    M.Solo i P p Q' := fun w a w' hw hrun =>
  hQ a w' (h w a w' hw hrun)

theorem Solo.pure {a : α} (hP : M.Stable P) (h : ∀ w, P w → Q a w) :
    M.Solo i P (.pure a) Q := by
  intro w b w' hw hrun
  generalize hp : (Prog.pure a : Prog C R J α) = p at hrun
  induction hrun with
  | pure b w =>
    cases hp
    exact h w hw
  | call _ _ ih => cases hp
  | env he _ ih => exact ih (hP _ _ hw he) hp

theorem Solo.call {c : C} {k : R c → Prog C R J α} (Mid : R c → σ → Prop) (hP : M.Stable P)
    (hc : ∀ w r w', P w → M.exec i c w r w' → Mid r w') (hk : ∀ r, M.Solo i (Mid r) (k r) Q) :
    M.Solo i P (.call c k) Q := by
  intro w b w' hw hrun
  generalize hp : Prog.call c k = p at hrun
  induction hrun with
  | pure b w => cases hp
  | call he hrun ih =>
    cases hp
    exact hk _ _ _ _ (hc _ _ _ hw he) hrun
  | env he _ ih => exact ih (hP _ _ hw he) hp

/-- A run of a sequence is a run of its first part and one of the second. -/
theorem Alone.bind_inv {w w' : σ} {b : β} (h : M.Alone i (p >>= f) w b w') :
    ∃ a w₁, M.Alone i p w a w₁ ∧ M.Alone i (f a) w₁ b w' := by
  generalize hq : p >>= f = q at h
  induction h generalizing p with
  | pure b w =>
    cases p with
    | pure a =>
      rw [Prog.pure_bind] at hq
      exact ⟨a, w, .pure a w, hq ▸ .pure b w⟩
    | call c k => cases hq
    | fork j p => cases hq
  | @call c k w w₁ w₂ r b he hk ih =>
    cases p with
    | pure a =>
      rw [Prog.pure_bind] at hq
      exact ⟨a, w, .pure a w, hq ▸ .call he hk⟩
    | call c k =>
      cases hq
      obtain ⟨a, w₃, hp, hf⟩ := ih rfl
      exact ⟨a, w₃, .call he hp, hf⟩
    | fork j p => cases hq
  | env he h ih =>
    obtain ⟨a, w₃, hp, hf⟩ := ih hq
    exact ⟨a, w₃, .env he hp, hf⟩

/-- Runs of two parts make a run of the sequence. -/
theorem Alone.bind {w w₁ w₂ : σ} {a : α} {b : β} (hp : M.Alone i p w a w₁)
    (hf : M.Alone i (f a) w₁ b w₂) : M.Alone i (p >>= f) w b w₂ := by
  induction hp with
  | pure => exact hf
  | call he _ ih => exact .call he (ih hf)
  | env he _ ih => exact .env he (ih hf)

theorem Solo.bind {Mid : α → σ → Prop} {Q : β → σ → Prop} (hp : M.Solo i P p Mid)
    (hf : ∀ a, M.Solo i (Mid a) (f a) Q) :
    M.Solo i P (p >>= f) Q := by
  intro w b w' hw hrun
  obtain ⟨a, w₁, hpa, hfb⟩ := hrun.bind_inv
  exact hf a _ _ _ (hp _ _ _ hw hpa) hfb

/-- What the environment and every command that can be justified keep, a program whose
commands are justified keeps. -/
theorem Solo.follows {K : List (Event C R J) → C → Prop} {F : List (Event C R J) → J → Prop}
    {S : List (Event C R J) → α → Prop} {h : List (Event C R J)} (hp : p.Follows K F S h)
    (hP : M.Stable P) (hstep : ∀ h c, K h c → ∀ w r w', P w → M.exec i c w r w' → P w') :
    M.Solo i P p (fun _ => P) := by
  intro w a w' hw hrun
  induction hrun generalizing h with
  | pure => exact hw
  | call he _ ih => exact ih (hp.2 _) (hstep _ _ hp.1 _ _ _ hw he)
  | env he _ ih => exact ih hp (hP _ _ hw he)

/-- A program executed with answers that the machine can give, in worlds of a kind that the
answers keep, runs alone and ends in such a world. -/
theorem alone_of_execute {answer : (c : C) → σ → R c × σ}
    (hanswer : ∀ c w, P w → M.exec i c w (answer c w).1 (answer c w).2 ∧ P (answer c w).2)
    {w w' : σ} {a : α} (hw : P w) (h : p.execute answer w = some (a, w')) :
    M.Alone i p w a w' ∧ P w' := by
  induction p generalizing w with
  | pure b =>
    cases h
    exact ⟨.pure _ _, hw⟩
  | call c k ih =>
    obtain ⟨he, hnext⟩ := hanswer c w hw
    obtain ⟨hrun, hend⟩ := ih _ hnext h
    exact ⟨.call he hrun, hend⟩
  | fork j p ih => cases h

end Machine
end Interleaving
