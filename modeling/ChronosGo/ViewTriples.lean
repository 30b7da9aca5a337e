import ChronosGo.Interleaving

/-! # Pre- and postconditions over what a process has seen

A program is often justified by a summary of its history rather than by the history
itself: a view, which each answer updates.  A `Triple` says that from a view with `P` the
program does only what its view allows, and returns at a view with `Q`.  The rules below
are those of a program logic, one for each construct, so that a program is checked part
by part; at the empty history a triple is the obligation of a discipline.
-/
namespace Interleaving

section Triples
variable {C : Type} {R : C → Type} {J V α β : Type}

/-- The view after a history. -/
def Prog.viewAfter (see : V → Event C R J → V) (v₀ : V) (h : List (Event C R J)) : V :=
  h.foldl see v₀

open Prog (viewAfter)

@[simp] theorem Prog.viewAfter_snoc (see : V → Event C R J → V) (v₀ : V) (h : List (Event C R J))
    (e : Event C R J) : viewAfter see v₀ (h ++ [e]) = see (viewAfter see v₀ h) e :=
  List.foldl_append

/-- A part of a view that is a view of its own. -/
theorem Prog.map_viewAfter {V' : Type} {see : V → Event C R J → V} {see' : V' → Event C R J → V'}
    {v₀ : V} {f : V → V'} (hsee : ∀ v e, f (see v e) = see' (f v) e) (h : List (Event C R J)) :
    f (viewAfter see v₀ h) = viewAfter see' (f v₀) h := by
  induction h generalizing v₀ with
  | nil => rfl
  | cons e h ih => exact ih.trans (congrArg (fun v => viewAfter see' v h) (hsee v₀ e))

/-- A view that only answers change. -/
def Prog.seeCalls (see : V → (c : C) → R c → V) (v : V) : Event C R J → V
  | .call c r => see v c r
  | .fork _ => v

@[simp] theorem Prog.seeCalls_call (see : V → (c : C) → R c → V) (v : V) (c : C) (r : R c) :
    Prog.seeCalls see v (.call c r : Event C R J) = see v c r := rfl

/-- What is justified by more is justified by less. -/
theorem Prog.Follows.weaken {P P' : List (Event C R J) → C → Prop}
    {F F' : List (Event C R J) → J → Prop} {S S' : List (Event C R J) → α → Prop}
    {p : Prog C R J α} {h : List (Event C R J)} (hp : p.Follows P F S h)
    (hP : ∀ h c, P h c → P' h c) (hF : ∀ h j, F h j → F' h j) (hS : ∀ h a, S h a → S' h a) :
    p.Follows P' F' S' h := by
  induction p generalizing h with
  | pure a => exact hS h a hp
  | call c k ih => exact ⟨hP h c hp.1, fun r => ih r (hp.2 r)⟩
  | fork j p ih => exact ⟨hF h j hp.1, ih hp.2⟩

/-- From a view with `P`, the program gives only the commands that `A` and starts only
the jobs that `F` allows at the view it then has, and returns at a view with `Q`. -/
def Triple (see : V → Event C R J → V) (v₀ : V) (A : V → C → Prop) (F : V → J → Prop)
    (P : V → Prop) (p : Prog C R J α) (Q : α → V → Prop) : Prop :=
  ∀ h : List (Event C R J), P (viewAfter see v₀ h) →
    p.Follows (fun h c => A (viewAfter see v₀ h) c) (fun h j => F (viewAfter see v₀ h) j)
      (fun h a => Q a (viewAfter see v₀ h)) h

namespace Triple
variable {see : V → Event C R J → V} {v₀ : V} {A : V → C → Prop} {F : V → J → Prop}
  {P P' : V → Prop} {Q Q' : α → V → Prop}

theorem pure {a : α} (h : ∀ v, P v → Q a v) : Triple see v₀ A F P (.pure a) Q :=
  fun _ hP => h _ hP

theorem bind {p : Prog C R J α} {f : α → Prog C R J β} {T : β → V → Prop}
    (hp : Triple see v₀ A F P p Q) (hf : ∀ a, Triple see v₀ A F (Q a) (f a) T) :
    Triple see v₀ A F P (p >>= f) T :=
  fun h hP => (hp h hP).bind fun h' a hQ => hf a h' hQ

theorem cmd {c : C} {Q : R c → V → Prop} (hc : ∀ v, P v → A v c)
    (hsee : ∀ v r, P v → Q r (see v (.call c r))) : Triple see v₀ A F P (Prog.cmd c) Q := by
  intro h hP
  refine ⟨hc _ hP, fun r => ?_⟩
  change Q r _
  rw [Prog.viewAfter_snoc]
  exact hsee _ r hP

theorem go {j : J} {Q : Unit → V → Prop} (hj : ∀ v, P v → F v j)
    (hsee : ∀ v, P v → Q () (see v (.fork j))) : Triple see v₀ A F P (Prog.go j) Q := by
  intro h hP
  refine ⟨hj _ hP, ?_⟩
  change Q () _
  rw [Prog.viewAfter_snoc]
  exact hsee _ hP

/-- Consequence. -/
theorem mono {p : Prog C R J α} (hp : Triple see v₀ A F P p Q) (hP : ∀ v, P' v → P v)
    (hQ : ∀ a v, Q a v → Q' a v) : Triple see v₀ A F P' p Q' :=
  fun h hv => (hp h (hP _ hv)).mono fun _ a ha => hQ a _ ha

/-- What is said of a part of the view. -/
theorem map {V' : Type} {see' : V' → Event C R J → V'} {A' : V' → C → Prop} {F' : V' → J → Prop}
    {P : V' → Prop} {Q : α → V' → Prop} {f : V → V'} {p : Prog C R J α}
    (hp : Triple see v₀ A F (fun v => P (f v)) p fun a v => Q a (f v))
    (hsee : ∀ v e, f (see v e) = see' (f v) e) (hA : ∀ v c, A v c → A' (f v) c)
    (hF : ∀ v j, F v j → F' (f v) j) : Triple see' (f v₀) A' F' P p Q := by
  intro h hP
  rw [← Prog.map_viewAfter hsee] at hP
  refine (hp h hP).weaken (fun h c hc => ?_) (fun h j hj => ?_) fun h a ha => ?_
  · rw [← Prog.map_viewAfter hsee]
    exact hA _ c hc
  · rw [← Prog.map_viewAfter hsee]
    exact hF _ j hj
  · rw [← Prog.map_viewAfter hsee]
    exact ha

theorem ite {φ : Prop} [Decidable φ] {p q : Prog C R J α} (hp : φ → Triple see v₀ A F P p Q)
    (hq : ¬ φ → Triple see v₀ A F P q Q) : Triple see v₀ A F P (if φ then p else q) Q := by
  split
  · exact hp ‹_›
  · exact hq ‹_›

/-- A program that starts no other keeps what each of its commands keeps. -/
theorem of_commands {K : C → Prop} {S : List (Event C R J) → α → Prop} {h₀ : List (Event C R J)}
    {p : Prog C R J α} (hp : p.Follows (fun _ c => K c) (fun _ _ => False) S h₀)
    (hA : ∀ v c, P v → K c → A v c) (hsee : ∀ v c r, P v → K c → P (see v (.call c r))) :
    Triple see v₀ A F P p fun _ => P := by
  induction p generalizing h₀ with
  | pure a => exact .pure fun _ hP => hP
  | call c k ih =>
    intro h hP
    refine ⟨hA _ c hP hp.1, fun r => ih r (hp.2 r) _ ?_⟩
    rw [Prog.viewAfter_snoc]
    exact hsee _ c r hP hp.1
  | fork j p ih => exact hp.1.elim

/-- A part over other commands keeps what each of its commands and jobs keeps. -/
theorem embed {C' : Type} {R' : C' → Type} {J' : Type} {f : C' → C}
    {g : (c : C') → R (f c) → R' c} {e : J' → J} (p : Prog C' R' J' α)
    (hc : ∀ v c, P v → A v (f c)) (hj : ∀ v j, P v → F v (e j))
    (hcall : ∀ v c r, P v → P (see v (.call (f c) r)))
    (hfork : ∀ v j, P v → P (see v (.fork (e j)))) :
    Triple see v₀ A F P (p.embed f g e) fun _ => P := by
  induction p with
  | pure a => exact .pure fun _ hP => hP
  | call c k ih =>
    intro h hP
    refine ⟨hc _ c hP, fun r => ih _ _ ?_⟩
    rw [Prog.viewAfter_snoc]
    exact hcall _ c r hP
  | fork j p ih =>
    intro h hP
    refine ⟨hj _ j hP, ih _ ?_⟩
    rw [Prog.viewAfter_snoc]
    exact hfork _ j hP

/-- A part over other commands keeps what those of its commands and jobs keep that it
uses. -/
theorem embed_commands {C' : Type} {R' : C' → Type} {J' : Type} {f : C' → C}
    {g : (c : C') → R (f c) → R' c} {e : J' → J} {K : C' → Prop} {G : J' → Prop}
    {S : List (Event C' R' J') → α → Prop} {h₀ : List (Event C' R' J')} {p : Prog C' R' J' α}
    (hp : p.Follows (fun _ c => K c) (fun _ j => G j) S h₀)
    (hc : ∀ v c, P v → K c → A v (f c)) (hj : ∀ v j, P v → G j → F v (e j))
    (hcall : ∀ v c r, P v → K c → P (see v (.call (f c) r)))
    (hfork : ∀ v j, P v → G j → P (see v (.fork (e j)))) :
    Triple see v₀ A F P (p.embed f g e) fun _ => P := by
  induction p generalizing h₀ with
  | pure a => exact .pure fun _ hP => hP
  | call c k ih =>
    intro h hP
    refine ⟨hc _ c hP hp.1, fun r => ih _ (hp.2 _) _ ?_⟩
    rw [Prog.viewAfter_snoc]
    exact hcall _ c r hP hp.1
  | fork j p ih =>
    intro h hP
    refine ⟨hj _ j hP hp.1, ih hp.2 _ ?_⟩
    rw [Prog.viewAfter_snoc]
    exact hfork _ j hP hp.1

end Triple

end Triples

end Interleaving
