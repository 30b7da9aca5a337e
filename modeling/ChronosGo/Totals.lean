import ChronosGo.Interleaving
import Mathlib.Algebra.BigOperators.Group.List.Basic
import Mathlib.Tactic.Abel

/-! # Bookkeeping over all processes

A shared counter is often the sum of what the processes hold of it: permits of a
semaphore, entries of a wait group, items taken and not yet handed on.  `total` adds up a
share of each process, and `InBalance.act` is the rule by which the sum stays equal to the
counter: each command changes both sides by the same amount.  The shares may be in any
commutative monoid with cancellation, so that counts and multisets are alike.
-/
namespace Interleaving

section Totals
variable {A X : Type} [AddCommMonoid X]

/-- The shares of all processes together. -/
def total (share : A → X) (ps : List A) : X := (ps.map share).sum

variable {share : A → X} {ps : List A} {i : Nat} {p : A}

theorem total_append (share : A → X) (ps : List A) (p : A) :
    total share (ps ++ [p]) = total share ps + share p := by
  simp [total]

/-- How the sum changes when one process moves. -/
theorem total_set (hp : ps[i]? = some p) (p' : A) :
    total share (ps.set i p') + share p = total share ps + share p' := by
  induction ps generalizing i with
  | nil => simp at hp
  | cons q ps ih =>
    cases i with
    | zero =>
      obtain rfl : q = p := Option.some.inj hp
      change share p' + total share ps + share q = share q + total share ps + share p'
      rw [add_comm (share p'), add_assoc, add_comm (share p'), ← add_assoc,
        add_comm (total share ps)]
    | succ n =>
      change share q + total share (ps.set n p') + share p = share q + total share ps + share p'
      rw [add_assoc, ih hp, add_assoc]

theorem total_eq_zero (h : ∀ p ∈ ps, share p = 0) : total share ps = 0 :=
  List.sum_eq_zero (by simpa using h)

/-- What one process holds is part of the sum. -/
theorem total_eq_add (share : A → X) (hp : p ∈ ps) : ∃ x, total share ps = share p + x := by
  obtain ⟨before, after, rfl⟩ := List.append_of_mem hp
  refine ⟨total share before + total share after, ?_⟩
  simp only [total, List.map_append, List.map_cons, List.sum_append, List.sum_cons]
  abel

end Totals

section Balance
variable {C : Type} {R : C → Type} {J σ X : Type} [AddCommMonoid X] [IsCancelAdd X]
  {M : Machine C R J σ} {D : Discipline C R J}

/-- What the world has taken in is what it has given out and what the processes hold. -/
def InBalance (taken given : σ → X) (share : Proc C R J → X) (t : Trace C R J σ) : Prop :=
  taken t.world = given t.world + total share t.procs

variable {taken given : σ → X} {share : Proc C R J → X} {s t : Trace C R J σ}

/-- The arithmetic of one move: a process goes from share `x` to `x'` and leaves `e` to a
new one. -/
theorem balance_move {a a' g g' T T' x x' e : X} (h : a = g + T) (hset : T' + x = T + x')
    (hmove : a' + g + x = a + g' + (x' + e)) : a' = g' + (T' + e) := by
  refine add_right_cancel (b := g + x) ?_
  calc a' + (g + x) = a' + g + x := by abel
    _ = g + g' + (T + x') + e := by rw [hmove, h]; abel
    _ = g' + (T' + e) + (g + x) := by rw [← hset]; abel

/-- **The balance is kept** if each command, each start and each move of the environment
keeps it, and nothing starts with a share of its own. -/
theorem InBalance.act (h : InBalance taken given share s) (ha : M.Act D s t)
    (hcall : ∀ (i : Nat) (p : Proc C R J) (c : C) (r : R c) (w' : σ), s.procs[i]? = some p →
      D.call p.job p.hist c → M.exec i c s.world r w' →
        taken w' + given s.world + share p =
          taken s.world + given w' + share ⟨p.job, p.hist ++ [.call c r]⟩)
    (hfork : ∀ (i n : Nat) (p : Proc C R J) (j : J), s.procs[i]? = some p →
      D.fork p.job p.hist j →
        taken (M.give i n j s.world) + given s.world + share p =
          taken s.world + given (M.give i n j s.world) +
            (share ⟨p.job, p.hist ++ [.fork j]⟩ + share ⟨j, []⟩))
    (hspawn : ∀ j, M.spawn j → share ⟨j, []⟩ = 0)
    (henv : ∀ w', M.env s.world w' → taken w' = taken s.world ∧ given w' = given s.world) :
    InBalance taken given share t := by
  cases ha with
  | @call w w' ps i p c r hp hc he =>
    have hmove : taken w' + given w + share p =
        taken w + given w' + (share ⟨p.job, p.hist ++ [.call c r]⟩ + 0) :=
      (hcall i p c r w' hp hc he).trans (by rw [add_zero])
    have hnew := balance_move h (total_set hp _) hmove
    rwa [add_zero] at hnew
  | @fork w ps i p j hp hf =>
    have hnew := balance_move h (total_set hp _) (hfork i ps.length p j hp hf)
    rwa [← total_append] at hnew
  | @spawn w ps j hj =>
    change taken w = given w + total share (ps ++ [_])
    rw [total_append, hspawn j hj, add_zero]
    exact h
  | env he =>
    obtain ⟨htaken, hgiven⟩ := henv _ he
    change taken _ = given _ + _
    rw [htaken, hgiven]
    exact h

end Balance

section Each
variable {C : Type} {R : C → Type} {J σ : Type} {M : Machine C R J σ} {D : Discipline C R J}
  {s t : Trace C R J σ} {K : σ → Proc C R J → Prop}

/-- **A fact of each process is kept** if no step destroys it, whoever moves comes to have
it again, and whoever starts has it. -/
theorem Trace.forall_act (h : ∀ p ∈ s.procs, K s.world p) (ha : M.Act D s t)
    (hkept : ∀ p, K s.world p → K t.world p)
    (hcall : ∀ (i : Nat) (p : Proc C R J) (c : C) (r : R c), D.call p.job p.hist c →
      M.exec i c s.world r t.world → K s.world p → K t.world ⟨p.job, p.hist ++ [.call c r]⟩)
    (hfork : ∀ (p : Proc C R J) (j : J), D.fork p.job p.hist j → K s.world p →
      K t.world ⟨p.job, p.hist ++ [.fork j]⟩ ∧ K t.world ⟨j, []⟩)
    (hspawn : ∀ j, M.spawn j → K t.world ⟨j, []⟩) : ∀ p ∈ t.procs, K t.world p := by
  intro q hq
  cases ha with
  | call hp hc he =>
    rcases List.mem_or_eq_of_mem_set hq with hq | rfl
    · exact hkept q (h q hq)
    · exact hcall _ _ _ _ hc he (h _ (List.mem_of_getElem? hp))
  | fork hp hf =>
    rcases List.mem_append.mp hq with hq | hq
    · rcases List.mem_or_eq_of_mem_set hq with hq | rfl
      · exact hkept q (h q hq)
      · exact (hfork _ _ hf (h _ (List.mem_of_getElem? hp))).1
    · obtain rfl := List.mem_singleton.mp hq
      exact (hfork _ _ hf (h _ (List.mem_of_getElem? hp))).2
  | spawn hj =>
    rcases List.mem_append.mp hq with hq | hq
    · exact hkept q (h q hq)
    · obtain rfl := List.mem_singleton.mp hq
      exact hspawn _ hj
  | env => exact hkept q (h q hq)

end Each

end Interleaving
