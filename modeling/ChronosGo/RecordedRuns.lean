import ChronosGo.Interleaving

/-! # Runs with a record of their commands

A reachable configuration does not tell how it was reached.  A `Run` does: it comes
with all commands that were executed, who gave them, what the answer was, and the
world before and after.  What a history justifies is also in the record
(`RecordedIn`), so a statement about a run can name the process that did
something and what that process had done before.

Every reachable configuration is reached by a run (`Machine.exists_run`), and an
invariant of worlds, histories and records is proved as one of worlds and histories
is, step by step (`Discipline.run_invariant`).
-/
namespace Interleaving
variable {C : Type} {R : C → Type} {J σ : Type}

/-- A command that was executed. -/
structure Moment (C : Type) (R : C → Type) (σ : Type) where
  who : Nat
  cmd : C
  reply : R cmd
  before : σ
  after : σ

/-- Process `i` has given this command and got this answer. -/
def Happened (l : List (Moment C R σ)) (i : Nat) (c : C) (r : R c) : Prop :=
  ∃ w w', ⟨i, c, r, w, w'⟩ ∈ l

theorem Happened.cons {l : List (Moment C R σ)} {i : Nat} {c : C} {r : R c} (h : Happened l i c r)
    (μ : Moment C R σ) : Happened (μ :: l) i c r := by
  obtain ⟨w, w', hmem⟩ := h
  exact ⟨w, w', List.mem_cons_of_mem _ hmem⟩

namespace Machine
variable (M : Machine C R J σ)

/-- A run that starts without processes, with the commands that were executed, newest
first. -/
inductive Run (w₀ : σ) : List (Moment C R σ) → Config C R J σ → Prop where
  | boot : Run w₀ [] (M.boot w₀ [])
  | call {l : List (Moment C R σ)} {w w' : σ} {ps : List (Option (Prog C R J Unit))} {i : Nat}
      {c : C} {k : R c → Prog C R J Unit} {r : R c} (h : Run w₀ l ⟨w, ps⟩)
      (hp : ps[i]? = some (some (.call c k))) (he : M.exec i c w r w') :
      Run w₀ (⟨i, c, r, w, w'⟩ :: l) ⟨w', ps.set i (some (k r))⟩
  | fork {l : List (Moment C R σ)} {w : σ} {ps : List (Option (Prog C R J Unit))} {i : Nat} {j : J}
      {p : Prog C R J Unit} (h : Run w₀ l ⟨w, ps⟩) (hp : ps[i]? = some (some (.fork j p))) :
      Run w₀ l ⟨M.give i ps.length j w, ps.set i (some p) ++ [some (M.start j)]⟩
  | spawn {l : List (Moment C R σ)} {w : σ} {ps : List (Option (Prog C R J Unit))} {j : J}
      (h : Run w₀ l ⟨w, ps⟩) (hj : M.spawn j) : Run w₀ l ⟨w, ps ++ [some (M.start j)]⟩
  | env {l : List (Moment C R σ)} {w w' : σ} {ps : List (Option (Prog C R J Unit))}
      (h : Run w₀ l ⟨w, ps⟩) (he : M.env w w') : Run w₀ l ⟨w', ps⟩
  | crash {l : List (Moment C R σ)} {w : σ} {ps : List (Option (Prog C R J Unit))} {i : Nat}
      (h : Run w₀ l ⟨w, ps⟩) (hc : M.crash) : Run w₀ l ⟨w, ps.set i none⟩

variable {M}

/-- Every reachable configuration is reached by a run. -/
theorem exists_run {w₀ : σ} {d : Config C R J σ} (hr : M.Reaches w₀ [] d) :
    ∃ l, M.Run w₀ l d := by
  induction hr with
  | refl => exact ⟨[], .boot⟩
  | tail _ hs ih =>
    obtain ⟨l, hl⟩ := ih
    cases hs with
    | call hp he => exact ⟨_, hl.call hp he⟩
    | fork hp => exact ⟨l, hl.fork hp⟩
    | spawn hj => exact ⟨l, hl.spawn hj⟩
    | env he => exact ⟨l, hl.env he⟩
    | crash hc => exact ⟨l, hl.crash hc⟩

end Machine

/-- What the histories show is in the record. -/
def RecordedIn (l : List (Moment C R σ)) (ps : List (Proc C R J)) : Prop :=
  ∀ (i : Nat) p, ps[i]? = some p → ∀ c r, .call c r ∈ p.hist → Happened l i c r

namespace Discipline
variable {M : Machine C R J σ} {D : Discipline C R J}
variable {l : List (Moment C R σ)} {ps : List (Proc C R J)}

theorem recorded_set {i : Nat} {p : Proc C R J} {e : Event C R J} (h : RecordedIn l ps)
    (hp : ps[i]? = some p) (he : ∀ c r, e = .call c r → Happened l i c r) :
    RecordedIn l (ps.set i ⟨p.job, p.hist ++ [e]⟩) := by
  intro n q hq c r hmem
  by_cases hn : i = n
  · subst hn
    obtain ⟨hlt, -⟩ := List.getElem?_eq_some_iff.mp hp
    rw [List.getElem?_set_self hlt] at hq
    cases hq
    rcases List.mem_append.mp hmem with hmem | hmem
    · exact h i p hp c r hmem
    · exact he c r (List.mem_singleton.mp hmem).symm
  · rw [List.getElem?_set_ne hn] at hq
    exact h n q hq c r hmem

theorem recorded_concat {j : J} (h : RecordedIn l ps) : RecordedIn l (ps ++ [⟨j, []⟩]) := by
  intro n q hq c r hmem
  rcases Nat.lt_or_ge n ps.length with hlt | hge
  · rw [List.getElem?_append_left hlt] at hq
    exact h n q hq c r hmem
  · rw [List.getElem?_append_right hge] at hq
    have hq := List.mem_singleton.mp (List.mem_of_getElem? hq)
    rw [hq] at hmem
    cases hmem

/-- **The invariant rule for runs with a record.** -/
theorem run_invariant (hD : M.Obeys D) {I : List (Moment C R σ) → Trace C R J σ → Prop} {w₀ : σ}
    (h0 : I [] ⟨w₀, []⟩)
    (hcall : ∀ l w w' ps i p c r, I l ⟨w, ps⟩ → RecordedIn l ps → ps[i]? = some p →
      D.call p.job p.hist c → M.exec i c w r w' →
      I (⟨i, c, r, w, w'⟩ :: l) ⟨w', ps.set i ⟨p.job, p.hist ++ [.call c r]⟩⟩)
    (hfork : ∀ l w ps i p j, I l ⟨w, ps⟩ → ps[i]? = some p → D.fork p.job p.hist j →
      I l ⟨M.give i ps.length j w, ps.set i ⟨p.job, p.hist ++ [.fork j]⟩ ++ [⟨j, []⟩]⟩)
    (hspawn : ∀ l w ps j, I l ⟨w, ps⟩ → M.spawn j → I l ⟨w, ps ++ [⟨j, []⟩]⟩)
    (henv : ∀ l w w' ps, I l ⟨w, ps⟩ → M.env w w' → I l ⟨w', ps⟩) {d : Config C R J σ}
    (hr : M.Run w₀ l d) :
    ∃ hs, I l ⟨d.world, hs⟩ ∧ RecordedIn l hs ∧ List.Forall₂ D.Matches d.procs hs := by
  induction hr with
  | boot => exact ⟨[], h0, fun _ _ h => (nomatch h), .nil⟩
  | call _ hp he ih =>
    obtain ⟨hs, hI, hrec, hm⟩ := ih
    obtain ⟨a, ha, hf⟩ := matches_getElem hm hp
    obtain ⟨hc, hk⟩ := hf _ rfl
    refine ⟨_, hcall _ _ _ _ _ _ _ _ hI hrec ha hc he, recorded_set (fun n q hq c r hmem =>
      (hrec n q hq c r hmem).cons _) ha ?_, matches_set hm _ ?_⟩
    · rintro c r ⟨⟩
      exact ⟨_, _, List.mem_cons_self⟩
    · rintro _ ⟨⟩
      exact hk _
  | fork _ hp ih =>
    obtain ⟨hs, hI, hrec, hm⟩ := ih
    obtain ⟨a, ha, hf⟩ := matches_getElem hm hp
    obtain ⟨hj, hk⟩ := hf _ rfl
    refine ⟨_, hm.length_eq ▸ hfork _ _ _ _ _ _ hI ha hj,
      recorded_concat (recorded_set (e := .fork _) hrec ha fun _ _ h => nomatch h),
      List.rel_append (matches_set hm _ ?_) (.cons (matches_start hD _) .nil)⟩
    rintro _ ⟨⟩
    exact hk
  | spawn _ hj ih =>
    obtain ⟨hs, hI, hrec, hm⟩ := ih
    exact ⟨_, hspawn _ _ _ _ hI hj, recorded_concat hrec,
      List.rel_append hm (.cons (matches_start hD _) .nil)⟩
  | env _ he ih =>
    obtain ⟨hs, hI, hrec, hm⟩ := ih
    exact ⟨hs, henv _ _ _ _ hI he, hrec, hm⟩
  | crash _ _ ih =>
    obtain ⟨hs, hI, hrec, hm⟩ := ih
    exact ⟨hs, hI, hrec, matches_crash hm _⟩

end Discipline
end Interleaving
