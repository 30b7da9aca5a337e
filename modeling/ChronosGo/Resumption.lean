import Mathlib.Data.List.Nodup

/-! # Loops that can be started again

A loop goes over its items, takes those that are pending when it starts, and works on
them one after another.  Working on an item either settles it, so that it is no longer
pending, or leaves it pending with nothing more to do for it.  Such a loop may be cut off
after any of its steps and started again: it ends as if it had not been cut off
(`Loop.resume`).  When it ends, every item that is still pending has nothing to be done for
it (`Loop.idle_run`).
-/
namespace Resumption

/-- A loop over items, and what makes it one that can be started again. -/
structure Loop (σ α : Type) where
  items : List α
  step : σ → α → σ
  pending : σ → α → Bool
  /-- Nothing is to be done for the item. -/
  idle : σ → α → Prop
  valid : σ → Prop
  nodup : items.Nodup
  valid_step : ∀ {s a}, valid s → a ∈ items → pending s a → valid (step s a)
  pending_step : ∀ {s a b}, valid s → a ∈ items → pending s a → b ∈ items → b ≠ a →
    pending (step s a) b = pending s b
  idle_self : ∀ {s a}, valid s → a ∈ items → pending s a → pending (step s a) a → idle (step s a) a
  idle_step : ∀ {s a b}, valid s → a ∈ items → pending s a → b ∈ items → b ≠ a → idle s b →
    idle (step s a) b
  step_idle : ∀ {s a}, idle s a → step s a = s

namespace Loop
variable {σ α : Type} (L : Loop σ α) {s : σ} {xs : List α}

/-- The items the loop takes. -/
def todo (s : σ) : List α := L.items.filter (L.pending s)

/-- The loop works on these items. -/
def run (s : σ) (xs : List α) : σ := xs.foldl L.step s

/-- Items that the loop may work on from here. -/
structure Due (s : σ) (xs : List α) : Prop where
  nodup : xs.Nodup
  mem : ∀ a ∈ xs, a ∈ L.items
  pending : ∀ a ∈ xs, L.pending s a

variable {L}

theorem due_todo (s : σ) : L.Due s (L.todo s) :=
  ⟨L.nodup.filter _, fun _ ha => (List.mem_filter.mp ha).1, fun _ ha => (List.mem_filter.mp ha).2⟩

theorem Due.sublist {ys : List α} (h : L.Due s xs) (hs : ys.Sublist xs) : L.Due s ys :=
  ⟨h.nodup.sublist hs, fun a ha => h.mem a (hs.subset ha), fun a ha => h.pending a (hs.subset ha)⟩

/-- The items after the first are still due when the first has been worked on. -/
theorem Due.tail {a : α} (h : L.Due s (a :: xs)) (hs : L.valid s) : L.Due (L.step s a) xs := by
  obtain ⟨hnew, hnd⟩ := List.nodup_cons.mp h.nodup
  refine ⟨hnd, fun b hb => h.mem b (List.mem_cons_of_mem _ hb), fun b hb => ?_⟩
  have hne : b ≠ a := fun heq => hnew (heq ▸ hb)
  rw [L.pending_step hs (h.mem a List.mem_cons_self) (h.pending a List.mem_cons_self)
    (h.mem b (List.mem_cons_of_mem _ hb)) hne]
  exact h.pending b (List.mem_cons_of_mem _ hb)

/-- What holds at the start and is kept by work on the items holds in the end. -/
theorem run_keeps {D : σ → Prop} (hs : L.valid s) (h : L.Due s xs)
    (hstep : ∀ s a, L.valid s → a ∈ xs → L.pending s a → D s → D (L.step s a)) (hD : D s) :
    D (L.run s xs) := by
  induction xs generalizing s with
  | nil => exact hD
  | cons a xs ih =>
    have ha : a ∈ a :: xs := List.mem_cons_self
    exact ih (L.valid_step hs (h.mem a ha) (h.pending a ha)) (h.tail hs)
      (fun s b hs hb => hstep s b hs (List.mem_cons_of_mem _ hb))
      (hstep s a hs ha (h.pending a ha) hD)

theorem valid_run (hs : L.valid s) (h : L.Due s xs) : L.valid (L.run s xs) :=
  run_keeps hs h (fun _ a hv ha hp _ => L.valid_step hv (h.mem a ha) hp) hs

/-- Items that the loop does not work on stay pending, or not, as they are. -/
theorem pending_run (hs : L.valid s) (h : L.Due s xs) {b : α} (hb : b ∈ L.items) (hnew : b ∉ xs) :
    L.pending (L.run s xs) b = L.pending s b :=
  run_keeps (D := fun t => L.pending t b = L.pending s b) hs h
    (fun _ a hv ha hp hD =>
      (L.pending_step hv (h.mem a ha) hp hb fun heq => hnew (heq ▸ ha)).trans hD) rfl

/-- What work on one item achieves, if it is kept until then and afterwards, is achieved in the
end. -/
theorem run_achieves {C D : σ → Prop} {a : α} (hs : L.valid s) (h : L.Due s xs) (ha : a ∈ xs)
    (hC : ∀ s b, L.valid s → b ∈ xs → L.pending s b → b ≠ a → C s → C (L.step s b))
    (hturn : ∀ s, L.valid s → L.pending s a → C s → D (L.step s a))
    (hD : ∀ s b, L.valid s → b ∈ xs → L.pending s b → b ≠ a → D s → D (L.step s b)) (hstart : C s) :
    D (L.run s xs) := by
  induction xs generalizing s with
  | nil => cases ha
  | cons b xs ih =>
    have hb : b ∈ b :: xs := List.mem_cons_self
    have hp := h.pending b hb
    have hv := L.valid_step hs (h.mem b hb) hp
    obtain ⟨hnew, -⟩ := List.nodup_cons.mp h.nodup
    by_cases hab : b = a
    · subst hab
      show D (L.run (L.step s b) xs)
      refine run_keeps hv (h.tail hs) (fun s c hv hc hp hd => ?_) (hturn s hs hp hstart)
      exact hD s c hv (List.mem_cons_of_mem _ hc) hp (fun heq => hnew (heq ▸ hc)) hd
    · have ha' : a ∈ xs := (List.mem_cons.mp ha).resolve_left fun heq => hab heq.symm
      exact ih hv (h.tail hs) ha' (fun s c hv hc => hC s c hv (List.mem_cons_of_mem _ hc))
        (fun s c hv hc => hD s c hv (List.mem_cons_of_mem _ hc)) (hC s b hs hb hp hab hstart)

/-- **What is left pending is idle.** -/
theorem idle_run (hs : L.valid s) (h : L.Due s xs) {a : α} (ha : a ∈ xs)
    (hp : L.pending (L.run s xs) a) : L.idle (L.run s xs) a := by
  have hmem := h.mem a ha
  refine run_achieves (C := fun _ => True) (D := fun t => L.pending t a → L.idle t a) hs h ha
    (fun _ _ _ _ _ _ _ => trivial) (fun s hv hpa _ => L.idle_self hv hmem hpa) ?_ trivial hp
  intro s b hv hb hpb hne hD hpa
  rw [L.pending_step hv (h.mem b hb) hpb hmem hne.symm] at hpa
  exact L.idle_step hv (h.mem b hb) hpb hmem hne.symm (hD hpa)

theorem run_of_idle (h : ∀ a ∈ xs, L.idle s a) : L.run s xs = s := by
  induction xs with
  | nil => rfl
  | cons a xs ih =>
    rw [run, List.foldl_cons, L.step_idle (h a List.mem_cons_self)]
    exact ih fun b hb => h b (List.mem_cons_of_mem _ hb)

/-- What a loop that was cut off takes when it is started again: what it has left pending,
and what it has not reached. -/
theorem todo_run {ys : List α} (hs : L.valid s) (h : L.todo s = xs ++ ys) :
    L.todo (L.run s xs) = xs.filter (L.pending (L.run s xs)) ++ ys := by
  have hdue : L.Due s (xs ++ ys) := h ▸ due_todo s
  have hxs : L.Due s xs := hdue.sublist (List.sublist_append_left ..)
  obtain ⟨-, -, hdisj⟩ := List.nodup_append.mp hdue.nodup
  have hold : L.todo (L.run s xs) = (L.todo s).filter (L.pending (L.run s xs)) := by
    rw [todo, todo, List.filter_filter]
    refine List.filter_congr fun a ha => ?_
    by_cases hmem : a ∈ xs
    · rw [hxs.pending a hmem, Bool.and_true]
    · rw [pending_run hs hxs ha hmem, Bool.and_self]
  have hys : ys.filter (L.pending (L.run s xs)) = ys := by
    refine List.filter_eq_self.mpr fun a ha => ?_
    have hmem : a ∈ xs ++ ys := List.mem_append_right _ ha
    rw [pending_run hs hxs (hdue.mem a hmem) fun hx => hdisj a hx a ha rfl]
    exact hdue.pending a hmem
  rw [hold, h, List.filter_append, hys]

/-- **A loop that was cut off and is started again ends as if it had not been cut off.** -/
theorem resume (hs : L.valid s) (n : Nat) :
    L.run (L.run s ((L.todo s).take n)) (L.todo (L.run s ((L.todo s).take n))) =
      L.run s (L.todo s) := by
  have hsplit : L.todo s = (L.todo s).take n ++ (L.todo s).drop n := (List.take_append_drop ..).symm
  generalize (L.todo s).take n = xs, (L.todo s).drop n = ys at hsplit
  have hdue : L.Due s xs := (hsplit ▸ due_todo s).sublist (List.sublist_append_left ..)
  have hidle : L.run (L.run s xs) (xs.filter (L.pending (L.run s xs))) = L.run s xs := by
    refine run_of_idle fun a ha => ?_
    obtain ⟨hmem, hp⟩ := List.mem_filter.mp ha
    exact idle_run hs hdue hmem hp
  calc L.run (L.run s xs) (L.todo (L.run s xs))
      = L.run (L.run (L.run s xs) (xs.filter (L.pending (L.run s xs)))) ys := by
        rw [todo_run hs hsplit, run, List.foldl_append]
        rfl
    _ = L.run (L.run s xs) ys := by rw [hidle]
    _ = L.run s (L.todo s) := by rw [hsplit, run, run, run, List.foldl_append]

end Loop
end Resumption
