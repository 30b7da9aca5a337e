import ChronosGo.Totals

/-! # What a program writes

Let each command leave some entries in a journal of the process that gives it.  Then
`Writes` says of a program what it has written when it returns, whatever the answers were;
the rules are again one for each construct.  What a process has written at some point of a
run is the beginning of what it may still come to write, and all of it if the process has
returned (`Journaled.written`).  A process is told apart from others by a label that it is
given when it is started.
-/
namespace Interleaving

section Writes
variable {C : Type} {R : C → Type} {J E α β : Type} (out : (c : C) → R c → List E)

/-- Whatever the answers are, the program returns a value and has written entries with
`Q`. -/
def Prog.Writes : Prog C R J α → (α → List E → Prop) → Prop
  | .pure a, Q => Q a []
  | .call c k, Q => ∀ r, (k r).Writes fun a es => Q a (out c r ++ es)
  | .fork _ p, Q => p.Writes Q

variable {out} {Q Q' : α → List E → Prop}

theorem Prog.Writes.mono {p : Prog C R J α} (hp : p.Writes out Q) (hQ : ∀ a es, Q a es → Q' a es) :
    p.Writes out Q' := by
  induction p generalizing Q Q' with
  | pure a => exact hQ a [] hp
  | call c k ih => exact fun r => ih r (hp r) fun a es => hQ a (out c r ++ es)
  | fork j p ih => exact ih hp hQ

theorem Prog.Writes.bind {T : β → List E → Prop} {p : Prog C R J α} {f : α → Prog C R J β}
    (hp : p.Writes out Q)
    (hf : ∀ a es, Q a es → (f a).Writes out fun b es' => T b (es ++ es')) :
    (p >>= f).Writes out T := by
  induction p generalizing Q T with
  | pure a => exact hf a [] hp
  | call c k ih =>
    refine fun r => ih r (hp r) fun a es hQ => (hf a _ hQ).mono fun b es' hT => ?_
    rwa [List.append_assoc] at hT
  | fork j p ih => exact ih hp hf

/-- A part over other commands writes only what its commands write. -/
theorem Prog.Writes.embed {C' : Type} {R' : C' → Type} {J' : Type} {f : C' → C}
    {g : (c : C') → R (f c) → R' c} {e : J' → J} {K : C' → Prop}
    {F : List (Event C' R' J') → J' → Prop} {S : List (Event C' R' J') → α → Prop}
    {h : List (Event C' R' J')} {X : E → Prop} {p : Prog C' R' J' α}
    (hp : p.Follows (fun _ c => K c) F S h) (hX : ∀ c r, K c → ∀ x ∈ out (f c) r, X x) :
    (p.embed f g e).Writes out fun _ es => ∀ x ∈ es, X x := by
  induction p generalizing h with
  | pure a => exact fun _ hx => nomatch hx
  | call c k ih =>
    refine fun r => (ih _ (hp.2 _)).mono fun _ es hes x hx => ?_
    rcases List.mem_append.mp hx with hx | hx
    · exact hX c r hp.1 x hx
    · exact hes x hx
  | fork j p ih => exact ih hp.2

/-- The journal after a history. -/
def journalOf (out : (c : C) → R c → List E) (h : List (Event C R J)) : List E :=
  Trace.viewOf (fun es c r => es ++ out c r) [] h

/-- A program comes to an end, with what it was to write. -/
theorem Prog.Writes.ends [∀ c, Nonempty (R c)] {p : Prog C R J α} (hp : p.Writes out Q) :
    ∃ a es, Q a es := by
  induction p generalizing Q with
  | pure a => exact ⟨a, [], hp⟩
  | call c k ih =>
    obtain ⟨r⟩ := ‹∀ c, Nonempty (R c)› c
    obtain ⟨a, es, hQ⟩ := ih r (hp r)
    exact ⟨a, _, hQ⟩
  | fork j p ih => exact ih hp

/-- What is written is at each command the beginning of what is to be written. -/
theorem Prog.Writes.follows [∀ c, Nonempty (R c)] {p : Prog C R J α} {T : List E → Prop}
    {h : List (Event C R J)} (hp : p.Writes out fun _ es => T (journalOf out h ++ es)) :
    p.Follows (fun h c => ∀ r, ∃ rest, T (journalOf out (h ++ [.call c r]) ++ rest))
      (fun _ _ => True) (fun h _ => T (journalOf out h)) h := by
  induction p generalizing h with
  | pure a =>
    change T (journalOf out h ++ []) at hp
    rwa [List.append_nil] at hp
  | call c k ih =>
    have hnext : ∀ r, (k r).Writes out fun _ es => T (journalOf out (h ++ [.call c r]) ++ es) := by
      refine fun r => (hp r).mono fun _ es hT => ?_
      unfold journalOf
      rw [Trace.viewOf_call, List.append_assoc]
      exact hT
    refine ⟨fun r => ?_, fun r => ih r (hnext r)⟩
    obtain ⟨-, rest, hT⟩ := (hnext r).ends
    exact ⟨rest, hT⟩
  | fork j p ih =>
    refine ⟨trivial, ih (hp.mono fun _ es hT => ?_)⟩
    unfold journalOf
    rwa [Trace.viewOf_fork]

end Writes

section Runs
variable {C : Type} {R : C → Type} {J E X σ : Type} {M : Machine C R J σ}
  {out : (c : C) → R c → List E} {label : J → X} {x₀ : X} {journal : σ → Nat → List E}
  {given : σ → Nat → X}

/-- The world keeps the journal of each process, and the label of its job; what is started
from outside has label `x₀`. -/
structure Journaled (M : Machine C R J σ) (out : (c : C) → R c → List E) (label : J → X) (x₀ : X)
    (journal : σ → Nat → List E) (given : σ → Nat → X) : Prop where
  exec : ∀ i c w r w', M.exec i c w r w' →
    journal w' = Function.update (journal w) i (journal w i ++ out c r) ∧ given w' = given w
  give : ∀ i n j w, journal (M.give i n j w) = journal w ∧
    given (M.give i n j w) = Function.update (given w) n (label j)
  env : ∀ w w', M.env w w' → journal w' = journal w ∧ given w' = given w
  spawn : ∀ j, M.spawn j → label j = x₀

/-- The labels of the processes, in the world and in their jobs. -/
def Labelled (label : J → X) (x₀ : X) (given : σ → Nat → X) (t : Trace C R J σ) : Prop :=
  ∀ i, given t.world i = (t.procs[i]?.map fun p => label p.job).getD x₀

/-- A process that goes on keeps its label. -/
theorem Labelled.set {w : σ} {ps : List (Proc C R J)} {n : Nat} {p : Proc C R J}
    (h : Labelled label x₀ given ⟨w, ps⟩) (hp : ps[n]? = some p) (e : Event C R J) :
    Labelled label x₀ given ⟨w, ps.set n ⟨p.job, p.hist ++ [e]⟩⟩ := by
  intro i
  refine (h i).trans ?_
  by_cases hi : n = i
  · subst hi
    obtain ⟨hlt, -⟩ := List.getElem?_eq_some_iff.mp hp
    simp [hp, List.getElem?_set_self hlt]
  · simp [List.getElem?_set_ne hi]

/-- The process at the end of the list is the one that was started. -/
theorem Labelled.append {w w' : σ} {ps : List (Proc C R J)} {j : J}
    (h : Labelled label x₀ given ⟨w, ps⟩)
    (hw : given w' = Function.update (given w) ps.length (label j)) :
    Labelled label x₀ given ⟨w', ps ++ [⟨j, []⟩]⟩ := by
  intro i
  change given w' i = _
  rw [hw]
  by_cases hi : i = ps.length
  · subst hi
    simp
  · rw [Function.update_of_ne hi]
    refine (h i).trans ?_
    rcases Nat.lt_or_gt_of_ne hi with hlt | hgt
    · simp [List.getElem?_append_left hlt]
    · have hgt' : ps.length + 1 ≤ i := hgt
      simp [List.getElem?_eq_none (Nat.le_of_lt hgt),
        List.getElem?_eq_none (l := ps ++ [⟨j, []⟩]) (by simpa using hgt')]

theorem Labelled.act {D : Discipline C R J} (hM : Journaled M out label x₀ journal given)
    {s t : Trace C R J σ} (h : Labelled label x₀ given s) (ha : M.Act D s t) :
    Labelled label x₀ given t := by
  cases ha with
  | call hp _ he =>
    refine Labelled.set (fun i => ?_) hp _
    rw [(hM.exec _ _ _ _ _ he).2]
    exact h i
  | fork hp =>
    refine (h.set hp _).append ?_
    rw [List.length_set]
    exact (hM.give _ _ _ _).2
  | @spawn w ps j hj =>
    refine h.append ?_
    have hx : given w ps.length = label j := by
      rw [h ps.length, hM.spawn j hj]
      simp
    rw [← hx, Function.update_eq_self]
  | env he =>
    intro i
    rw [(hM.env _ _ he).2]
    exact h i

/-- **What the processes have written.**  The journal of a process is at each point of a
run the beginning of one that its program may write, and such a one if the program has
returned. -/
theorem Journaled.written [∀ c, Nonempty (R c)] (hM : Journaled M out label x₀ journal given)
    {T : X → List E → Prop} (hstart : ∀ j, (M.start j).Writes out fun _ es => T (label j) es)
    (hempty : T x₀ []) {w₀ : σ} (hjournal : ∀ i, journal w₀ i = []) (hgiven : ∀ i, given w₀ i = x₀)
    {d : Config C R J σ} (hr : M.Reaches w₀ [] d) (i : Nat) :
    (∃ rest, T (given d.world i) (journal d.world i ++ rest)) ∧
      (d.procs[i]? = some (some (.pure ())) → T (given d.world i) (journal d.world i)) := by
  let Begins (p : Proc C R J) : Prop := ∃ rest, T (label p.job) (journalOf out p.hist ++ rest)
  let D : Discipline C R J :=
    { call := fun j h c => ∀ r, Begins ⟨j, h ++ [.call c r]⟩
      fork := fun _ _ _ => True
      done := fun j h => T (label j) (journalOf out h) }
  have hD : M.Obeys D := fun j => (hstart j).follows (h := [])
  have hbegins : ∀ j, Begins ⟨j, []⟩ := by
    intro j
    obtain ⟨-, es, hes⟩ := (hstart j).ends
    exact ⟨es, hes⟩
  have hact : ∀ s t, Trace.Tied (fun es c r => es ++ out c r) [] journal s ∧
        Labelled label x₀ given s ∧ (∀ p ∈ s.procs, Begins p) → M.Act D s t →
      Trace.Tied (fun es c r => es ++ out c r) [] journal t ∧ Labelled label x₀ given t ∧
        ∀ p ∈ t.procs, Begins p := by
    rintro s t ⟨htied, hlabel, hp⟩ ha
    refine ⟨htied.act ha (fun i c r he => (hM.exec i c _ r _ he).1)
      (fun i n j w => (hM.give i n j w).1) fun w w' he => (hM.env w w' he).1, hlabel.act hM ha, ?_⟩
    refine Trace.forall_act (K := fun _ p => Begins p) hp ha (fun _ h => h)
      (fun _ _ _ r hc _ _ => hc r) (fun p j _ h => ⟨?_, hbegins j⟩) fun j _ => hbegins j
    obtain ⟨rest, hrest⟩ := h
    refine ⟨rest, ?_⟩
    unfold journalOf
    rwa [Trace.viewOf_fork]
  obtain ⟨hs, ⟨htied, hlabel, hp⟩, hm⟩ := Discipline.invariant hD
    ⟨Trace.Tied.init w₀ [] hjournal, fun i => hgiven i, fun _ h => nomatch h⟩ hact hr
  have hwritten := htied i
  have hlabelled := hlabel i
  change journal d.world i = _ at hwritten
  change given d.world i = _ at hlabelled
  rw [hwritten, hlabelled]
  constructor
  · cases hi : hs[i]? with
    | none => simpa [Trace.histOf, hi, Trace.viewOf] using ⟨[], hempty⟩
    | some p =>
      rw [Trace.histOf_eq hi]
      exact hp p (List.mem_of_getElem? hi)
  · intro hdone
    obtain ⟨p, hi, hend⟩ := Discipline.matches_getElem hm hdone
    rw [Trace.histOf_eq hi, hi]
    exact hend _ rfl

end Runs

end Interleaving
