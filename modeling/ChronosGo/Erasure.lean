import ChronosGo.Interleaving

/-! # Silent commands

A program often does more than what another model says of it: it asks a cache before it
sends a request, or tells a monitor what it has done.  An `Erasure` says which commands
count, by their reply, and as what; the others are silent.  A program refines another if
it does the same up to silent commands (`Refines`).  If in addition silent commands leave
alone what the coarser machine can see, and the others do there what they count as
(`Simulates`), then every run of the finer machine is one of the coarser, process by
process (`Simulates.reachable`), and invariants of the coarser hold along it
(`Simulates.act`).
-/
namespace Interleaving

section Lists
variable {A B : Type} {rel : A → B → Prop} {as : List A} {bs : List B}

theorem forall₂_getElem? (h : List.Forall₂ rel as bs) {i : Nat} {a : A} (ha : as[i]? = some a) :
    ∃ b, bs[i]? = some b ∧ rel a b := by
  induction h generalizing i with
  | nil => simp at ha
  | cons hd tl ih =>
    cases i with
    | zero =>
      obtain rfl := Option.some.inj ha
      exact ⟨_, rfl, hd⟩
    | succ i => exact ih ha

theorem forall₂_set (h : List.Forall₂ rel as bs) (i : Nat) {a : A} {b : B} (hab : rel a b) :
    List.Forall₂ rel (as.set i a) (bs.set i b) := by
  induction h generalizing i with
  | nil => exact .nil
  | cons hd tl ih =>
    cases i with
    | zero => exact .cons hab tl
    | succ i => exact .cons hd (ih i)

theorem set_same {i : Nat} {a : A} (h : as[i]? = some a) : as.set i a = as := by
  obtain ⟨hlt, rfl⟩ := List.getElem?_eq_some_iff.mp h
  exact List.set_getElem_self hlt

end Lists

variable {C : Type} {R : C → Type} {J : Type} {C' : Type} {R' : C' → Type} {J' : Type}
  {α β σ σ' : Type}

/-- What is justified twice is justified by both. -/
theorem Prog.Follows.and {P P' : List (Event C R J) → C → Prop}
    {F F' : List (Event C R J) → J → Prop}
    {S S' : List (Event C R J) → α → Prop} {p : Prog C R J α} {h : List (Event C R J)}
    (hp : p.Follows P F S h) (hp' : p.Follows P' F' S' h) :
    p.Follows (fun h c => P h c ∧ P' h c) (fun h j => F h j ∧ F' h j)
      (fun h a => S h a ∧ S' h a) h := by
  induction p generalizing h with
  | pure a => exact ⟨hp, hp'⟩
  | call c k ih => exact ⟨⟨hp.1, hp'.1⟩, fun r => ih r (hp.2 r) (hp'.2 r)⟩
  | fork j p ih => exact ⟨⟨hp.1, hp'.1⟩, ih hp.2 hp'.2⟩

/-- A stricter discipline allows fewer steps. -/
theorem Machine.Act.weaken {M : Machine C R J σ} {D D' : Discipline C R J} {s t : Trace C R J σ}
    (ha : M.Act D s t) (hcall : ∀ j h c, D.call j h c → D'.call j h c)
    (hfork : ∀ j h j', D.fork j h j' → D'.fork j h j') : M.Act D' s t := by
  cases ha with
  | call hp hc he => exact .call hp (hcall _ _ _ hc) he
  | fork hp hf => exact .fork hp (hfork _ _ _ hf)
  | spawn hj => exact .spawn hj
  | env he => exact .env he

/-- What a command with its reply counts as, if it does, and the jobs. -/
structure Erasure (C : Type) (R : C → Type) (J : Type) (C' : Type) (R' : C' → Type)
    (J' : Type) where
  event : (c : C') → R' c → Option (Sigma R)
  job : J' → J

namespace Erasure
variable (e : Erasure C R J C' R' J')

/-! ## Programs -/

/-- Up to silent commands, the first program is the second. -/
def Refines : Prog C' R' J' α → Prog C R J α → Prop
  | .pure a, p => p = .pure a
  | .call c k, p => ∀ r, (e.event c r = none → Refines (k r) p) ∧
      ∀ x, e.event c r = some x → ∃ k₀, p = .call x.1 k₀ ∧ Refines (k r) (k₀ x.2)
  | .fork j q, p => ∃ q₀, p = .fork (e.job j) q₀ ∧ Refines q q₀

variable {e}

theorem refines_bind {p : Prog C' R' J' α} {q : Prog C R J α} {f : α → Prog C' R' J' β}
    {g : α → Prog C R J β} (hp : e.Refines p q) (hf : ∀ a, e.Refines (f a) (g a)) :
    e.Refines (p >>= f) (q >>= g) := by
  induction p generalizing q with
  | pure a =>
    obtain rfl := hp
    exact hf a
  | call c k ih =>
    intro r
    refine ⟨fun hr => ih r ((hp r).1 hr), fun x hx => ?_⟩
    obtain ⟨k₀, rfl, hk⟩ := (hp r).2 x hx
    exact ⟨fun a => k₀ a >>= g, rfl, ih r hk⟩
  | fork j p ih =>
    obtain ⟨q₀, rfl, hq⟩ := hp
    exact ⟨q₀ >>= g, rfl, ih hq⟩

/-- A command that counts. -/
theorem refines_call {c : C'} {k : R' c → Prog C' R' J' α} {c₀ : C} {k₀ : R c₀ → Prog C R J α}
    {reply : R' c → R c₀} (hc : ∀ r, e.event c r = some ⟨c₀, reply r⟩)
    (hk : ∀ r, e.Refines (k r) (k₀ (reply r))) : e.Refines (.call c k) (.call c₀ k₀) := by
  intro r
  refine ⟨fun hr => absurd ((hc r).symm.trans hr) (Option.some_ne_none _), fun x hx => ?_⟩
  obtain rfl := Option.some.inj ((hc r).symm.trans hx)
  exact ⟨k₀, rfl, hk r⟩

/-- A silent command. -/
theorem refines_silent {c : C'} {k : R' c → Prog C' R' J' α} {p : Prog C R J α}
    (hc : ∀ r, e.event c r = none) (hk : ∀ r, e.Refines (k r) p) : e.Refines (.call c k) p :=
  fun r => ⟨fun _ => hk r, fun _ hx => absurd ((hc r).symm.trans hx) (Option.some_ne_none _).symm⟩

/-- A program among more commands. -/
theorem refines_embed {f : C → C'} {g : (c : C) → R' (f c) → R c} {job : J → J'}
    (hc : ∀ c r, e.event (f c) r = some ⟨c, g c r⟩) (hj : ∀ j, e.job (job j) = j)
    (p : Prog C R J α) : e.Refines (p.embed f g job) p := by
  induction p with
  | pure a => rfl
  | call c k ih => exact refines_call (hc c) fun r => ih (g c r)
  | fork j p ih => exact ⟨p, by rw [hj], ih⟩

/-- Silent commands at the end. -/
theorem refines_append {p : Prog C' R' J' α} {q : Prog C R J α} {f : α → Prog C' R' J' α}
    (hp : e.Refines p q) (hf : ∀ a, e.Refines (f a) (.pure a)) : e.Refines (p >>= f) q := by
  induction p generalizing q with
  | pure a =>
    obtain rfl := hp
    exact hf a
  | call c k ih =>
    intro r
    refine ⟨fun hr => ih r ((hp r).1 hr), fun x hx => ?_⟩
    obtain ⟨k₀, rfl, hk⟩ := (hp r).2 x hx
    exact ⟨k₀, rfl, ih r hk⟩
  | fork j p ih =>
    obtain ⟨q₀, rfl, hq⟩ := hp
    exact ⟨q₀, rfl, ih hq⟩

/-! ## Histories -/

variable (e)

/-- What an event counts as. -/
def see : Event C' R' J' → Option (Event C R J)
  | .call c r => (e.event c r).map fun x => .call x.1 x.2
  | .fork j => some (.fork (e.job j))

def hist (h : List (Event C' R' J')) : List (Event C R J) := h.filterMap e.see

/-- A process as the coarser machine sees it. -/
def proc (p : Proc C' R' J') : Proc C R J := ⟨e.job p.job, e.hist p.hist⟩

def trace (abs : σ' → σ) (t : Trace C' R' J' σ') : Trace C R J σ :=
  ⟨abs t.world, t.procs.map e.proc⟩

/-- What the finer processes may do, by what it counts as. -/
def lift (D : Discipline C R J) : Discipline C' R' J' where
  call := fun j h c => ∀ r x, e.event c r = some x → D.call (e.job j) (e.hist h) x.1
  fork := fun j h j' => D.fork (e.job j) (e.hist h) (e.job j')
  done := fun j h => D.done (e.job j) (e.hist h)

variable {e} {h : List (Event C' R' J')} {c : C'} {r : R' c}

theorem hist_snoc (ev : Event C' R' J') : e.hist (h ++ [ev]) = e.hist h ++ (e.see ev).toList := by
  unfold hist
  rw [List.filterMap_append]
  cases he : e.see ev with
  | none => rw [List.filterMap_cons_none he]; rfl
  | some x => rw [List.filterMap_cons_some he]; rfl

theorem hist_silent (hr : e.event c r = none) : e.hist (h ++ [.call c r]) = e.hist h := by
  rw [hist_snoc, see, hr]
  exact List.append_nil _

theorem hist_counts {x : Sigma R} (hr : e.event c r = some x) :
    e.hist (h ++ [.call c r]) = e.hist h ++ [.call x.1 x.2] := by
  rw [hist_snoc, see, hr]
  rfl

theorem hist_fork (j : J') : e.hist (h ++ [.fork j]) = e.hist h ++ [.fork (e.job j)] :=
  hist_snoc _

/-- What justifies a program justifies one that refines it. -/
theorem Refines.follows {P : List (Event C R J) → C → Prop} {F : List (Event C R J) → J → Prop}
    {S : List (Event C R J) → α → Prop} {p : Prog C' R' J' α} {q : Prog C R J α}
    (hr : e.Refines p q) (hq : q.Follows P F S (e.hist h)) :
    p.Follows (fun h c => ∀ r x, e.event c r = some x → P (e.hist h) x.1)
      (fun h j => F (e.hist h) (e.job j)) (fun h a => S (e.hist h) a) h := by
  induction p generalizing q h with
  | pure a =>
    obtain rfl := hr
    exact hq
  | call c k ih =>
    refine ⟨fun r x hx => ?_, fun r => ?_⟩
    · obtain ⟨k₀, rfl, -⟩ := (hr r).2 x hx
      exact hq.1
    · cases hx : e.event c r with
      | none =>
        refine ih r ((hr r).1 hx) ?_
        rw [hist_silent hx]
        exact hq
      | some x =>
        obtain ⟨k₀, rfl, hk⟩ := (hr r).2 x hx
        refine ih r hk ?_
        rw [hist_counts hx]
        exact hq.2 x.2
  | fork j p ih =>
    obtain ⟨q₀, rfl, hp⟩ := hr
    refine ⟨hq.1, ih hp ?_⟩
    rw [hist_fork]
    exact hq.2

/-! ## Machines -/

variable (e) {M' : Machine C' R' J' σ'} {M : Machine C R J σ} {abs : σ' → σ} {I : σ' → Prop}

/-- The finer machine `M'` does what `M` does to the part `abs` of its world, as long as
`I` holds of it, which it keeps. -/
structure Simulates (M' : Machine C' R' J' σ') (M : Machine C R J σ) (abs : σ' → σ)
    (I : σ' → Prop) : Prop where
  start : ∀ j, e.Refines (M'.start j) (M.start (e.job j))
  spawn : ∀ j, M'.spawn j → M.spawn (e.job j)
  silent : ∀ i c w r w', I w → M'.exec i c w r w' → e.event c r = none → abs w' = abs w
  counts : ∀ i c w r w' x, I w → M'.exec i c w r w' → e.event c r = some x →
    M.exec i x.1 (abs w) x.2 (abs w')
  give : ∀ i n j w, abs (M'.give i n j w) = M.give i n (e.job j) (abs w)
  env : ∀ w w', I w → M'.env w w' → M.env (abs w) (abs w')
  crash : M'.crash → M.crash
  exec_kept : ∀ i c w r w', I w → M'.exec i c w r w' → I w'
  give_kept : ∀ i n j w, I w → I (M'.give i n j w)
  env_kept : ∀ w w', I w → M'.env w w' → I w'

namespace Simulates
variable {e}

/-- The configurations are the same but for silent commands. -/
structure Related (e : Erasure C R J C' R' J') (abs : σ' → σ) (I : σ' → Prop)
    (d : Config C' R' J' σ') (d₀ : Config C R J σ) : Prop where
  world : d₀.world = abs d.world
  procs : List.Forall₂ (Option.Rel e.Refines) d.procs d₀.procs
  inv : I d.world

theorem related_call (h : e.Simulates M' M abs I) {w w' : σ'}
    {ps : List (Option (Prog C' R' J' Unit))}
    {d₀ : Config C R J σ} (hd : Related e abs I ⟨w, ps⟩ d₀) {i : Nat} {c : C'}
    {k : R' c → Prog C' R' J' Unit} {r : R' c} (hp : ps[i]? = some (some (.call c k)))
    (he : M'.exec i c w r w') :
    ∃ d₀', M.Reachable d₀ d₀' ∧ Related e abs I ⟨w', ps.set i (some (k r))⟩ d₀' := by
  obtain ⟨w₀, ps₀⟩ := d₀
  obtain ⟨rfl, hprocs, hI⟩ := hd
  obtain ⟨_, hp₀, ⟨hq⟩⟩ := forall₂_getElem? hprocs hp
  have hI' := h.exec_kept i c w r w' hI he
  cases hx : e.event c r with
  | none =>
    -- nothing happens in the coarser machine, whose process stays where it is
    refine ⟨_, .refl, (h.silent i c w r w' hI he hx).symm, ?_, hI'⟩
    rw [← set_same hp₀]
    exact forall₂_set hprocs i (.some ((hq r).1 hx))
  | some x =>
    obtain ⟨k₀, rfl, hk⟩ := (hq r).2 x hx
    refine ⟨_, .single (.call hp₀ (h.counts i c w r w' x hI he hx)), rfl, ?_, hI'⟩
    exact forall₂_set hprocs i (.some hk)

theorem related_step (h : e.Simulates M' M abs I) {d d' : Config C' R' J' σ'} {d₀ : Config C R J σ}
    (hd : Related e abs I d d₀) (hs : M'.Step d d') :
    ∃ d₀', M.Reachable d₀ d₀' ∧ Related e abs I d' d₀' := by
  have hstart : ∀ j, Option.Rel e.Refines (some (M'.start j)) (some (M.start (e.job j))) :=
    fun j => .some (h.start j)
  cases hs with
  | call hp he => exact h.related_call hd hp he
  | @fork w ps i j p hp =>
    obtain ⟨w₀, ps₀⟩ := d₀
    obtain ⟨rfl, hprocs, hI⟩ := hd
    obtain ⟨_, hp₀, ⟨q₀, rfl, hq⟩⟩ := forall₂_getElem? hprocs hp
    refine ⟨_, .single (.fork hp₀), ?_, ?_, h.give_kept _ _ _ _ hI⟩
    · rw [h.give, hprocs.length_eq]
    · exact List.rel_append (forall₂_set hprocs i (.some hq)) (.cons (hstart j) .nil)
  | spawn hj =>
    obtain ⟨w₀, ps₀⟩ := d₀
    obtain ⟨rfl, hprocs, hI⟩ := hd
    exact ⟨_, .single (.spawn (h.spawn _ hj)), rfl,
      List.rel_append hprocs (.cons (hstart _) .nil), hI⟩
  | env he =>
    obtain ⟨w₀, ps₀⟩ := d₀
    obtain ⟨rfl, hprocs, hI⟩ := hd
    exact ⟨_, .single (.env (h.env _ _ hI he)), rfl, hprocs, h.env_kept _ _ hI he⟩
  | crash hc =>
    obtain ⟨w₀, ps₀⟩ := d₀
    obtain ⟨rfl, hprocs, hI⟩ := hd
    exact ⟨_, .single (.crash (h.crash hc)), rfl, forall₂_set hprocs _ .none, hI⟩

/-- **Every run of the finer machine is one of the coarser.** -/
theorem reachable (h : e.Simulates M' M abs I) {w : σ'} {js : List J'} {d : Config C' R' J' σ'}
    (hw : I w) (hr : M'.Reaches w js d) :
    ∃ d₀, M.Reaches (abs w) (js.map e.job) d₀ ∧ Related e abs I d d₀ := by
  induction hr with
  | refl =>
    refine ⟨_, .refl, rfl, ?_, hw⟩
    change List.Forall₂ _ (js.map _) ((js.map e.job).map _)
    rw [List.map_map, List.forall₂_map_left_iff, List.forall₂_map_right_iff]
    exact List.forall₂_same.mpr fun j _ => .some (h.start j)
  | tail _ hs ih =>
    obtain ⟨d₁, hr₁, hd₁⟩ := ih
    obtain ⟨d₂, hr₂, hd₂⟩ := h.related_step hd₁ hs
    exact ⟨d₂, hr₁.trans hr₂, hd₂⟩

/-- **A justified step of the finer machine is one of the coarser, or none.** -/
theorem act (h : e.Simulates M' M abs I) {D : Discipline C R J} {s t : Trace C' R' J' σ'}
    (hs : I s.world) (ha : M'.Act (e.lift D) s t) :
    e.trace abs t = e.trace abs s ∨ M.Act D (e.trace abs s) (e.trace abs t) := by
  cases ha with
  | @call w w' ps i p c r hp hc he =>
    have hp₀ : (ps.map e.proc)[i]? = some (e.proc p) := by rw [List.getElem?_map, hp]; rfl
    cases hx : e.event c r with
    | none =>
      left
      change (⟨abs w', (ps.set i _).map e.proc⟩ : Trace C R J σ) = ⟨abs w, ps.map e.proc⟩
      rw [h.silent i c w r w' hs he hx, List.map_set]
      congr 1
      refine Eq.trans (congrArg _ ?_) (set_same hp₀)
      unfold proc
      rw [hist_silent hx]
    | some x =>
      right
      have hstep := Machine.Act.call hp₀ (hc r x hx) (h.counts i c w r w' x hs he hx)
      change M.Act D _ ⟨abs w', (ps.set i _).map e.proc⟩
      rw [List.map_set]
      unfold proc at hstep ⊢
      rw [hist_counts hx]
      exact hstep
  | @fork w ps i p j hp hf =>
    right
    have hp₀ : (ps.map e.proc)[i]? = some (e.proc p) := by rw [List.getElem?_map, hp]; rfl
    have hstep : M.Act D _ _ := Machine.Act.fork (M := M) (w := abs w) hp₀ hf
    change M.Act D _ ⟨abs (M'.give i ps.length j w), (ps.set i _ ++ [_]).map e.proc⟩
    rw [List.map_append, List.map_set, h.give]
    unfold proc at hstep ⊢
    rw [hist_fork]
    rw [List.length_map] at hstep
    exact hstep
  | @spawn w ps j hj =>
    right
    change M.Act D _ ⟨abs w, (ps ++ [_]).map e.proc⟩
    rw [List.map_append]
    exact .spawn (h.spawn j hj)
  | env he => exact Or.inr (.env (h.env _ _ hs he))

end Simulates

end Erasure

end Interleaving
