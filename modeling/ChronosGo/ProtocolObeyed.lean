import ChronosGo.Protocol

/-! # The routines keep to the protocol

One lemma for each routine of `Server`, in the order of the source: from what the
history holds when the routine is entered to what it holds when the routine
returns.  `Extends X h h'` is the common part: `h'` goes on from `h` without an
acknowledgement, and stores bodies under identifiers in `X` only.
-/
namespace ChronosGo
open Interleaving

variable {e : Event Cmd Cmd.Reply Job} {m msg : TaskMessage} {id q consumer : String}
  {link : ChainLink} {rest : List ChainLink} {sid : Nat} {es : List (Nat × String)}
  {bs : List (Nat × Option TaskMessage)} {ts : List (Nat × TaskMessage)}

variable {h h' h'' : Hist} {op : Op} {X Y : Set String}

/-! ## Growing histories -/

theorem tried_snoc :
    Tried (h ++ [e]) op ↔ Tried h op ∨ ∃ r, e = .call (.redis op) r := by
  simp only [Tried, List.mem_append, List.mem_singleton]
  constructor
  · rintro ⟨r, hr | rfl⟩
    · exact Or.inl ⟨r, hr⟩
    · exact Or.inr ⟨r, rfl⟩
  · rintro (⟨r, hr⟩ | ⟨r, rfl⟩)
    · exact ⟨r, Or.inl hr⟩
    · exact ⟨r, Or.inr rfl⟩

theorem Did.mono {r : op.Reply} (hd : Did h op r) (hs : h ⊆ h') : Did h' op r := hs hd

theorem Ran.mono {out : Outcome} (hr : Ran h m out) (hs : h ⊆ h') :
    Ran h' m out := hs hr

theorem did_snoc {r : op.Reply} : Did (h ++ [.call (.redis op) (some r)]) op r :=
  List.mem_concat_self

theorem Smooth.of_subset (hs : Smooth h') (hsub : h ⊆ h') : Smooth h :=
  ⟨fun op hm => hs.clean op (hsub hm), fun msg hm => hs.enqueued msg (hsub hm),
    fun msg score hm => hs.scheduled msg score (hsub hm)⟩

theorem not_smooth_of_none (hm : Event.call (Cmd.redis op) none ∈ h) : ¬ Smooth h :=
  fun hs => hs.clean op hm

/-- The history goes on without an acknowledgement, storing bodies only under
identifiers in `X`. -/
structure Extends (X : Set String) (h h' : Hist) : Prop where
  sub : h ⊆ h'
  unacked : Unacked h → Unacked h'
  untried : ∀ id, id ∉ X → Untried h id → Untried h' id

theorem Extends.refl (X : Set String) (h : Hist) : Extends X h h :=
  ⟨List.Subset.refl h, fun hu => hu, fun _ _ hu => hu⟩

theorem Extends.trans (h₁ : Extends X h h') (h₂ : Extends X h' h'') : Extends X h h'' :=
  ⟨List.Subset.trans h₁.sub h₂.sub, fun hu => h₂.unacked (h₁.unacked hu),
    fun id hid hu => h₂.untried id hid (h₁.untried id hid hu)⟩

theorem Extends.mono (he : Extends X h h') (hXY : X ⊆ Y) : Extends Y h h' :=
  ⟨he.sub, he.unacked, fun id hid hu => he.untried id (fun hx => hid (hXY hx)) hu⟩

/-- The history goes on with a request that acknowledges nothing. -/
theorem Extends.request (ha : op.acks = []) (ht : ∀ id, op.target = some id → id ∈ X)
    (r : Option op.Reply) : Extends X h (h ++ [.call (.redis op) r]) where
  sub := List.subset_append_left _ _
  unacked := by
    intro hu o ho
    rcases tried_snoc.mp ho with ho | ⟨_, he⟩
    · exact hu o ho
    · cases he
      exact ha
  untried := by
    intro id hid hu o ho htarget
    rcases tried_snoc.mp ho with ho | ⟨_, he⟩
    · exact hu o ho htarget
    · cases he
      exact hid (ht id htarget)

/-- The history goes on with a request that stores no body. -/
theorem Extends.ask (ha : op.acks = []) (ht : op.target = none) (r : Option op.Reply) :
    Extends X h (h ++ [.call (.redis op) r]) :=
  .request ha (fun _ hid => nomatch hid.symm.trans ht) r

/-- The history goes on with a request that may store one body. -/
theorem Extends.store (ha : op.acks = []) (ht : op.target = some id) (r : Option op.Reply) :
    Extends {id} h (h ++ [.call (.redis op) r]) :=
  .request ha (fun _ hid => Option.some.inj (hid.symm.trans ht)) r

/-- The history goes on with something else than a request. -/
theorem Extends.other (he : ∀ op r, e ≠ .call (.redis op) r) :
    Extends X h (h ++ [e]) where
  sub := List.subset_append_left _ _
  unacked := by
    intro hu o ho
    rcases tried_snoc.mp ho with ho | ⟨r, hr⟩
    · exact hu o ho
    · exact absurd hr (he o r)
  untried := by
    intro id _ hu o ho
    rcases tried_snoc.mp ho with ho | ⟨r, hr⟩
    · exact hu o ho
    · exact absurd hr (he o r)

theorem Extends.clock (t : Int) : Extends X h (h ++ [.call .now t]) :=
  Extends.other fun _ _ he => nomatch he

/-! ## Handing over -/

variable {A : Hist → Op → Prop} {B : Hist → TaskMessage → Prop} {F : Hist → Job → Prop}

/-- A routine whose requests and handler runs are permitted by `A` and `B`. -/
abbrev Keeps {α : Type} (A : Hist → Op → Prop) (B : Hist → TaskMessage → Prop)
    (F : Hist → Job → Prop) (S : Hist → α → Prop) (h : Hist) (p : Routine α) : Prop :=
  p.Follows (fun h c => c.Permitted (A h) (B h)) F S h

theorem enqueueChainLink_keeps {delay : Int}
    (hA : ∀ h' op, Extends ∅ h h' → LinkOp msg delay op → A h' op) :
    Keeps A B F (fun h' r => Extends {msg.id} h h' ∧ (r.isSome → LinkDone h' msg delay) ∧
      (r ≠ some true → ¬ Smooth h')) h (enqueueChainLink msg delay) := by
  unfold enqueueChainLink
  split
  · rename_i hd
    refine ⟨trivial, fun t => ⟨hA _ _ (.clock t) (.schedule t hd), fun r => ⟨?_, ?_, ?_⟩⟩⟩
    · exact (Extends.clock t).trans (.store (by rfl) (by rfl) r)
    · intro hr
      obtain ⟨b, rfl⟩ := Option.isSome_iff_exists.mp hr
      exact ⟨_, b, .schedule t hd, did_snoc⟩
    · intro hr hs
      rcases r with _ | _ | _
      · exact hs.clean _ List.mem_concat_self
      · exact hs.scheduled _ _ did_snoc
      · exact hr rfl
  · rename_i hd
    refine ⟨hA _ _ (.refl _ _) (.enqueue hd), fun r => ⟨?_, ?_, ?_⟩⟩
    · exact .store (by rfl) (by rfl) r
    · intro hr
      obtain ⟨b, rfl⟩ := Option.isSome_iff_exists.mp hr
      exact ⟨_, b, .enqueue hd, did_snoc⟩
    · intro hr hs
      rcases r with _ | _ | _
      · exact hs.clean _ List.mem_concat_self
      · exact hs.enqueued _ did_snoc
      · exact hr rfl

theorem completeGroupMember_keeps {member : TaskMessage}
    (hA : ∀ h' op, Extends ∅ h h' → ReportOp member op → A h' op) :
    Keeps A B F (fun h' r => Extends {callbackID member.groupID} h h' ∧
      (r.isSome → Reported h' member) ∧ (r = none → h' = h ∨ ¬ Smooth h')) h
      (completeGroupMember member) := by
  unfold completeGroupMember
  split
  · exact ⟨.refl _ _, fun hr => by simp at hr, fun _ => Or.inl rfl⟩
  · rename_i link hl
    split
    · exact ⟨.refl _ _, fun hr => by simp at hr, fun _ => Or.inl rfl⟩
    · rename_i hq
      have hq : member.groupQueue = link.queue := by simpa using hq
      split
      · rename_i hd
        refine ⟨trivial, fun t => ⟨hA _ _ (.clock t) (.schedule t hl hq hd),
          fun r => ⟨?_, ?_, ?_⟩⟩⟩
        · exact (Extends.clock t).trans
            (.store (by rfl) (by rfl) r)
        · intro hr
          obtain ⟨b, rfl⟩ := Option.isSome_iff_exists.mp hr
          exact ⟨_, b, .schedule t hl hq hd, did_snoc⟩
        · rintro rfl
          exact Or.inr (not_smooth_of_none List.mem_concat_self)
      · rename_i hd
        refine ⟨hA _ _ (.refl _ _) (.enqueue hl hq hd), fun r => ⟨?_, ?_, ?_⟩⟩
        · exact .store (by rfl) (by rfl) r
        · intro hr
          obtain ⟨b, rfl⟩ := Option.isSome_iff_exists.mp hr
          exact ⟨_, b, .enqueue hl hq hd, did_snoc⟩
        · rintro rfl
          exact Or.inr (not_smooth_of_none List.mem_concat_self)

theorem drainCompletedStageMember_keeps (hn : ¬ Smooth h) (hstate : ∀ h', A h' (.taskState q id))
    (hget : ∀ h', A h' (.getTask q id))
    (hreport : ∀ h' stored op, Did h' (.taskState q id) (some .completed) →
      Did h' (.getTask q id) (some stored) → ¬ Smooth h' → ReportOp stored op → A h' op) :
    Keeps A B F (fun h' _ => Extends Set.univ h h') h (drainCompletedStageMember q id) := by
  refine ⟨hstate _, fun r => ?_⟩
  have h₁ : Extends Set.univ h (h ++ [.call (.redis (.taskState q id)) r]) :=
    .ask rfl rfl r
  rcases r with _ | _ | st
  · exact h₁
  · exact h₁
  · by_cases hst : st = .completed
    · subst hst
      refine ⟨hget _, fun r => ?_⟩
      have h₂ := h₁.trans (.ask (by rfl) (by rfl) r)
      rcases r with _ | _ | stored
      · exact h₂
      · exact h₂
      · change Keeps A B F _ _ (completeGroupMember stored >>= fun r => pure r.isSome)
        refine Prog.Follows.bind (completeGroupMember_keeps fun h' op he ho => ?_)
          (fun h' _ hpost => h₂.trans (hpost.1.mono (Set.subset_univ _)))
        exact hreport h' stored op (he.sub (List.mem_append_left _ did_snoc)) (he.sub did_snoc)
          (fun hs => hn (hs.of_subset (List.Subset.trans h₂.sub he.sub))) ho
    · change Keeps A B F _ _ (if st ≠ .completed then pure true else _)
      rw [if_pos hst]
      exact h₁

theorem LinkDone.mono {delay : Int} (hl : LinkDone h msg delay) (hs : h ⊆ h') :
    LinkDone h' msg delay := by
  obtain ⟨op, r, ho, hd⟩ := hl
  exact ⟨op, r, ho, hd.mono hs⟩

theorem StageDone.mono (hd : StageDone h msg link rest) (hs : h ⊆ h') :
    StageDone h' msg link rest := by
  obtain ⟨st, hst, hrest⟩ := hd
  refine ⟨st, hst.mono hs, hrest.imp_right fun hm j gm hj => ?_⟩
  rcases hm j gm hj with hl | ⟨ids, hids, hj⟩
  · exact Or.inl (hl.mono hs)
  · exact Or.inr ⟨ids, hids.mono hs, hj⟩

theorem HandedOver.mono (hd : HandedOver h msg) (hs : h ⊆ h') :
    HandedOver h' msg := by
  cases hd with
  | link hc hg hd => exact .link hc hg (hd.mono hs)
  | stage hc hg hd => exact .stage hc hg (hd.mono hs)
  | report hc hg hd =>
    obtain ⟨op, r, ho, hd⟩ := hd
    exact .report hc hg ⟨op, r, ho, hd.mono hs⟩
  | last hc hg => exact .last hc hg

/-- The loop over the members of a stage.  The induction is on the members left;
on a smooth run none of them has been tried yet. -/
theorem enqueueMembers_keeps {ms : List (TaskMessage × Int)}
    (hnd : (ms.map fun x => x.1.id).Nodup) (hfresh : Smooth h → ∀ x ∈ ms, Untried h x.1.id)
    (hlink : ∀ h' op, ∀ x ∈ ms, Extends Set.univ h h' → (Smooth h' → Untried h' x.1.id) →
      LinkOp x.1 x.2 op → A h' op)
    (hstate : ∀ h' q id, A h' (.taskState q id)) (hget : ∀ h' q id, A h' (.getTask q id))
    (hreport : ∀ h' stored op, ∀ x ∈ ms, Did h' (.taskState x.1.queue x.1.id) (some .completed) →
      Did h' (.getTask x.1.queue x.1.id) (some stored) → ¬ Smooth h' →
        ReportOp stored op → A h' op) :
    Keeps A B F (fun h' b => Extends Set.univ h h' ∧
      (b = true → ∀ x ∈ ms, LinkDone h' x.1 x.2) ∧ (b = false → ¬ Smooth h')) h
      (enqueueMembers ms) := by
  induction ms generalizing h with
  | nil => exact ⟨.refl _ _, fun _ x hx => absurd hx List.not_mem_nil, (nomatch ·)⟩
  | cons x ms ih =>
    obtain ⟨hx, hnd⟩ := List.nodup_cons.mp hnd
    refine Prog.Follows.bind (enqueueChainLink_keeps fun h' op he ho => ?_) ?_
    · exact hlink h' op x List.mem_cons_self (he.mono (Set.empty_subset _))
        (fun hs => he.untried _ (Set.notMem_empty _)
          (hfresh (hs.of_subset he.sub) x List.mem_cons_self)) ho
    · rintro h₁ r ⟨he, hdone, hsmooth⟩
      have he' : Extends Set.univ h h₁ := he.mono (Set.subset_univ _)
      -- what is left of the loop, from any history that goes on from `h₁`
      have hrest : ∀ h₂, Extends Set.univ h₁ h₂ → LinkDone h₁ x.1 x.2 →
          (Smooth h₂ → ∀ y ∈ ms, Untried h₂ y.1.id) →
          Keeps A B F (fun h' b => Extends Set.univ h h' ∧
            (b = true → ∀ y ∈ x :: ms, LinkDone h' y.1 y.2) ∧ (b = false → ¬ Smooth h')) h₂
            (enqueueMembers ms) := by
        intro h₂ h₁₂ hx₁ hun
        refine Prog.Follows.mono (ih hnd hun ?_ ?_) ?_
        · exact fun h' op y hy he₂ => hlink h' op y (List.mem_cons_of_mem _ hy)
            ((he'.trans h₁₂).trans he₂)
        · exact fun h' stored op y hy => hreport h' stored op y (List.mem_cons_of_mem _ hy)
        · rintro h₃ b ⟨h₂₃, htrue, hfalse⟩
          refine ⟨(he'.trans h₁₂).trans h₂₃, fun hb y hy => ?_, hfalse⟩
          rcases List.mem_cons.mp hy with rfl | hy
          · exact hx₁.mono (h₁₂.trans h₂₃).sub
          · exact htrue hb y hy
      rcases r with _ | _ | _
      · exact ⟨he', (nomatch ·), fun _ => hsmooth (by simp)⟩
      · have hns : ¬ Smooth h₁ := hsmooth (by simp)
        refine Prog.Follows.bind (drainCompletedStageMember_keeps hns (hstate · _ _) (hget · _ _)
          (hreport · · · x List.mem_cons_self)) ?_
        rintro h₂ (_ | _) h₁₂
        · exact ⟨he'.trans h₁₂, (nomatch ·), fun _ hs => hns (hs.of_subset h₁₂.sub)⟩
        · exact hrest h₂ h₁₂ (hdone rfl) fun hs => absurd (hs.of_subset h₁₂.sub) hns
      · refine hrest h₁ (.refl _ _) (hdone rfl) fun hs y hy => he.untried _ ?_
          (hfresh (hs.of_subset he.sub) y (List.mem_cons_of_mem _ hy))
        -- a later member has another identifier
        intro hid
        exact hx (List.mem_map.mpr ⟨y, hy, hid⟩)

/-! ## Workers -/

section Worker
variable {r : Option Bytes}

/-- A worker whose handler has succeeded and that has acknowledged nothing. -/
structure Succeeded (m : TaskMessage) (r : Option Bytes) (h : Hist) : Prop where
  ran : Ran h m (.ok r)
  unacked : Unacked h

theorem Succeeded.extend (hs : Succeeded m r h) (he : Extends X h h') : Succeeded m r h' :=
  ⟨hs.ran.mono he.sub, he.unacked hs.unacked⟩

/-- Such a worker at the start of an attempt to hand over: if all went well so
far, this is the first. -/
structure Attempting (m : TaskMessage) (r : Option Bytes) (h : Hist) : Prop
    extends Succeeded m r h where
  first : Smooth h → ∀ op, ¬ Tried h op

theorem Attempting.untried (ha : Attempting m r h) (hs : Smooth h) (id : String) :
    Untried h id := fun op hop => absurd hop (ha.first hs op)

/-- What an attempt to hand over ends with. -/
def Attempted (m : TaskMessage) (r : Option Bytes) (Q : Hist → Prop) (h : Hist) (b : Bool) : Prop :=
  (b = true → Succeeded m r h ∧ Q h) ∧ (b = false → Attempting m r h)

theorem Succeeded.failed (hs : Succeeded m r h) (hn : ¬ Smooth h) (Q : Hist → Prop) :
    Attempted m r Q h false :=
  ⟨(nomatch ·), fun _ => ⟨hs, fun hsm => absurd hsm hn⟩⟩

@[simp] theorem withResult_id : (withResult m r).id = m.id := by cases r <;> rfl

@[simp] theorem withResult_queue : (withResult m r).queue = m.queue := by cases r <;> rfl

@[simp] theorem withResult_uniqueKey : (withResult m r).uniqueKey = m.uniqueKey := by
  cases r <;> rfl

@[simp] theorem withResult_retention : (withResult m r).retention = m.retention := by
  cases r <;> rfl

@[simp] theorem withResult_chain : (withResult m r).chain = m.chain := by cases r <;> rfl

@[simp] theorem withResult_groupID : (withResult m r).groupID = m.groupID := by cases r <;> rfl

theorem enqueueNextGroup_keeps (ha : Attempting m r h) (hc : m.chain = link :: rest)
    (hg : link.group ≠ []) :
    Keeps (WorkOp q sid m) B F (Attempted m r fun h' => StageDone h' (withResult m r) link rest) h
      (enqueueNextGroup (withResult m r) link rest) := by
  refine ⟨.stage ha.ran hc hg fun hs st hd => ha.first hs _ hd.tried, fun st => ?_⟩
  have h₁ : Extends ∅ h (h ++ [.call (.redis (stageOp (withResult m r) link)) st]) :=
    .ask rfl rfl st
  -- the loop over a part of the members, once the stage is known not to be complete
  have hloop : ∀ h₂ st ms, Extends ∅ h h₂ → Did h₂ (stageOp (withResult m r) link) st →
      st ≠ .done → ms.Sublist (stageMembers (withResult m r) link rest) →
      Keeps (WorkOp q sid m) B F (fun h' b => Extends Set.univ h₂ h' ∧
        (b = true → ∀ x ∈ ms, LinkDone h' x.1 x.2) ∧ (b = false → ¬ Smooth h')) h₂
        (enqueueMembers ms) := by
    intro h₂ st ms he hst hne hsub
    refine enqueueMembers_keeps ?_ ?_ ?_ (fun _ _ _ => .drainState) (fun _ _ _ => .drainGet) ?_
    · have hnd := stageMemberIDs_nodup (withResult m r) link
      rw [← stageMembers_ids _ _ rest] at hnd
      exact hnd.sublist (hsub.map _)
    · exact fun hs x _ => he.untried _ (Set.notMem_empty _)
        (ha.untried (hs.of_subset he.sub) _)
    · intro h' op x hx he' hun ho
      obtain ⟨j, gm, hj, rfl⟩ := mem_stageMembers.mp (hsub.subset hx)
      exact .member (ha.ran.mono (List.Subset.trans he.sub he'.sub)) hc (hst.mono he'.sub) hne hj
        ho hun
    · intro h' stored op x hx hs hb hn ho
      obtain ⟨j, gm, hj, rfl⟩ := mem_stageMembers.mp (hsub.subset hx)
      refine .drain hs hb ho hn hc hg ⟨j, ?_⟩
      cases r <;> rfl
  rcases st with _ | _ | _ | _
  · exact (ha.toSucceeded.extend h₁).failed (not_smooth_of_none List.mem_concat_self) _
  · exact ⟨fun _ => ⟨ha.toSucceeded.extend h₁, .done, did_snoc, Or.inl rfl⟩, (nomatch ·)⟩
  · refine ⟨.pending (ha.ran.mono h₁.sub) hc did_snoc, fun ids => ?_⟩
    have h₂ := h₁.trans (.ask (by rfl) (by rfl) ids)
    rcases ids with _ | ids
    · exact (ha.toSucceeded.extend h₂).failed (not_smooth_of_none List.mem_concat_self) _
    · refine Prog.Follows.mono (hloop _ .present _ h₂ (List.mem_append_left _ did_snoc)
        (by simp) List.filter_sublist) ?_
      rintro h₃ b ⟨h₂₃, htrue, hfalse⟩
      refine ⟨fun hb => ⟨(ha.toSucceeded.extend h₂).extend h₂₃, .present,
        h₂₃.sub (List.mem_append_left _ did_snoc), Or.inr fun j gm hj => ?_⟩,
        fun hb => ⟨(ha.toSucceeded.extend h₂).extend h₂₃, fun hs => absurd hs (hfalse hb)⟩⟩
      by_cases hmem : memberID (stageID (withResult m r)) j ∈ ids
      · exact Or.inl (htrue hb _ (List.mem_filter.mpr
          ⟨mem_stageMembers.mpr ⟨j, gm, hj, rfl⟩, decide_eq_true hmem⟩))
      · exact Or.inr ⟨ids, h₂₃.sub did_snoc, hmem⟩
  · refine Prog.Follows.mono (hloop _ .created _ h₁ did_snoc (by simp) (List.Sublist.refl _)) ?_
    rintro h₃ b ⟨h₁₃, htrue, hfalse⟩
    refine ⟨fun hb => ⟨(ha.toSucceeded.extend h₁).extend h₁₃, .created, h₁₃.sub did_snoc,
      Or.inr fun j gm hj => Or.inl ?_⟩,
      fun hb => ⟨(ha.toSucceeded.extend h₁).extend h₁₃, fun hs => absurd hs (hfalse hb)⟩⟩
    exact htrue hb _ (mem_stageMembers.mpr ⟨j, gm, hj, rfl⟩)

theorem enqueueNext_keeps (ha : Attempting m r h) (hc : m.chain = link :: rest) :
    Keeps (WorkOp q sid m) B F (Attempted m r fun h' => HandedOver h' (withResult m r)) h
      (enqueueNext (withResult m r) link rest) := by
  have hc' : (withResult m r).chain = link :: rest := by rw [withResult_chain, hc]
  unfold enqueueNext
  split
  · rename_i hg
    refine Prog.Follows.mono (enqueueNextGroup_keeps ha hc hg) ?_
    exact fun h' b hb => ⟨fun ht => ⟨(hb.1 ht).1, .stage hc' hg (hb.1 ht).2⟩, hb.2⟩
  · rename_i hg
    have hg : link.group = [] := by simpa using hg
    refine Prog.Follows.bind (enqueueChainLink_keeps fun h' op he ho => ?_) ?_
    · exact .link (ha.ran.mono he.sub) hc hg ho fun hs =>
        he.untried _ (Set.notMem_empty _) (ha.untried (hs.of_subset he.sub) _)
    · rintro h' b ⟨he, hdone, hsmooth⟩
      have hs' := ha.toSucceeded.extend he
      refine ⟨fun hb => ⟨hs', .link hc' hg (hdone hb)⟩, fun hb => ⟨hs', fun hs => ?_⟩⟩
      refine absurd hs (hsmooth ?_)
      rintro rfl
      exact nomatch hb

theorem completeGroup_keeps (ha : Attempting m r h) (hc : m.chain = []) (hg : m.groupID ≠ "") :
    Keeps (WorkOp q sid m) B F (Attempted m r fun h' => HandedOver h' (withResult m r)) h
      (do let r ← completeGroupMember (withResult m r); return r.isSome) := by
  refine Prog.Follows.bind (completeGroupMember_keeps fun h' op he ho => ?_) ?_
  · exact .report (ha.ran.mono he.sub) hc hg ho fun hs =>
      he.untried _ (Set.notMem_empty _) (ha.untried (hs.of_subset he.sub) _)
  · rintro h' b ⟨he, hdone, hnone⟩
    have hs' := ha.toSucceeded.extend he
    refine ⟨fun hb => ⟨hs', .report (by simpa using hc) (by simpa using hg) (hdone hb)⟩,
      fun hb => ?_⟩
    rcases hnone (by simpa using hb) with rfl | hn
    · exact ha
    · exact ⟨hs', fun hs => absurd hs hn⟩

/-- The retry loops.  The induction is on the attempts left. -/
theorem withRetry_keeps {Q : Hist → Prop} {attempt : Routine Bool}
    (hatt : ∀ h, Attempting m r h → Keeps A B F (Attempted m r Q) h attempt) (n : Nat)
    (ha : Attempting m r h) :
    Keeps A B F (fun h' b => b = true → Succeeded m r h' ∧ Q h') h (withRetry attempt n) := by
  induction n generalizing h with
  | zero => exact fun hb => nomatch hb
  | succ n ih =>
    refine Prog.Follows.bind (hatt h ha) ?_
    rintro h' (_ | _) hb
    · refine ⟨trivial, fun d => ?_⟩
      have he : Extends ∅ h' (h' ++ [.call .ctxDone d]) := .other fun _ _ he => nomatch he
      have ha' : Attempting m r (h' ++ [.call .ctxDone d]) := by
        refine ⟨(hb.2 rfl).toSucceeded.extend he, fun hs op hop => ?_⟩
        rcases tried_snoc.mp hop with hop | ⟨_, heq⟩
        · exact (hb.2 rfl).first (hs.of_subset he.sub) op hop
        · exact nomatch heq
      cases d with
      | false => exact ih ha'
      | true => exact fun hb => nomatch hb
    · exact fun _ => hb.1 rfl

/-- `releaseUnique`, as the worker calls it right after a terminal
acknowledgement. -/
theorem releaseUnique_keeps {op : Op} {a : op.Reply} (hid : msg.id = m.id)
    (hq : msg.queue = m.queue) (hk : msg.uniqueKey = m.uniqueKey) (hl : Last h op a)
    (hacks : op.acks = [sid])
    (ht : op = .ackDelete q sid m.id ∨ ∃ msg z score, op = .moveToZSet q sid msg z score ∧
      msg.id = m.id ∧ msg.uniqueKey = m.uniqueKey ∧ z ≠ .retry) :
    Keeps (WorkOp q sid m) B F (fun _ _ => True) h (releaseUnique msg) := by
  unfold releaseUnique
  split
  · trivial
  · rename_i hkey
    refine ⟨?_, fun _ => trivial⟩
    rw [hq, hk, hid]
    exact .release hl hacks ht (hk ▸ hkey)

theorem done_keeps (hid : msg.id = m.id) (hq : msg.queue = m.queue)
    (hk : msg.uniqueKey = m.uniqueKey)
    (hretain : 0 < msg.retention → ∀ t, WorkOp q sid m (h ++ [.call .now t])
      (.moveToZSet q sid { msg with completedAt := unix t } .completed
        ((unix t + msg.retention) * second)))
    (hdelete : ¬ 0 < msg.retention → WorkOp q sid m h (.ackDelete q sid m.id)) :
    Keeps (WorkOp q sid m) B F (fun _ _ => True) h (done q sid msg) := by
  unfold done
  split
  · rename_i ht
    refine ⟨trivial, fun t => ⟨hretain ht t, fun a => ?_⟩⟩
    rcases a with _ | ⟨⟩
    · trivial
    · exact releaseUnique_keeps hid hq hk ⟨_, rfl⟩ rfl
        (Or.inr ⟨_, _, _, rfl, hid, hk, by simp⟩)
  · rename_i ht
    rw [hid]
    refine ⟨hdelete ht, fun a => ?_⟩
    rcases a with _ | ⟨⟩
    · trivial
    · exact releaseUnique_keeps hid hq hk ⟨_, rfl⟩ rfl (Or.inl rfl)

/-- Acknowledging a task that has handed over. -/
theorem done_succeeded_keeps (hs : Succeeded m r h) (hd : HandedOver h (withResult m r)) :
    Keeps (WorkOp q sid m) B F (fun _ _ => True) h
      (done q sid { withResult m r with chain := [] }) := by
  refine done_keeps withResult_id withResult_queue withResult_uniqueKey (fun ht t => ?_)
    (fun ht => .delete hs.ran hd (by simpa using ht) hs.unacked)
  have he : Extends ∅ h (h ++ [.call .now t]) := .clock t
  have hd' : HandedOver (h ++ [.call .now t]) (withResult m r) := hd.mono he.sub
  have hop : WorkOp q sid m (h ++ [.call .now t]) (.moveToZSet q sid
      { withResult m r with chain := [], completedAt := unix t } .completed
      ((unix t + m.retention) * second)) :=
    .retain (hs.ran.mono he.sub) hd' (by simpa using ht) (he.unacked hs.unacked)
  simpa using hop

theorem succeed_keeps (ha : Attempting m r h) :
    Keeps (WorkOp q sid m) B F (fun _ _ => True) h (succeed q sid (withResult m r)) := by
  unfold succeed
  split
  · rename_i link rest hc
    rw [withResult_chain] at hc
    refine Prog.Follows.bind (withRetry_keeps (fun h ha => enqueueNext_keeps ha hc) 3 ha) ?_
    rintro h' (_ | _) hb
    · trivial
    · exact done_succeeded_keeps (hb rfl).1 (hb rfl).2
  · rename_i hc
    have hsame : withResult m r = { withResult m r with chain := [] } := by rw [← hc]
    have hc' : m.chain = [] := by simpa using hc
    split
    · rename_i hg
      have hg : m.groupID ≠ "" := by simpa using hg
      refine Prog.Follows.bind (withRetry_keeps (fun h ha => completeGroup_keeps ha hc' hg) 3 ha) ?_
      rintro h' (_ | _) hb
      · trivial
      · change Keeps _ _ _ _ _ (done q sid (withResult m r))
        rw [hsame]
        exact done_succeeded_keeps (hb rfl).1 (hb rfl).2
    · rename_i hg
      rw [hsame]
      exact done_succeeded_keeps ha.toSucceeded (.last hc (by simpa using hg))

theorem unacked_nil : Unacked [] := by
  rintro op ⟨r, hr⟩
  cases hr

theorem process_keeps :
    Keeps (WorkOp q sid m) (fun h m' => m' = m ∧ h = []) F (fun _ _ => True) []
      (process q sid m) := by
  refine ⟨⟨rfl, rfl⟩, fun out => ?_⟩
  have he : ∀ out, Extends ∅ [] ([] ++ [.call (.handle m) out]) :=
    fun out => .other fun _ _ he => nomatch he
  have hu : ∀ out, Unacked ([] ++ [.call (.handle m) out]) :=
    fun out => (he out).unacked unacked_nil
  have hran : ∀ out, Ran ([] ++ [.call (.handle m) out]) m out := fun _ => List.mem_singleton_self _
  rcases out with r | ⟨err, skip⟩
  · refine succeed_keeps ⟨⟨hran _, hu _⟩, fun _ op hop => ?_⟩
    rcases tried_snoc.mp hop with ⟨_, hop⟩ | ⟨_, heq⟩
    · cases hop
    · exact nomatch heq
  · change Keeps _ _ _ _ _ (if skip = true ∨ m.maxRetry ≤ m.retried then _ else _)
    split
    · rename_i hx
      unfold deadLetter
      dsimp only
      split
      · rename_i hn
        exact done_keeps rfl rfl rfl (fun ht => absurd ht (by simp))
          (fun _ => .discard (hran _) hx hn (hu _))
      · rename_i hn
        refine ⟨trivial, fun t => ⟨?_, fun a => ?_⟩⟩
        · exact .archive ((hran _).mono (List.subset_append_left _ _)) hx (by simpa using hn)
            ((Extends.clock (X := ∅) t).unacked (hu _))
        · rcases a with _ | ⟨⟩
          · trivial
          · exact releaseUnique_keeps rfl rfl rfl ⟨_, rfl⟩ rfl
              (Or.inr ⟨_, _, _, rfl, rfl, rfl, by simp⟩)
    · rename_i hx
      refine ⟨trivial, fun t => ⟨trivial, fun d => ⟨?_, fun _ => trivial⟩⟩⟩
      have he₂ : Extends ∅ ([.call (.handle m) (.fail err skip)] ++ [.call .now t])
          ([.call (.handle m) (.fail err skip)] ++ [.call .now t] ++
            [.call (.retryDelay (m.retried + 1) err) d]) := .other fun _ _ he => nomatch he
      exact .retry (List.mem_append_left _ (List.mem_append_left _ (hran _))) hx
        (he₂.unacked ((Extends.clock (X := ∅) t).unacked (hu _)))

end Worker

/-! ## Fetching -/

section Fetch
variable {count : Nat}

theorem Fetched.mono (hf : Fetched q consumer count h sid id) (hs : h ⊆ h') :
    Fetched q consumer count h' sid id := by
  obtain ⟨entries, hd, hm⟩ := hf
  exact ⟨entries, hd.mono hs, hm⟩

theorem Loaded.mono (hl : Loaded q consumer count h sid m) (hs : h ⊆ h') :
    Loaded q consumer count h' sid m := by
  obtain ⟨id, hf, hd⟩ := hl
  exact ⟨id, hf.mono hs, hd.mono hs⟩

/-- The bodies found for some entries account for these entries in order. -/
inductive Bodies (q : String) (h : Hist) :
    List (Nat × String) → List (Nat × Option TaskMessage) → Prop where
  | nil : Bodies q h [] []
  | cons {sid : Nat} {id : String} {b : Option TaskMessage} {es : List (Nat × String)}
      {bs : List (Nat × Option TaskMessage)} (hb : Did h (.getTask q id) b)
      (ht : Bodies q h es bs) :
      Bodies q h ((sid, id) :: es) ((sid, b) :: bs)

theorem Bodies.sids (hb : Bodies q h es bs) : bs.map Prod.fst = es.map Prod.fst := by
  induction hb with
  | nil => rfl
  | cons _ _ ih => rw [List.map_cons, List.map_cons, ih]

theorem Bodies.exists_id (hb : Bodies q h es bs) {b : Option TaskMessage} (hm : (sid, b) ∈ bs) :
    ∃ id, (sid, id) ∈ es ∧ Did h (.getTask q id) b := by
  induction hb with
  | nil => cases hm
  | cons hb _ ih =>
    rcases List.mem_cons.mp hm with heq | hm
    · cases heq
      exact ⟨_, List.mem_cons_self, hb⟩
    · obtain ⟨id, hid, hd⟩ := ih hm
      exact ⟨id, List.mem_cons_of_mem _ hid, hd⟩

/-- So far the round has only sent requests, and has returned nothing. -/
def Gathering (h : Hist) : Prop :=
  ∀ e ∈ h, ∃ op r, e = .call (.redis op) r ∧ ∀ q sid id, op ≠ .requeue q sid id

theorem Gathering.undispatched (hg : Gathering h) (sid : Nat) : Undispatched h sid := by
  refine ⟨fun q m he => ?_, fun q id hreq => ?_⟩
  · obtain ⟨_, _, heq, -⟩ := hg _ he
    exact nomatch heq
  · obtain ⟨r, he⟩ := hreq
    obtain ⟨op, r', heq, hop⟩ := hg _ he
    cases heq
    exact hop _ _ _ rfl

theorem Gathering.snoc (hg : Gathering h) (hop : ∀ q sid id, op ≠ .requeue q sid id)
    (r : Option op.Reply) : Gathering (h ++ [.call (.redis op) r]) := by
  intro e he
  rcases List.mem_append.mp he with he | he
  · exact hg e he
  · exact ⟨op, r, List.mem_singleton.mp he, hop⟩

theorem loadBodies_keeps (hg : Gathering h)
    (hA : ∀ h', h ⊆ h' → Gathering h' → ∀ e ∈ es, A h' (.getTask q e.2)) :
    Keeps A B F (fun h' bs => h ⊆ h' ∧ (∀ l, bs = some l → Bodies q h' es l) ∧ Gathering h') h
      (loadBodies q es) := by
  induction es generalizing h with
  | nil =>
    refine ⟨List.Subset.refl _, fun l hl => ?_, hg⟩
    cases hl
    exact .nil
  | cons e es ih =>
    obtain ⟨sid, id⟩ := e
    refine ⟨hA h (List.Subset.refl _) hg _ List.mem_cons_self, fun b => ?_⟩
    have h₁ : h ⊆ h ++ [.call (.redis (.getTask q id)) b] := List.subset_append_left _ _
    have hg₁ : Gathering (h ++ [.call (.redis (.getTask q id)) b]) :=
      hg.snoc (by rintro _ _ _ ⟨⟩) b
    change Keeps A B F _ _ (loadBodies q es >>= _)
    refine Prog.Follows.bind (ih hg₁ fun h' hs hg' e he => hA h' (List.Subset.trans h₁ hs) hg' e
      (List.mem_cons_of_mem _ he)) ?_
    rintro h₂ bs ⟨h₁₂, hbs, hg₂⟩
    rcases b with _ | b
    · exact ⟨List.Subset.trans h₁ h₁₂, (fun _ hl => nomatch hl), hg₂⟩
    · rcases bs with _ | bs
      · exact ⟨List.Subset.trans h₁ h₁₂, (fun _ hl => nomatch hl), hg₂⟩
      · refine ⟨List.Subset.trans h₁ h₁₂, fun l hl => ?_, hg₂⟩
        cases hl
        exact .cons (h₁₂ did_snoc) (hbs bs rfl)

theorem dequeued_sids_sublist (bs : List (Nat × Option TaskMessage)) :
    ((dequeued bs).map Prod.fst).Sublist (bs.map Prod.fst) := by
  induction bs with
  | nil => exact List.Sublist.refl _
  | cons b bs ih =>
    obtain ⟨sid, _ | m⟩ := b
    · exact ih.cons _
    · exact ih.cons_cons _

theorem dropOrphans_keeps {sids : List Nat} (hg : Gathering h)
    (hA : sids ≠ [] → A h (.ackOrphans q sids)) :
    Keeps A B F (fun h' _ => h ⊆ h' ∧ Gathering h') h (dropOrphans q sids) := by
  unfold dropOrphans
  split
  · exact ⟨List.Subset.refl _, hg⟩
  · rename_i hne
    exact ⟨hA hne, fun r => ⟨List.subset_append_left _ _, hg.snoc (by rintro _ _ _ ⟨⟩) r⟩⟩

theorem markAll_keeps (hg : Gathering h)
    (hA : ∀ h', h ⊆ h' → Gathering h' → ∀ t ∈ ts, A h' (.markActive q t.2.id)) :
    Keeps A B F (fun h' ok => h ⊆ h' ∧
      (ok = true → ∀ t ∈ ts, Did h' (.markActive q t.2.id) ()) ∧ Gathering h') h
      (markAll q ts) := by
  induction ts generalizing h with
  | nil => exact ⟨List.Subset.refl _, fun _ t ht => absurd ht List.not_mem_nil, hg⟩
  | cons t ts ih =>
    refine ⟨hA h (List.Subset.refl _) hg _ List.mem_cons_self, fun r => ?_⟩
    have h₁ : h ⊆ h ++ [.call (.redis (.markActive q t.2.id)) r] := List.subset_append_left _ _
    have hg₁ : Gathering (h ++ [.call (.redis (.markActive q t.2.id)) r]) :=
      hg.snoc (by rintro _ _ _ ⟨⟩) r
    change Keeps A B F _ _ (markAll q ts >>= _)
    refine Prog.Follows.bind (ih hg₁ fun h' hs hg' u hu => hA h' (List.Subset.trans h₁ hs) hg' u
      (List.mem_cons_of_mem _ hu)) ?_
    rintro h₂ ok ⟨h₁₂, hok, hg₂⟩
    refine ⟨List.Subset.trans h₁ h₁₂, fun hb u hu => ?_, hg₂⟩
    obtain ⟨hr, hk⟩ := Bool.and_eq_true_iff.mp hb
    rcases List.mem_cons.mp hu with rfl | hu
    · obtain ⟨⟨⟩, rfl⟩ := Option.isSome_iff_exists.mp hr
      exact h₁₂ did_snoc
    · exact hok hk u hu

/-- The tasks a fetch round may still dispatch: each was loaded and marked, and if
the round was given different entries, each is still undispatched. -/
structure Dispatchable (q consumer : String) (count : Nat) (h : Hist)
    (ts : List (Nat × TaskMessage)) : Prop where
  loaded : ∀ t ∈ ts, ∃ m, Loaded q consumer count h t.1 m ∧ t.2 = { m with state := .active } ∧
    Did h (.markActive q m.id) ()
  sids : DistinctEntries q consumer count h → (ts.map Prod.fst).Nodup
  fresh : DistinctEntries q consumer count h → ∀ t ∈ ts, Undispatched h t.1

theorem DistinctEntries.of_subset (hd : DistinctEntries q consumer count h') (hs : h ⊆ h') :
    DistinctEntries q consumer count h := fun entries he => hd entries (he.mono hs)

/-- Dispatching or returning the first task leaves the others. -/
theorem Dispatchable.tail {t : Nat × TaskMessage} (hd : Dispatchable q consumer count h (t :: ts))
    (hf : ∀ q' sid m, e = .fork (.work q' sid m) → sid = t.1)
    (hr : ∀ q' sid id r, e = .call (.redis (.requeue q' sid id)) r → sid = t.1) :
    Dispatchable q consumer count (h ++ [e]) ts := by
  have hsub : h ⊆ h ++ [e] := List.subset_append_left _ _
  refine ⟨fun u hu => ?_, fun hn => ?_, fun hn u hu => ?_⟩
  · obtain ⟨m, hl, hm, hd⟩ := hd.loaded u (List.mem_cons_of_mem _ hu)
    exact ⟨m, hl.mono hsub, hm, hd.mono hsub⟩
  · exact (List.nodup_cons.mp (hd.sids (hn.of_subset hsub))).2
  · have hne : u.1 ≠ t.1 := by
      intro heq
      exact (List.nodup_cons.mp (hd.sids (hn.of_subset hsub))).1
        (heq ▸ List.mem_map.mpr ⟨u, hu, rfl⟩)
    obtain ⟨hfork, hreq⟩ := hd.fresh (hn.of_subset hsub) u (List.mem_cons_of_mem _ hu)
    refine ⟨fun q' m he => ?_, fun q' id ht => ?_⟩
    · rcases List.mem_append.mp he with he | he
      · exact hfork q' m he
      · exact hne (hf q' _ m (List.mem_singleton.mp he).symm)
    · rcases tried_snoc.mp ht with ht | ⟨r, he⟩
      · exact hreq q' id ht
      · exact hne (hr q' _ id r he)

theorem dispatch_keeps (us : List (Nat × TaskMessage))
    (hd : Dispatchable q consumer count h (ts ++ us)) :
    Keeps A B (FetchFork q consumer count) (fun h' _ => Dispatchable q consumer count h' us) h
      (dispatch ts) := by
  induction ts generalizing h with
  | nil => exact hd
  | cons t ts ih =>
    obtain ⟨m, hl, hm, hmark⟩ := hd.loaded t List.mem_cons_self
    have hwork : FetchFork q consumer count h (.work m.queue t.1 { m with state := .active }) :=
      .work hl hmark fun hn => hd.fresh hn t List.mem_cons_self
    refine ⟨?_, ih (hd.tail ?_ ?_)⟩
    · rw [hm]
      exact hwork
    · rintro q' sid m' ⟨⟩
      rfl
    · rintro q' sid id r ⟨⟩

theorem requeueAll_keeps (hd : Dispatchable q consumer count h ts) :
    Keeps (FetchOp q consumer count) B F (fun _ _ => True) h (requeueAll ts) := by
  induction ts generalizing h with
  | nil => trivial
  | cons t ts ih =>
    obtain ⟨m, hl, hm, hmark⟩ := hd.loaded t List.mem_cons_self
    have hreq : FetchOp q consumer count h (.requeue m.queue t.1 m.id) :=
      .requeue hl hmark fun hn => hd.fresh hn t List.mem_cons_self
    refine ⟨?_, fun r => ih (hd.tail ?_ ?_)⟩
    · rw [hm]
      exact hreq
    · rintro q' sid m' ⟨⟩
    · rintro q' sid id r ⟨⟩
      rfl

theorem dequeueBatch_keeps :
    Keeps (FetchOp q consumer count) B F (fun h' ts => Dispatchable q consumer count h' ts) []
      (dequeueBatch q consumer count) := by
  have hnone : ∀ h, Dispatchable q consumer count h [] := fun h =>
    ⟨fun t ht => absurd ht List.not_mem_nil, fun _ => List.nodup_nil,
      fun _ t ht => absurd ht List.not_mem_nil⟩
  refine ⟨.read rfl, fun es => ?_⟩
  rcases es with _ | es
  · exact hnone _
  have hread : ∀ h', [.call (.redis (.xReadGroup q consumer (max count 1))) (some es)] ⊆ h' →
      ∀ e ∈ es, Fetched q consumer count h' e.1 e.2 :=
    fun h' hs e he => ⟨es, hs (List.mem_singleton_self _), he⟩
  change Keeps _ _ _ _ _ (loadBodies q es >>= _)
  have hg : Gathering [.call (.redis (.xReadGroup q consumer (max count 1))) (some es)] := by
    intro e he
    exact ⟨_, _, List.mem_singleton.mp he, fun _ _ _ heq => nomatch heq⟩
  refine Prog.Follows.bind (loadBodies_keeps hg fun h' hs hg' e he =>
    .load (hread h' hs e he) hg'.undispatched) ?_
  rintro h₁ bs ⟨hs₁, hbs, hg₁⟩
  rcases bs with _ | bs
  · exact hnone _
  have hb := hbs bs rfl
  change Keeps _ _ _ _ _ (dropOrphans q (orphanEntries bs) >>= _)
  refine Prog.Follows.bind (dropOrphans_keeps hg₁ fun _ => .orphans fun sid hsid => ?_) ?_
  · obtain ⟨b, hm, rfl⟩ := List.mem_map.mp hsid
    obtain ⟨hm, hn⟩ := List.mem_filter.mp hm
    obtain ⟨id, hid, hd⟩ := hb.exists_id hm
    rw [Option.isNone_iff_eq_none.mp hn] at hd
    exact ⟨id, hread h₁ hs₁ _ hid, hd⟩
  · rintro h₂ ⟨⟩ ⟨hs₂, hg₂⟩
    -- a task of the batch was loaded from a delivered entry
    have hload : ∀ t ∈ dequeued bs, ∃ m, Loaded q consumer count h₂ t.1 m ∧
        t.2 = { m with state := .active } := by
      intro t ht
      obtain ⟨b, hm, hb'⟩ := List.mem_filterMap.mp ht
      obtain ⟨m, hbm, rfl⟩ := Option.map_eq_some_iff.mp hb'
      obtain ⟨id, hid, hd⟩ := hb.exists_id hm
      rw [hbm] at hd
      exact ⟨m, ⟨id, hread h₂ (List.Subset.trans hs₁ hs₂) _ hid, hd.mono hs₂⟩, rfl⟩
    change Keeps _ _ _ _ _ (markAll q (dequeued bs) >>= _)
    refine Prog.Follows.bind (markAll_keeps hg₂ fun h' hs hg' t ht => ?_) ?_
    · obtain ⟨m, hl, hm⟩ := hload t ht
      have hmark : FetchOp q consumer count h' (.markActive q m.id) :=
        .mark (hl.mono hs) hg'.undispatched
      rw [hm]
      exact hmark
    · rintro h₃ (_ | _) ⟨hs₃, hmark, hg₃⟩
      · exact hnone _
      · refine ⟨fun t ht => ?_, fun hn => ?_, fun _ t ht => ?_⟩
        · obtain ⟨m, hl, hm⟩ := hload t ht
          refine ⟨m, hl.mono hs₃, hm, ?_⟩
          have hdid := hmark rfl t ht
          rwa [hm] at hdid
        · have hes := hn es ((List.Subset.trans (List.Subset.trans hs₁ hs₂) hs₃)
            (List.mem_singleton_self _))
          rw [← hb.sids] at hes
          exact hes.sublist (dequeued_sids_sublist bs)
        · exact hg₃.undispatched _

theorem fetch_keeps {keep : Nat} :
    Keeps (FetchOp q consumer count) B (FetchFork q consumer count) (fun _ _ => True) []
      (fetch q consumer count keep) := by
  refine Prog.Follows.bind dequeueBatch_keeps fun h₁ ts hd => ?_
  refine Prog.Follows.bind (dispatch_keeps (ts.drop (keep + 1)) ?_)
    (fun h₂ _ hd => requeueAll_keeps hd)
  rw [List.take_append_drop]
  exact hd

end Fetch

/-! ## Recovering, deleting, sending -/

section Recover
variable {minIdle : Int} {max : Nat}

theorem Claimed.mono (hc : Claimed q consumer minIdle max h sid id) (hs : h ⊆ h') :
    Claimed q consumer minIdle max h' sid id := by
  obtain ⟨entries, hd, hm⟩ := hc
  exact ⟨entries, hd.mono hs, hm⟩

theorem recoverEntry_keeps {now : Int} (hc : Claimed q consumer minIdle max h sid id) :
    Keeps (RecoverOp q consumer minIdle max) B F (fun h' _ => h ⊆ h') h
      (recoverEntry q now sid id) := by
  refine ⟨.load hc, fun b => ?_⟩
  have h₁ : h ⊆ h ++ [.call (.redis (.getTask q id)) b] := List.subset_append_left _ _
  rcases b with _ | _ | m
  · exact h₁
  · exact ⟨.orphan (hc.mono h₁) did_snoc,
      fun _ => List.Subset.trans h₁ (List.subset_append_left _ _)⟩
  · have ht : ∀ h', h ++ [.call (.redis (.getTask q id)) (some (some m))] ⊆ h' →
        ClaimedTask q consumer minIdle max h' sid m :=
      fun h' hs => ⟨id, hc.mono (List.Subset.trans h₁ hs), hs did_snoc⟩
    change Keeps _ _ _ _ _ (if m.maxRetry ≤ m.retried then _ else _)
    split
    · rename_i hx
      refine ⟨.archive (ht _ (List.Subset.refl _)) hx, fun a => ?_⟩
      have h₂ := List.Subset.trans h₁ (List.subset_append_left _
        [.call (.redis (.moveToZSet q sid m .archived (unix now * second))) a])
      rcases a with _ | ⟨⟩
      · exact h₂
      · change Keeps _ _ _ _ _ (releaseUnique m)
        unfold releaseUnique
        split
        · exact h₂
        · rename_i hk
          exact ⟨.release (ht _ (List.subset_append_left _ _)) ⟨_, rfl⟩ hk,
            fun _ => List.Subset.trans h₂ (List.subset_append_left _ _)⟩
    · rename_i hx
      exact ⟨.retry (ht _ (List.Subset.refl _)) hx,
        fun _ => List.Subset.trans h₁ (List.subset_append_left _ _)⟩

theorem recover_keeps :
    Keeps (RecoverOp q consumer minIdle max) B F (fun _ _ => True) []
      (recover q consumer minIdle max) := by
  refine ⟨.claim rfl, fun es => ?_⟩
  rcases es with _ | es
  · trivial
  refine ⟨trivial, fun now => ?_⟩
  -- the loop, over a part of the claimed entries
  have hloop : ∀ es' h, (∀ e ∈ es', Claimed q consumer minIdle max h e.1 e.2) →
      Keeps (RecoverOp q consumer minIdle max) B F (fun _ _ => True) h
        (recoverEntries q now es') := by
    intro es'
    induction es' with
    | nil => exact fun h _ => trivial
    | cons e es' ih =>
      intro h hc
      exact Prog.Follows.bind (recoverEntry_keeps (hc e List.mem_cons_self)) fun h' _ hs =>
        ih h' fun e' he' => (hc e' (List.mem_cons_of_mem _ he')).mono hs
  exact hloop es _ fun e he => ⟨es, List.mem_append_left _ did_snoc, he⟩

end Recover

theorem deleteTask_keeps :
    Keeps (DeleteOp q id) B F (fun _ _ => True) [] (deleteTask q id) := by
  refine ⟨.load rfl, fun b => ?_⟩
  rcases b with _ | b
  · trivial
  refine ⟨.delete (List.mem_singleton_self _), fun a => ?_⟩
  rcases a with _ | ⟨⟩
  · trivial
  rcases b with _ | m
  · trivial
  · change Keeps _ _ _ _ _ (releaseUnique m)
    unfold releaseUnique
    split
    · trivial
    · rename_i hk
      exact ⟨.release (List.mem_append_left _ (List.mem_singleton_self _)) ⟨_, rfl⟩ hk,
        fun _ => trivial⟩

/-- Sending: the history is as long as the requests already answered. -/
theorem sendAll_keeps (sent ops : List Op) (hlen : h.length = sent.length)
    (hdid : ∀ op ∈ sent, ∃ r, Did h op r) :
    Keeps (SendOp (sent ++ ops)) B F (fun h' _ => (∀ op, Event.call (Cmd.redis op) none ∉ h') →
      ∀ op ∈ sent ++ ops, ∃ r, Did h' op r) h (sendAll ops) := by
  induction ops generalizing sent h with
  | nil =>
    intro _ op hop
    rw [List.append_nil] at hop
    exact hdid op hop
  | cons op ops ih =>
    refine ⟨⟨?_, ?_⟩, fun r => ?_⟩
    · rw [hlen, List.getElem?_append_right (Nat.le_refl _), Nat.sub_self]
      rfl
    · intro n o hn ho
      rw [hlen] at hn
      rw [List.getElem?_append_left hn] at ho
      exact hdid o (List.mem_of_getElem? ho)
    · change Keeps _ _ _ _ _ (if r.isSome then sendAll ops else pure ())
      rcases r with _ | r
      · intro hnone
        exact absurd List.mem_concat_self (hnone op)
      · change Keeps _ _ _ _ _ (sendAll ops)
        have hsent : sent ++ op :: ops = (sent ++ [op]) ++ ops := by simp
        rw [hsent]
        refine ih (sent ++ [op]) (by simp [hlen]) fun o ho => ?_
        rcases List.mem_append.mp ho with ho | ho
        · obtain ⟨r', hr'⟩ := hdid o ho
          exact ⟨r', List.mem_append_left _ hr'⟩
        · rw [List.mem_singleton.mp ho]
          exact ⟨r, did_snoc⟩

/-- **The routines keep to the protocol**, whatever Redis, the clock and the
handlers reply. -/
theorem obeys_protocol (g : Regime) (k : Keys) : (g.machine k).Obeys protocol := by
  intro j
  cases j with
  | send op =>
    exact Prog.Follows.mono (sendAll_keeps [] [op] rfl (by simp)) fun _ _ _ => trivial
  | sendAll ops => exact sendAll_keeps [] ops rfl (by simp)
  | deleteTask q id => exact deleteTask_keeps
  | fetch q consumer count keep => exact fetch_keeps
  | work q sid msg => exact process_keeps
  | recover q consumer minIdle max => exact recover_keeps

end ChronosGo
