import Mathlib.Logic.Function.Basic

/-! # A lock that expires

A key names an owner and says until when.  Whoever finds it free, expired or its own
takes it anew; an owner may give it up.  What the key is for is said without it: every
owner has a term of its own, and the key grants a term only while no other one is
running.  `Agrees` relates the two, and is kept by all that happens to the key.
-/
namespace Lease
variable {ι : Type} [DecidableEq ι]

/-- The key: its owner, and when it expires. -/
structure Held (ι : Type) where
  owner : ι
  expireAt : Int
deriving DecidableEq

/-- Who holds the key at a time. -/
def holder (k : Option (Held ι)) (now : Int) : Option ι :=
  match k with
  | some h => if now < h.expireAt then some h.owner else none
  | none => none

/-- Take the key if it is free, or extend it if it is one's own; whether it is one's own
after that. -/
def acquire (k : Option (Held ι)) (i : ι) (now ttl : Int) : Bool × Option (Held ι) :=
  match holder k now with
  | none => (true, some ⟨i, now + ttl⟩)
  | some j => if j = i then (true, some ⟨i, now + ttl⟩) else (false, k)

/-- Give the key up if it is one's own. -/
def release (k : Option (Held ι)) (i : ι) (now : Int) : Option (Held ι) :=
  if holder k now = some i then none else k

omit [DecidableEq ι] in
theorem holder_eq_some {k : Option (Held ι)} {now : Int} {i : ι} :
    holder k now = some i ↔ ∃ d, k = some ⟨i, d⟩ ∧ now < d := by
  constructor
  · intro h
    obtain _ | ⟨j, d⟩ := k
    · cases h
    · simp only [holder] at h
      split at h
      · cases h
        exact ⟨d, rfl, ‹_›⟩
      · cases h
  · rintro ⟨d, rfl, hd⟩
    exact if_pos hd

/-- The two ways an attempt on the key ends. -/
theorem acquire_cases (k : Option (Held ι)) (i : ι) (now ttl : Int) :
    ((∀ j, holder k now = some j → j = i) ∧ acquire k i now ttl = (true, some ⟨i, now + ttl⟩)) ∨
      ∃ j, j ≠ i ∧ holder k now = some j ∧ acquire k i now ttl = (false, k) := by
  cases hk : holder k now with
  | none => exact Or.inl ⟨by simp, by simp only [acquire, hk]⟩
  | some j =>
    by_cases hj : j = i
    · refine Or.inl ⟨fun _ h => Option.some.inj h ▸ hj, ?_⟩
      simp only [acquire, hk, if_pos hj]
    · refine Or.inr ⟨j, hj, rfl, ?_⟩
      simp only [acquire, hk, if_neg hj]

/-! ## Terms -/

/-- When the term of each owner ends, for those that have one. -/
abbrev Terms (ι : Type) : Type := ι → Option Int

/-- The owner's term is running. -/
def Terms.Running (T : Terms ι) (now : Int) (i : ι) : Prop := ∃ d, T i = some d ∧ now < d

/-- The key names the owner whose term is running. -/
def Agrees (k : Option (Held ι)) (T : Terms ι) (now : Int) : Prop :=
  ∀ i d, now < d → (k = some ⟨i, d⟩ ↔ T i = some d)

variable {k : Option (Held ι)} {T : Terms ι} {now : Int} {i j : ι}

omit [DecidableEq ι] in
theorem agrees_none (now : Int) : Agrees (ι := ι) none (fun _ => none) now :=
  fun _ _ _ => by simp

namespace Agrees

omit [DecidableEq ι] in
/-- Time passes. -/
theorem later (h : Agrees k T now) {t : Int} (ht : now ≤ t) : Agrees k T t :=
  fun i d hd => h i d (by omega)

omit [DecidableEq ι] in
theorem holder_iff (h : Agrees k T now) : holder k now = some i ↔ T.Running now i := by
  rw [holder_eq_some]
  constructor
  · rintro ⟨d, hk, hd⟩
    exact ⟨d, (h i d hd).mp hk, hd⟩
  · rintro ⟨d, hT, hd⟩
    exact ⟨d, (h i d hd).mpr hT, hd⟩

omit [DecidableEq ι] in
/-- **At most one term is running.** -/
theorem exclusive (h : Agrees k T now) (hi : T.Running now i) (hj : T.Running now j) : i = j :=
  Option.some.inj ((h.holder_iff.mpr hi).symm.trans (h.holder_iff.mpr hj))

/-- An attempt succeeds if no other term is running, and only then. -/
theorem acquire_iff (h : Agrees k T now) (ttl : Int) :
    (acquire k i now ttl).1 = true ↔ ∀ j, T.Running now j → j = i := by
  rcases acquire_cases k i now ttl with ⟨hown, heq⟩ | ⟨j, hj, hk, heq⟩
  · rw [heq]
    exact ⟨fun _ j hj => hown j (h.holder_iff.mpr hj), fun _ => rfl⟩
  · rw [heq]
    exact ⟨by simp, fun hall => absurd (hall j (h.holder_iff.mp hk)) hj⟩

/-- A successful attempt begins a term. -/
theorem granted (h : Agrees k T now) {ttl : Int} (hwon : (acquire k i now ttl).1 = true) :
    Agrees (acquire k i now ttl).2 (Function.update T i (some (now + ttl))) now := by
  have hother := (h.acquire_iff ttl).mp hwon
  rcases acquire_cases k i now ttl with ⟨-, heq⟩ | ⟨j, -, -, heq⟩
  · rw [heq]
    intro j d hd
    by_cases hj : j = i
    · subst hj
      rw [Function.update_self]
      simp
    · rw [Function.update_of_ne hj]
      constructor
      · intro hk
        cases hk
        exact absurd rfl hj
      · intro hT
        exact absurd (hother j ⟨d, hT, hd⟩) hj
  · rw [heq] at hwon
    cases hwon

/-- A refused one changes nothing. -/
theorem refused {ttl : Int} (h : Agrees k T now) (hlost : (acquire k i now ttl).1 = false) :
    Agrees (acquire k i now ttl).2 T now := by
  rcases acquire_cases k i now ttl with ⟨-, heq⟩ | ⟨j, -, -, heq⟩
  · rw [heq] at hlost
    cases hlost
  · rw [heq]
    exact h

/-- Giving the key up ends the term. -/
theorem released (h : Agrees k T now) :
    Agrees (release k i now) (Function.update T i none) now := by
  intro j d hd
  by_cases hj : j = i
  · subst hj
    rw [Function.update_self]
    refine ⟨fun hk => ?_, by simp⟩
    simp only [release] at hk
    split at hk
    · cases hk
    · rename_i hne
      exact absurd (holder_eq_some.mpr ⟨d, hk, hd⟩) hne
  · rw [Function.update_of_ne hj, ← h j d hd]
    simp only [release]
    split
    · rename_i hk
      refine ⟨by simp, fun hk' => ?_⟩
      rw [holder_eq_some.mpr ⟨d, hk', hd⟩] at hk
      exact absurd (Option.some.inj hk) hj
    · rfl

end Agrees
end Lease
