import ChronosGo.Solo
import ChronosGo.World

/-! # Routines that run alone

What a routine does to the store when nothing else moves, no time passes and no
request fails.  `World.alone` runs it to its end; the lemmas say how it gets there,
command by command.
-/
namespace ChronosGo
open Interleaving

namespace World
variable {α β : Type} {k : Keys} {w : World}

/-- The answer to a command; a handler returns no result. -/
def answer (k : Keys) : (c : Cmd) → World → c.Reply × World
  | .now, w => (w.now, w)
  | .retryDelay _ _, w => (0, w)
  | .ctxDone, w => (false, w)
  | .handle msg, w => (.ok none, w.handled msg (.ok none))
  | .redis op, w => (some (w.reply k op), w.perform k 0 op)

/-- The result of a routine and the world after it. -/
def alone (k : Keys) (p : Routine α) (w : World) : Option (α × World) := p.execute (answer k) w

@[simp] theorem alone_pure (a : α) : w.alone k (Pure.pure a) = some (a, w) := rfl

@[simp] theorem alone_redis (op : Op) :
    w.alone k (redis op) = some (some (w.reply k op), w.perform k 0 op) := rfl

@[simp] theorem alone_timeNow : w.alone k timeNow = some (w.now, w) := rfl

@[simp] theorem alone_bind (p : Routine α) (f : α → Routine β) :
    w.alone k (p >>= f) = (w.alone k p).bind fun a => a.2.alone k (f a.1) := by
  unfold alone
  induction p generalizing w with
  | pure a => rfl
  | call c g ih => exact ih _
  | fork j p ih => rfl

/-- The routine comes to an end. -/
def Ends (k : Keys) (p : Routine α) : Prop := ∀ w : World, ∃ r, w.alone k p = some r

theorem ends_pure (a : α) : Ends k (Pure.pure a) := fun _ => ⟨_, alone_pure a⟩

theorem ends_redis (op : Op) : Ends k (redis op) := fun _ => ⟨_, alone_redis op⟩

theorem ends_timeNow : Ends k timeNow := fun _ => ⟨_, alone_timeNow⟩

theorem Ends.bind {p : Routine α} {f : α → Routine β} (hp : Ends k p) (hf : ∀ a, Ends k (f a)) :
    Ends k (p >>= f) := by
  intro w
  obtain ⟨⟨a, w₁⟩, ha⟩ := hp w
  obtain ⟨b, hb⟩ := hf a w₁
  exact ⟨b, by rw [alone_bind, ha]; exact hb⟩

end World
end ChronosGo
