import ChronosGo.World

/-! # Replaying a run of the store

A run without failing requests in which no time passes, played from the choices of
who moves next and how handlers end.
-/
namespace ChronosGo
open Interleaving

/-- The answer to a command of process `i`; a handler ends with `out`, and a request
has to pass the check `allowed`. -/
def answer (k : Keys) (allowed : Nat → Op → World → Bool) (out : Outcome) (i : Nat) :
    (c : Cmd) → World → Option (c.Reply × World)
  | .now, w => some (w.now, w)
  | .retryDelay _ _, w => some (0, w)
  | .ctxDone, w => some (false, w)
  | .handle msg, w => some (out, w.handled msg out)
  | .redis op, w => if allowed i op w then some (some (w.reply k op), w.perform k i op) else none

/-- The player of a run of the store. -/
def player (k : Keys) (allowed : Nat → Op → World → Bool) :
    Player Cmd Cmd.Reply Job World Outcome Empty where
  start := Job.start
  give := fun i n j w => w.give i n j
  answer := answer k allowed
  env := fun e _ => nomatch e

/-- The choices of a replayed run; a handler returns no result unless it is said
otherwise. -/
abbrev Choice.go (i : Nat) : Interleaving.Choice Outcome Empty Job := .step i (.ok none)

/-- What a replay takes for granted about a regime: requests that pass the check
are permitted, and handlers may end in any way. -/
structure Regime.Lets (g : Regime) (allowed : Nat → Op → World → Bool) : Prop where
  allow : ∀ i op w, allowed i op w = true → g.allow i op w
  handler : ∀ w msg out, g.handler w msg out

theorem player_sound {g : Regime} {k : Keys} {allowed : Nat → Op → World → Bool}
    (hg : g.Lets allowed) : (player k allowed).Sound (g.machine k) where
  start := rfl
  give := rfl
  answer := fun out i c w a h => by
    cases c with
    | now =>
      cases h
      exact ⟨rfl, rfl⟩
    | retryDelay | ctxDone =>
      cases h
      rfl
    | handle msg =>
      cases h
      exact ⟨hg.handler w msg out, rfl⟩
    | redis op =>
      simp only [player, answer] at h
      split at h
      · rename_i hok
        cases h
        exact Or.inl ⟨hg.allow i op w hok, rfl, Or.inl rfl⟩
      · cases h
  env := fun e => nomatch e

/-- The answer to a command when a handler may end only in a way that passes the check
`may`. -/
def answerIf (k : Keys) (may : World → TaskMessage → Outcome → Bool) (out : Outcome) (i : Nat) :
    (c : Cmd) → World → Option (c.Reply × World)
  | .handle msg, w => if may w msg out then some (out, w.handled msg out) else none
  | c, w => answer k (fun _ _ _ => true) out i c w

/-- The player of a run in which all requests are permitted and handlers are not. -/
def carefulPlayer (k : Keys) (may : World → TaskMessage → Outcome → Bool) :
    Player Cmd Cmd.Reply Job World Outcome Empty where
  start := Job.start
  give := fun i n j w => w.give i n j
  answer := answerIf k may
  env := fun e _ => nomatch e

theorem carefulPlayer_sound {g : Regime} {k : Keys} {may : World → TaskMessage → Outcome → Bool}
    (hallow : ∀ i op w, g.allow i op w)
    (hmay : ∀ w msg out, may w msg out = true → g.handler w msg out) :
    (carefulPlayer k may).Sound (g.machine k) where
  start := rfl
  give := rfl
  answer := fun out i c w a h => by
    cases c with
    | now =>
      cases h
      exact ⟨rfl, rfl⟩
    | retryDelay | ctxDone =>
      cases h
      rfl
    | handle msg =>
      simp only [carefulPlayer, answerIf] at h
      split at h
      · rename_i hok
        cases h
        exact ⟨hmay w msg out hok, rfl⟩
      · cases h
    | redis op =>
      cases h
      exact Or.inl ⟨hallow i op w, rfl, Or.inl rfl⟩
  env := fun e => nomatch e

/-- A deployment to replay runs in. -/
def sampleKeys : Keys := ⟨"chronos", fun payload => toString payload.length⟩

/-- A task without options. -/
def sampleTask (id : String) : TaskMessage :=
  { id := id, kind := "mail", payload := [], queue := "q", maxRetry := 3 }

end ChronosGo
