import Mathlib.Data.List.Infix

/-! # Glob patterns

Patterns as the server matches them: a star stands for any run of characters, a
question mark for one character, brackets for one character of a class, and a
backslash takes the next character as it is.

A pattern is read into tokens first.  Text without special characters stands for
itself (`tokens_append`), so `l*r` matches what begins with `l` and ends with `r`
(`matches_star`).  Text with a backslash stands for something shorter, and is never
matched by itself (`not_matches_self`).
-/
namespace Glob

/-- What one position of a pattern stands for. -/
inductive Token where
  | star
  | any
  | lit (c : Char)
  | oneOf (cls : List Char)
deriving DecidableEq, Repr

/-- The characters that do not stand for themselves. -/
def special : List Char := ['*', '?', '[', '\\']

/-- The pattern from left to right; the accumulator holds the class that is being read, in
reverse. -/
def tokens : Option (List Char) → List Char → List Token
  | none, [] => []
  | none, '*' :: cs => .star :: tokens none cs
  | none, '?' :: cs => .any :: tokens none cs
  | none, '[' :: cs => tokens (some []) cs
  | none, '\\' :: c :: cs => .lit c :: tokens none cs
  | none, c :: cs => .lit c :: tokens none cs
  | some cls, [] => [.oneOf cls.reverse]
  | some cls, ']' :: cs => .oneOf cls.reverse :: tokens none cs
  | some cls, '\\' :: c :: cs => tokens (some (c :: '\\' :: cls)) cs
  | some cls, c :: cs => tokens (some (c :: cls)) cs

/-- Single characters, escaped characters and ranges of a class. -/
def inClass : List Char → Char → Bool
  | [], _ => false
  | '\\' :: c :: cs, d => c == d || inClass cs d
  | a :: '-' :: b :: cs, d => (a ≤ d && d ≤ b) || (b ≤ d && d ≤ a) || inClass cs d
  | c :: cs, d => c == d || inClass cs d

/-- A class that begins with a caret is negated. -/
def classMatches : List Char → Char → Bool
  | '^' :: cls, d => !inClass cls d
  | cls, d => inClass cls d

def tokensMatch : List Token → List Char → Bool
  | [], s => s.isEmpty
  | .star :: ts, s => s.tails.any (tokensMatch ts)
  | _ :: _, [] => false
  | .any :: ts, _ :: s => tokensMatch ts s
  | .lit c :: ts, d :: s => c == d && tokensMatch ts s
  | .oneOf cls :: ts, d :: s => classMatches cls d && tokensMatch ts s

/-- The pattern matches the text. -/
def matchesText (pattern text : List Char) : Bool := tokensMatch (tokens none pattern) text

/-! ## Reading -/

theorem tokens_cons {c : Char} (hc : c ∉ special) (cs : List Char) :
    tokens none (c :: cs) = .lit c :: tokens none cs := by
  have hne {d : Char} (hd : d ∈ special) : c ≠ d := fun h => hc (h ▸ hd)
  rw [tokens]
  · exact hne (by decide)
  · exact hne (by decide)
  · exact hne (by decide)
  · exact fun _ _ h _ => hne (by decide) h

/-- Text without special characters stands for itself. -/
theorem tokens_append {l : List Char} (hl : ∀ c ∈ l, c ∉ special) (cs : List Char) :
    tokens none (l ++ cs) = l.map .lit ++ tokens none cs := by
  induction l with
  | nil => rfl
  | cons c l ih =>
    rw [List.cons_append, tokens_cons (hl c List.mem_cons_self),
      ih fun d hd => hl d (List.mem_cons_of_mem _ hd)]
    rfl

/-! ## Matching -/

theorem tokensMatch_star {ts : List Token} {s : List Char} :
    tokensMatch (.star :: ts) s = true ↔ ∃ u v, s = u ++ v ∧ tokensMatch ts v = true := by
  rw [tokensMatch, List.any_eq_true]
  constructor
  · rintro ⟨v, hv, hm⟩
    obtain ⟨u, rfl⟩ := (List.mem_tails v s).mp hv
    exact ⟨u, v, rfl, hm⟩
  · rintro ⟨u, v, rfl, hm⟩
    exact ⟨v, (List.mem_tails v _).mpr ⟨u, rfl⟩, hm⟩

theorem tokensMatch_lits {l : List Char} {ts : List Token} {s : List Char} :
    tokensMatch (l.map .lit ++ ts) s = true ↔ ∃ v, s = l ++ v ∧ tokensMatch ts v = true := by
  induction l generalizing s with
  | nil => exact ⟨fun h => ⟨s, rfl, h⟩, fun ⟨v, hv, h⟩ => hv ▸ h⟩
  | cons c l ih =>
    cases s with
    | nil =>
      constructor
      · intro h
        cases h
      · rintro ⟨v, hv, -⟩
        cases hv
    | cons d s =>
      rw [List.map_cons, List.cons_append, tokensMatch, Bool.and_eq_true, beq_iff_eq, ih]
      constructor
      · rintro ⟨rfl, v, rfl, hm⟩
        exact ⟨v, rfl, hm⟩
      · rintro ⟨v, hv, hm⟩
        obtain ⟨rfl, rfl⟩ := List.cons.inj hv
        exact ⟨rfl, v, rfl, hm⟩

/-- **One star.**  `l*r` matches the texts that begin with `l` and, after it, end with `r`. -/
theorem matches_star {l r s : List Char} (hl : ∀ c ∈ l, c ∉ special)
    (hr : ∀ c ∈ r, c ∉ special) :
    matchesText (l ++ '*' :: r) s = true ↔ ∃ m, s = l ++ (m ++ r) := by
  have hread : tokens none ('*' :: r) = .star :: r.map .lit := by
    have hrest := tokens_append hr []
    rw [List.append_nil] at hrest
    rw [tokens, hrest, tokens, List.append_nil]
  have hend (v : List Char) : tokensMatch (r.map .lit) v = true ↔ v = r := by
    have hlits : tokensMatch (r.map .lit ++ []) v = true ↔
        ∃ u, v = r ++ u ∧ tokensMatch [] u = true := tokensMatch_lits
    simpa [tokensMatch] using hlits
  rw [matchesText, tokens_append hl, hread, tokensMatch_lits]
  simp only [tokensMatch_star, hend]
  constructor
  · rintro ⟨v, rfl, m, u, rfl, rfl⟩
    exact ⟨m, rfl⟩
  · rintro ⟨m, rfl⟩
    exact ⟨m ++ r, rfl, m, r, rfl, rfl⟩

/-! ## Backslashes -/

/-- Of `m` backslashes every second one is matched, and then `x`, where the text still has
a backslash. -/
theorem not_tokensMatch_replicate {x : Char} (hx : x ∉ special) (ps s : List Char) :
    ∀ {m n : Nat}, m < 2 * n →
      tokensMatch (tokens none (List.replicate m '\\' ++ x :: ps))
        (List.replicate n '\\' ++ s) = false
  | _, 0, h => by omega
  | 0, n + 1, _ => by
    have hne : (x == '\\') = false := beq_eq_false_iff_ne.mpr fun h => hx (h ▸ by decide)
    rw [List.replicate_zero, List.nil_append, tokens_cons hx, List.replicate_succ,
      List.cons_append, tokensMatch, hne, Bool.false_and]
  | 1, n + 1, _ => by
    have hne : (x == '\\') = false := beq_eq_false_iff_ne.mpr fun h => hx (h ▸ by decide)
    rw [List.replicate_one, List.singleton_append, tokens, List.replicate_succ,
      List.cons_append, tokensMatch, hne, Bool.false_and]
  | m + 2, n + 1, h => by
    rw [List.replicate_succ, List.replicate_succ, List.cons_append, List.cons_append, tokens,
      List.replicate_succ, List.cons_append, tokensMatch,
      not_tokensMatch_replicate hx ps s (by omega), Bool.and_false]

/-- Text followed by another character is some backslashes and then a different character. -/
theorem exists_replicate_append {c : Char} (hc : c ≠ '\\') (w : List Char) :
    ∃ n x v, x ≠ '\\' ∧ x ∈ w ++ [c] ∧ w ++ [c] = List.replicate n '\\' ++ x :: v := by
  induction w with
  | nil => exact ⟨0, c, [], hc, List.mem_singleton_self c, rfl⟩
  | cons d w ih =>
    by_cases hd : d = '\\'
    · subst hd
      obtain ⟨n, x, v, hx, hmem, heq⟩ := ih
      refine ⟨n + 1, x, v, hx, List.mem_cons_of_mem _ hmem, ?_⟩
      rw [List.cons_append, heq, List.replicate_succ, List.cons_append]
    · exact ⟨0, d, w ++ [c], hd, List.mem_cons_self, rfl⟩

/-- **A backslash hides the text.**  If the only special characters of `p` are backslashes
and it has one, a pattern that begins with `p` and an ordinary character does not match a
text that begins so. -/
theorem not_matches_self {p : List Char} (hp : ∀ c ∈ p, c ≠ '\\' → c ∉ special)
    (hback : '\\' ∈ p) {c : Char} (hc : c ∉ special) (cs s : List Char) :
    matchesText (p ++ c :: cs) (p ++ c :: s) = false := by
  have hslash : c ≠ '\\' := fun h => hc (h ▸ by decide)
  obtain ⟨l, w, rfl, hl⟩ := List.eq_append_cons_of_mem hback
  obtain ⟨n, x, v, hx, hmem, heq⟩ := exists_replicate_append hslash w
  have hxs : x ∉ special := by
    rcases List.mem_append.mp hmem with hw | hw
    · exact hp x (by simp [hw]) hx
    · exact List.mem_singleton.mp hw ▸ hc
  have hplain : ∀ d ∈ l, d ∉ special := by
    intro d hd
    refine hp d (List.mem_append_left _ hd) ?_
    rintro rfl
    exact hl hd
  -- both go on with the same backslashes after the part without special characters
  have hsplit (t : List Char) : l ++ '\\' :: w ++ c :: t =
      l ++ (List.replicate (n + 1) '\\' ++ x :: (v ++ t)) := by
    have hcons : w ++ c :: t = w ++ [c] ++ t := by simp
    rw [List.append_assoc, List.cons_append, hcons, heq]
    simp [List.replicate_succ]
  rw [hsplit, hsplit, matchesText, tokens_append hplain, Bool.eq_false_iff, Ne, tokensMatch_lits]
  rintro ⟨u, hu, hm⟩
  rw [← List.append_cancel_left hu, not_tokensMatch_replicate hxs _ _ (by omega)] at hm
  cases hm

end Glob
