/-
  Packrat.Proofs.SyntaxErrors

  Syntax errors of the list language are exact: the error stands at the first
  token that no sentence has there, and what it expects is every kind that some
  sentence has there, no more and no less.

  A reading that fails without the depth limit halts where the outlook does,
  and has noted every kind that can come there; the furthest of its mismatches
  gathers them.
-/

import Packrat.Proofs.Acceptance

namespace Packrat

variable {t : Nat → Token} {limit m : Nat} {misses : List (Nat × Kind)} {entry : Entry}

/-- The error is about the first token that cannot come, and expects what can. -/
structure SyntaxError.Exact (t : Nat → Token) (entry : Entry) (err : SyntaxError) : Prop where
  viable : entry.Viable (word t 0 err.position)
  not_viable : ¬entry.Viable (word t 0 (err.position + 1))
  found : err.found = (t err.position).kind
  lexeme : err.lexeme = (t err.position).text
  span : err.span = (t err.position).span
  expected : ∀ kind, err.expected.contains kind = true
    ↔ entry.Viable (word t 0 err.position ++ [kind])
  nonempty : err.expected ≠ .empty

/-- What can come after a word is what its outlook steps over. -/
theorem Entry.viable_append_singleton_iff {u : List Kind} {q : Outlook}
    (h : (Outlook.opening entry).run u = some q) (kind : Kind) :
    entry.Viable (u ++ [kind]) ↔ q.step kind ≠ none := by
  rw [Outlook.viable_iff, Outlook.run_append, h, Option.bind_some, Outlook.run_singleton]

/-- Where a reading halts without the depth limit, the furthest mismatch makes an exact error. -/
theorem Halts.exact (h : Halts t limit (.opening entry) 0 m misses []) :
    ∃ a, Mismatch.noted t misses = some a ∧
      (SyntaxError.ofToken a.position a.found a.expected).Exact t entry := by
  obtain ⟨q, hrun, -, ⟨kind, hcan⟩, hexact⟩ := h.run
  obtain ⟨hnone, hle, hnoted, -⟩ := hexact rfl
  have hrun := Outlook.run_of_runWithin hrun
  have hmem : (m, kind) ∈ misses := (hnoted kind).2 hcan
  obtain ⟨a, ha⟩ := Option.ne_none_iff_exists'.1
    (Mismatch.noted_ne_none (t := t) (List.ne_nil_of_mem hmem))
  obtain rfl : a.position = m := by
    obtain ⟨kind', hmem'⟩ := Mismatch.position_noted_mem ha
    exact Nat.le_antisymm (hle _ hmem') (Mismatch.le_position_noted ha hmem)
  have hfound : a.found = t a.position := Mismatch.onStream_noted t misses a ha
  refine ⟨a, ha, ?_⟩
  exact {
    viable := by
      refine Outlook.viable_iff.2 ?_
      show (Outlook.opening entry).run (word t 0 a.position) ≠ none
      rw [hrun]
      simp
    not_viable := by
      show ¬entry.Viable (word t 0 (a.position + 1))
      rw [word_succ t (Nat.zero_le _), Entry.viable_append_singleton_iff hrun, hnone]
      simp
    found := congrArg Token.kind hfound
    lexeme := congrArg Token.text hfound
    span := congrArg Token.span hfound
    expected := by
      intro kind
      show a.expected.contains kind = true ↔ entry.Viable (word t 0 a.position ++ [kind])
      rw [Entry.viable_append_singleton_iff hrun, ← hnoted, Mismatch.contains_noted ha]
    nonempty := by
      intro hempty
      have hcontains := (Mismatch.contains_noted ha kind).2 hmem
      rw [show a.expected = .empty from hempty, KindSet.contains_empty] at hcontains
      cases hcontains }

/-- The syntax errors of a reading with a verdict are exact. -/
theorem Verdict.exact_of_syntaxError {left : Kind → Prop} {r : Reading Bool} {err : SyntaxError}
    (h : Verdict t limit (.opening entry) 0 left (· = .done) r)
    (herror : r.recognition t limit 0 = .error (.syntaxError err)) : err.Exact t entry := by
  cases h with
  | passed _ hresult =>
      simp only [Reading.recognition, hresult] at herror
      cases herror
  | failed hresult hhalts =>
      simp only [Reading.recognition, hresult, Except.error.injEq] at herror
      cases hhits : r.hits with
      | cons hit hits =>
          simp only [Reading.failure, hhits] at herror
          cases herror
      | nil =>
          rw [hhits] at hhalts
          obtain ⟨a, ha, hexact⟩ := hhalts.exact
          simp only [Reading.failure, hhits, ha, ParseError.syntaxError.injEq] at herror
          rw [← herror]
          exact hexact

/-- The token that was found is not one of those expected. -/
theorem SyntaxError.Exact.not_contains_found {err : SyntaxError} (h : err.Exact t entry) :
    err.expected.contains err.found = false := by
  rw [← Bool.not_eq_true, h.expected, h.found, ← word_succ t (Nat.zero_le _)]
  exact h.not_viable

namespace Engine

/-- A syntax error of a parse stands at the first token that no sentence of the entry has after
    the tokens before it, and it expects the kinds that some sentence has there. -/
theorem syntaxError_exact (settings : Settings) (tokens : List Token) (entry : Entry)
    {err : SyntaxError} {e : Engine TokenList}
    (h : parse entry (ofSource settings (TokenList.ofTokens tokens))
      = .ok (.error (.syntaxError err)) e) :
    err.Exact (TokenSource.stream (TokenList.ofTokens tokens)) entry ∧
      err.expected.contains err.found = false := by
  obtain ⟨e', hparse⟩ := parse_eq settings tokens entry
  rw [h] at hparse
  injection hparse with hresult
  have hexact := (verdict_listReading tokens settings.maxDepth entry).exact_of_syntaxError
    hresult.symm
  exact ⟨hexact, hexact.not_contains_found⟩

/-- The tokens of `[a] b`. -/
def strayTokens : List Token :=
  [.unplaced .lbracket "[", .unplaced .name "a", .unplaced .rbracket "]", .unplaced .name "b"]

/-- What both alternatives of a statement expect behind a list. -/
theorem syntaxError_exact_of_stray :
    ∃ err e, parse .stat (ofSource ⟨true, 4⟩ (TokenList.ofTokens strayTokens))
        = .ok (.error (.syntaxError err)) e ∧
      err.expected = .ofList [.eof, .equals] ∧
      err.Exact (TokenSource.stream (TokenList.ofTokens strayTokens)) .stat := by
  have hrun : (match parse .stat (ofSource ⟨true, 4⟩ (TokenList.ofTokens strayTokens)) with
      | .ok (.error (.syntaxError err)) _ => err.expected == .ofList [.eof, .equals]
      | _ => false) = true := by decide +kernel
  split at hrun
  · next err e hparse =>
      exact ⟨err, e, hparse, beq_iff_eq.1 hrun, (syntaxError_exact _ strayTokens .stat hparse).1⟩
  · cases hrun

end Engine
end Packrat
