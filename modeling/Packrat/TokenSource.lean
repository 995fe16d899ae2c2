/-
  Packrat.TokenSource

  Where tokens come from.  A source hands out one token at a time and never
  runs dry: once the input is exhausted every further token is an end of
  input.  `pending` bounds how many tokens are left before that tail, which is
  what bounds the work of a recognition.
-/

import Packrat.Token

namespace Packrat

/-- A producer of tokens with an infinite end-of-input tail. -/
class TokenSource (σ : Type) where
  /-- The next token and the source after it. -/
  next : σ → Token × σ
  /-- A bound on the number of tokens left before the end-of-input tail. -/
  pending : σ → Nat

/-- A source over tokens that are known in advance.  End-of-input tokens among them are
    handed out like any other. -/
structure TokenList where
  /-- The tokens not handed out yet. -/
  remaining : List Token
  /-- How many tokens were handed out, the tail included. -/
  handedOut : Nat
  /-- The token of the tail. -/
  tail : Token
deriving DecidableEq, Repr

namespace TokenList

/-- The source over `tokens`; its tail stands where the last of them ends. -/
def ofTokens (tokens : List Token) : TokenList :=
  ⟨tokens, 0, .eof (match tokens.getLast? with
    | some token => token.span.stop
    | none => 0)⟩

/-- The source over tokens without a place, given as kinds and texts. -/
def ofKinds (kinds : List (Kind × String)) : TokenList :=
  ofTokens (kinds.map fun (kind, text) => .unplaced kind text)

/-- The next token. -/
def next (s : TokenList) : Token × TokenList :=
  match s.remaining with
  | [] => (s.tail, { s with handedOut := s.handedOut + 1 })
  | token :: rest => (token, { s with remaining := rest, handedOut := s.handedOut + 1 })

instance : TokenSource TokenList where
  next := next
  pending s := s.remaining.length

end TokenList
end Packrat
