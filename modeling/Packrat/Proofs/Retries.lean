/-
  Packrat.Proofs.Retries

  A rejected parse leaves no trace for the next one.

  A rejected parse goes back to where it started, but it leaves a longer buffer
  behind, and in the memo the outcomes of all rules that it tried.  Beside the
  engine runs one that keeps no outcomes (`Beside`), and to that one a longer
  buffer makes no difference.  So a parse makes of the source what the reading
  of the entry says, after whatever rejections; it pulls what the reading calls
  for, less what was pulled before.

  That is shown of sources that run dry, where every reading ends.  A parse that
  ends has pulled a list of tokens from its source, so it holds of every source.
-/

import Packrat.Proofs.Acceptance
import Packrat.Proofs.Foresight

namespace Packrat
namespace Engine

open TokenSource (taken agreeBelow_taken endsBy_taken)

variable {σ ν : Type} [TokenSource σ] {s : σ} {settings : Settings} {bound n : Nat}
variable {entry : Entry} {e e' e₂ : Engine σ} {result : Except ParseError Match}

-- ============================================================================
-- What a recognition pulls
-- ============================================================================

/-- A recognition pulls what its reading calls for.  Only one that fails without a mismatch and
    without a hit of the depth limit looks at one more token to report it. -/
theorem pulled_of_recognize {g : Grammar ν} (h : Idle s e) (hplain : e.settings.memoize = false)
    (hg : ∀ name, (g name).StackFree) {rule : Rule ν} (hrule : rule.StackFree) {matched : Bool}
    {r : Reading Bool} (hread : (groundAt s g e).read n 0 rule e.buffer.position = r)
    (hends : r.result = .ok matched)
    (hnoted : matched = false → r.hits = [] → r.misses ≠ [])
    (hrun : recognize g n rule e = .ok result e') :
    e'.buffer.pulled = max e.buffer.pulled (r.extent none) := by
  subst hread
  obtain ⟨e₁, hbody, hmoved, -⟩ := exists_moved h hplain hg n hrule hends
  generalize (groundAt s g e).read n 0 rule e.buffer.position = r at *
  refine Eq.trans ?_ hmoved.pulled
  obtain ⟨e₁', ⟨hbody', hcommit, -⟩ | ⟨hbody', e₃, err, habandon, hfailure, -⟩⟩ :=
    recognizing_eq_ok hrun
  · rw [hbody] at hbody'
    cases hbody'
    exact pulled_of_commit hcommit
  · rw [hbody] at hbody'
    cases hbody'
    obtain ⟨mark, marks, -, -, rfl⟩ := abandon_eq_ok habandon
    have hhit : (e₁.abandoned mark marks).depthHit
        = DepthHit.first (TokenSource.stream s) r.hits := hmoved.depthHit
    have hfurthest : (e₁.abandoned mark marks).furthest
        = Mismatch.noted (TokenSource.stream s) r.misses :=
      hmoved.furthest.trans (Mismatch.none_join _)
    cases hhits : r.hits with
    | cons hit hits =>
        rw [hhits] at hhit
        rw [failure_of_hit hhit] at hfailure
        cases hfailure
        rfl
    | nil =>
        obtain ⟨m, hm⟩ := Option.ne_none_iff_exists'.1
          (Mismatch.noted_ne_none (t := TokenSource.stream s) (hnoted rfl hhits))
        rw [hhits] at hhit
        rw [failure_of_mismatch hhit (hfurthest.trans hm)] at hfailure
        cases hfailure
        rfl

-- ============================================================================
-- Parses from the start
-- ============================================================================

/-- The engine is at the start of its source, and beside it is one that keeps no outcomes. -/
structure Beside (s : σ) (settings : Settings) (e e₂ : Engine σ) : Prop where
  idle : Idle s e₂
  plain : e₂.settings = ⟨false, settings.maxDepth⟩
  base : e₂.buffer.base = 0
  cursor : e₂.buffer.cursor = 0
  same : settings.memoize = false → e = e₂
  abreast : settings.memoize = true → Abreast s settings.maxDepth e e₂

theorem beside_ofSource (settings : Settings) (s : σ) :
    ∃ e₂, Beside s settings (ofSource settings s) e₂ := by
  obtain ⟨memoize, maxDepth⟩ := settings
  refine ⟨ofSource ⟨false, maxDepth⟩ s, idle_ofSource _ s, rfl, rfl, rfl, fun hplain => ?_,
    fun hkeeps => ?_⟩
  · rw [show memoize = false from hplain]
  · rw [show memoize = true from hkeeps]
    exact abreast_ofSource s maxDepth

/-- Where a parse that makes this reading leaves the cursor. -/
def landing (r : Reading Bool) : Nat :=
  match r.result with
  | .ok true => r.stop
  | _ => 0

/-- A parse by the engine that keeps no outcomes makes of the source what the reading says, and
    pulls what the reading calls for.  If it is rejected, it goes back to the start. -/
theorem Beside.recognizeEntry_plain (h : Beside s settings e e₂)
    (hend : TokenSource.EndsBy (TokenSource.stream s) bound) (hfuel : parseFuel bound ≤ n)
    (entry : Entry) :
    let r := entryReading s settings.maxDepth n entry
    ∃ e₂', recognizeEntry n entry e₂
        = .ok (r.recognition (TokenSource.stream s) settings.maxDepth 0) e₂' ∧
      Idle s e₂' ∧ e₂'.settings = e₂.settings ∧
      e₂'.buffer.pulled = max e₂.buffer.pulled (r.extent none) ∧
      e₂'.buffer.position = landing r ∧
      (r.result = .ok false → e₂'.buffer.base = 0 ∧ e₂'.buffer.cursor = 0) := by
  intro r
  have hverdict : Verdict _ _ _ _ _ _ r := verdict_entryReading hend hfuel settings.maxDepth entry
  have hposition : e₂.buffer.position = 0 := by rw [Lookahead.position, h.base, h.cursor]
  have hread : (groundAt s ListGrammar.grammar e₂).read n 0 entry.rule e₂.buffer.position = r := by
    rw [hposition, groundAt, h.plain, h.base]
    rfl
  have hplain : e₂.settings.memoize = false := by rw [h.plain]
  cases hverdict with
  | passed _ hresult =>
      obtain ⟨e₂', hrun, hidle, hsettings, hstop⟩ := recognize_of_match h.idle hplain
        stackFree_list n entry.stackFree_rule (by rw [hread]; exact hresult)
      have hpulled := pulled_of_recognize h.idle hplain stackFree_list entry.stackFree_rule hread
        hresult (by simp) hrun
      rw [hread, hposition] at hrun
      refine ⟨e₂', ?_, hidle, hsettings, hpulled, ?_, ?_⟩
      · simp only [Reading.recognition, hresult]
        exact hrun
      · simpa only [landing, hresult, hread] using hstop
      · simp [hresult]
  | failed hresult hhalts =>
      obtain ⟨e₂', hrun, hidle, hsettings, hback⟩ := recognize_of_mismatch h.idle hplain
        stackFree_list n entry.stackFree_rule (by rw [hread]; exact hresult)
      have hnoted : r.hits = [] → r.misses ≠ [] := by
        intro hhits
        obtain ⟨q', -, -, ⟨kind, hkind⟩, hexact⟩ := hhalts.run
        exact List.ne_nil_of_mem (((hexact hhits).noted kind).2 hkind)
      have hpulled := pulled_of_recognize h.idle hplain stackFree_list entry.stackFree_rule hread
        hresult (fun _ => hnoted) hrun
      have hrestored := ((Steady.eval stackFree_list n
        entry.stackFree_rule).close_recognizing hrun).2 _ rfl
      obtain ⟨k, hbuffer⟩ := hrestored.buffer
      rw [hread, hposition, h.plain] at hrun
      refine ⟨e₂', ?_, hidle, hsettings, hpulled, ?_, fun _ => ?_⟩
      · simp only [Reading.recognition, hresult]
        exact hrun
      · simpa only [landing, hresult, hposition] using hback
      · rw [hbuffer, Lookahead.base_pullMany, Lookahead.cursor_pullMany]
        exact ⟨h.base, h.cursor⟩

/-- Beside that engine the one with the settings does the same. -/
theorem Beside.recognizeEntry (h : Beside s settings e e₂)
    (hend : TokenSource.EndsBy (TokenSource.stream s) bound) (hfuel : parseFuel bound ≤ n)
    (entry : Entry) :
    let r := entryReading s settings.maxDepth n entry
    ∃ e', Engine.recognizeEntry n entry e
        = .ok (r.recognition (TokenSource.stream s) settings.maxDepth 0) e' ∧
      e'.buffer.pulled = max e.buffer.pulled (r.extent none) ∧
      e'.buffer.position = landing r ∧
      (r.result = .ok false → ∃ e₂', Beside s settings e' e₂') := by
  intro r
  obtain ⟨e₂', hrun, hidle, hsettings, hpulled, hposition, hback⟩ :=
    h.recognizeEntry_plain hend hfuel entry
  have hplain : e₂'.settings = ⟨false, settings.maxDepth⟩ := hsettings.trans h.plain
  cases hmemoize : settings.memoize with
  | false =>
      obtain rfl := h.same hmemoize
      refine ⟨e₂', hrun, hpulled, hposition, fun hresult => ⟨e₂', hidle, hplain, ?_, ?_,
        fun _ => rfl, fun hkeeps => ?_⟩⟩
      · exact (hback hresult).1
      · exact (hback hresult).2
      · rw [hmemoize] at hkeeps
        cases hkeeps
  | true =>
      have habreast := h.abreast hmemoize
      have hlockstep := habreast.recognizeEntry (n := n) entry
      rw [hrun] at hlockstep
      obtain ⟨e', hrun', hsim⟩ := hlockstep fun hlimitless => hlimitless.elim
      refine ⟨e', hrun', ?_, ?_, fun hresult => ⟨e₂', hidle, hplain, ?_, ?_, fun hplain => ?_,
        fun _ => ⟨hidle, hsim.later ?_⟩⟩⟩
      · rw [hsim.buffer, hpulled, habreast.sim.buffer]
      · rw [hsim.buffer, hposition]
      · exact (hback hresult).1
      · exact (hback hresult).2
      · rw [hmemoize] at hplain
        cases hplain
      · rw [Lookahead.position, h.base, h.cursor]
        exact Nat.zero_le _

-- ============================================================================
-- Rejections
-- ============================================================================

/-- The engine tried the entries on `s`, one after the other and each on some fuel, and all of
    them were rejected. -/
inductive Rejected (settings : Settings) (s : σ) : List Entry → Engine σ → Prop where
  | start : Rejected settings s [] (ofSource settings s)
  | step {entries : List Entry} {entry : Entry} {e e' : Engine σ} {err : ParseError} (n : Nat)
      (h : Rejected settings s entries e)
      (hrun : recognizeEntry n entry e = .ok (.error err) e') :
      Rejected settings s (entries ++ [entry]) e'

/-- Over a list of all that they pulled, the rejections leave the engine at the start. -/
theorem Rejected.beside {entries : List Entry} (h : Rejected settings s entries e) :
    e.buffer.From s ∧ ∀ limit, e.buffer.pulled ≤ limit →
      ∃ e₂, Beside (taken s limit) settings (e.onto (taken s limit)) e₂ := by
  induction h with
  | start => exact ⟨rfl, fun limit _ => beside_ofSource settings (taken s limit)⟩
  | @step entries entry e e' err n _ hrun ih =>
      obtain ⟨hfrom, hbeside⟩ := ih
      obtain ⟨hfrom', hgrown⟩ := from_recognizeEntry hfrom hrun
      refine ⟨hfrom', fun limit hlimit => ?_⟩
      obtain ⟨e₂, hbeside⟩ := hbeside limit (Nat.le_trans hgrown hlimit)
      have hsame := recognizeEntry_onto hfrom (agreeBelow_taken s limit)
        (Nat.le_max_left n (parseFuel limit)) (by rw [hrun]; trivial) (by rw [hrun]; exact hlimit)
      obtain ⟨e'', hrun', -, -, hback⟩ := hbeside.recognizeEntry (endsBy_taken s limit)
        (Nat.le_max_right n (parseFuel limit)) entry
      rw [hrun, hrun', Run.onto] at hsame
      injection hsame with herror heq
      subst heq
      obtain ⟨matched, hresult⟩ := (verdict_entryReading (endsBy_taken s limit)
        (Nat.le_max_right n (parseFuel limit)) settings.maxDepth entry).result
      cases matched with
      | true =>
          simp only [Reading.recognition, hresult] at herror
          cases herror
      | false => exact hback hresult

/-- On all fuel from some amount on the parse of the entry returns the result, and leaves the
    cursor at the position. -/
def ParsesTo (entry : Entry) (e : Engine σ) (result : Except ParseError Match) (position : Nat) :
    Prop :=
  ∃ N, ∀ n, N ≤ n → ∃ e', recognizeEntry n entry e = .ok result e' ∧ e'.buffer.position = position

/-- What a parse comes to after some rejections, it comes to after any others. -/
theorem Rejected.parsesTo {entries entries' : List Entry} {f : Engine σ}
    (he : Rejected settings s entries e) (hf : Rejected settings s entries' f)
    (hrun : recognizeEntry n entry e = .ok result e') :
    ParsesTo entry f result e'.buffer.position := by
  obtain ⟨hfrom, hbeside⟩ := he.beside
  obtain ⟨hfrom', hbeside'⟩ := hf.beside
  obtain ⟨-, hgrown⟩ := from_recognizeEntry hfrom hrun
  -- Both parses are compared over a list of all that either of them can pull.
  let limit := max e'.buffer.pulled f.buffer.pulled
  have hlimit : e'.buffer.pulled ≤ limit := Nat.le_max_left _ _
  obtain ⟨e₂, hbeside⟩ := hbeside limit (Nat.le_trans hgrown hlimit)
  obtain ⟨f₂, hbeside'⟩ := hbeside' limit (Nat.le_max_right _ _)
  refine ⟨max n (parseFuel limit), fun m hm => ?_⟩
  have hfuel : parseFuel limit ≤ m := Nat.le_trans (Nat.le_max_right _ _) hm
  have hsame := recognizeEntry_onto hfrom (agreeBelow_taken s limit)
    (Nat.le_trans (Nat.le_max_left _ _) hm) (by rw [hrun]; trivial) (by rw [hrun]; exact hlimit)
  obtain ⟨e'', hrun', hpulled, hposition, -⟩ :=
    hbeside.recognizeEntry (endsBy_taken s limit) hfuel entry
  obtain ⟨f'', hrun'', hpulled', hposition', -⟩ :=
    hbeside'.recognizeEntry (endsBy_taken s limit) hfuel entry
  rw [hrun, hrun', Run.onto] at hsame
  injection hsame with hresult heq
  subst heq
  have hextent : f''.buffer.pulled ≤ limit := by
    rw [hpulled']
    have hle : e'.buffer.pulled = _ := hpulled
    have : (f.onto (taken s limit)).buffer.pulled = f.buffer.pulled := rfl
    omega
  have hback := recognizeEntry_onto (f.buffer.from_onto (taken s limit))
    (agreeBelow_taken s limit).symm (Nat.le_refl m) (by rw [hrun'']; trivial)
    (by rw [hrun'']; exact hextent)
  rw [onto_onto hfrom', hrun''] at hback
  subst hresult
  exact ⟨f''.onto s, hback, hposition'.trans hposition.symm⟩

/-- A parse after rejections runs forever or returns; it does not fault. -/
theorem Rejected.eq_exhausted {entries : List Entry} (h : Rejected settings s entries e)
    {fault : Fault} (hrun : recognizeEntry n entry e = .error fault e') : fault = .exhausted := by
  obtain ⟨hfrom, hbeside⟩ := h.beside
  refine Classical.byContradiction fun hends => ?_
  let limit := max e'.buffer.pulled e.buffer.pulled
  obtain ⟨e₂, hbeside⟩ := hbeside limit (Nat.le_max_right _ _)
  have hsame := recognizeEntry_onto hfrom (agreeBelow_taken s limit)
    (Nat.le_max_left n (parseFuel limit)) (by rw [hrun]; exact hends)
    (by rw [hrun]; exact Nat.le_max_left _ _)
  obtain ⟨e'', hrun', -⟩ := hbeside.recognizeEntry (endsBy_taken s limit)
    (Nat.le_max_right n (parseFuel limit)) entry
  rw [hrun, hrun'] at hsame
  cases hsame

/-- After any rejections a parse comes to the same result as on a fresh engine over the source,
    and leaves the cursor at the same place.  It never faults, it does not depend on its fuel if
    it returns, and it returns if the source runs dry. -/
theorem parse_after_rejections {entries : List Entry} (h : Rejected settings s entries e)
    (entry : Entry) :
    (∀ result position, ParsesTo entry e result position ↔
      ParsesTo entry (ofSource settings s) result position) ∧
    (∀ n result e', recognizeEntry n entry e = .ok result e' →
      ParsesTo entry e result e'.buffer.position) ∧
    (∀ n fault e', recognizeEntry n entry e = .error fault e' → fault = .exhausted) ∧
    ∀ bound, TokenSource.EndsBy (TokenSource.stream s) bound →
      ∃ result position, ParsesTo entry e result position := by
  have hto : ∀ {entries entries' : List Entry} {e f : Engine σ} {result position},
      Rejected settings s entries e → Rejected settings s entries' f →
      ParsesTo entry e result position → ParsesTo entry f result position := by
    rintro entries entries' e f result position he hf ⟨N, hN⟩
    obtain ⟨e', hrun, rfl⟩ := hN N (Nat.le_refl N)
    exact he.parsesTo hf hrun
  refine ⟨fun result position => ⟨hto h .start, hto .start h⟩, fun n result e' => h.parsesTo h,
    fun n fault e' => h.eq_exhausted, fun bound hend => ?_⟩
  obtain ⟨e₂, hbeside⟩ := beside_ofSource settings s
  obtain ⟨e', hrun, -⟩ := hbeside.recognizeEntry hend (Nat.le_refl (parseFuel bound)) entry
  exact ⟨_, _, Rejected.start.parsesTo h hrun⟩

/-- The tokens of `[[a]]=[b]`. -/
def nestedAssignment : TokenList :=
  .ofKinds [(.lbracket, "["), (.lbracket, "["), (.name, "a"), (.rbracket, "]"), (.rbracket, "]"),
    (.equals, "="), (.lbracket, "["), (.name, "b"), (.rbracket, "]")]

/-- A list is rejected for what follows it, and leaves the outcomes of two lists behind; the
    assignment is then matched as on a fresh engine. -/
theorem parse_after_rejections_of_list :
    ∃ e found, Rejected ⟨true, 2⟩ nestedAssignment [.list] e ∧ 0 < e.memo.size ∧
      ParsesTo .assign e (.ok found) 10 ∧
      ParsesTo .assign (ofSource ⟨true, 2⟩ nestedAssignment) (.ok found) 10 := by
  have hruns : (match recognizeEntry 200 .list (ofSource ⟨true, 2⟩ nestedAssignment) with
      | .ok (.error _) e =>
        decide (0 < e.memo.size) && match recognizeEntry 200 .assign e with
          | .ok (.ok _) e' => e'.buffer.position == 10
          | .ok (.error _) _ => false
          | .error _ _ => false
      | .ok (.ok _) _ => false
      | .error _ _ => false) = true := by decide +kernel
  split at hruns
  · next err e hlist =>
      rw [Bool.and_eq_true, decide_eq_true_eq] at hruns
      obtain ⟨hsize, hassign⟩ := hruns
      split at hassign
      · next found e' hfound =>
          have hrejected : Rejected ⟨true, 2⟩ nestedAssignment [.list] e :=
            .step 200 .start hlist
          obtain ⟨hsame, hreturns, -⟩ := parse_after_rejections hrejected .assign
          have hparses := hreturns 200 _ _ hfound
          rw [beq_iff_eq.1 hassign] at hparses
          exact ⟨e, found, hrejected, hsize, hparses, (hsame _ _).1 hparses⟩
      · cases hassign
      · cases hassign
  · cases hruns
  · cases hruns

end Engine
end Packrat
