/-
  Packrat.Proofs.Compaction

  Compactions and what shows of them.  A session may empty the buffer and the
  memo wherever that is possible, as often as it likes; every later step answers
  the same, leaves the buffer the same and pulls the same.

  Where a compaction is possible nothing is buffered, so all that it drops is
  kept outcomes, and the engine after it is a twin of the one before.  Both are
  then driven through the same steps, each of which echoes itself on twins, by
  induction on the script of the session.

  This is so as long as neither session hits the depth limit
  (`session_compacting_eq`).  An outcome is replayed on levels where the limit
  would have cut its rule short, so with the outcome a compaction drops the way
  around the limit (`compaction_uncovers_depth_limit`).
-/

import Packrat.Proofs.Drained
import Packrat.Proofs.Twins

namespace Packrat
namespace Engine

variable {σ ν : Type} [TokenSource σ] {s : σ} {g : Grammar ν} {bodyOf : RuleId → Rule ν} {n : Nat}
variable {e₁ e₂ : Engine σ}

/-- A session with explicit compactions, up to the first fault.  Where the script has no step the
    engine compacts, if it can; that is no step of the session, and answers nothing. -/
def compactingSession (g : Grammar ν) (fuel : Nat) :
    List (Option (Step ν)) → Engine σ → List (Except Fault Answer × Engine σ)
  | [], _ => []
  | none :: script, e => compactingSession g fuel script (Run.final (compact e))
  | some step :: script, e =>
    match perform g fuel step e with
    | .ok answer e => (.ok answer, e) :: compactingSession g fuel script e
    | .error fault e => [(.error fault, e)]

theorem compactingSession_of_ok {step : Step ν} {script : List (Option (Step ν))} {answer : Answer}
    (hrun : perform g n step e₁ = .ok answer e₂) :
    compactingSession g n (some step :: script) e₁
      = (.ok answer, e₂) :: compactingSession g n script e₂ := by
  simp only [compactingSession, hrun]

theorem compactingSession_of_error {step : Step ν} {script : List (Option (Step ν))}
    {fault : Fault} (hrun : perform g n step e₁ = .error fault e₂) :
    compactingSession g n (some step :: script) e₁ = [(.error fault, e₂)] := by
  simp only [compactingSession, hrun]

/-- The states of sessions over plain rules. -/
abbrev Visited (s : σ) (g : Grammar ν) (bodyOf : RuleId → Rule ν) : Engine σ → Prop :=
  Reachable g (fun _ => Step.Over g bodyOf) s

theorem Reachable.sound (hg : ∀ name, (g name).Plain bodyOf) {e : Engine σ}
    (h : Visited s g bodyOf e) : Sound s g bodyOf e where
  coherent := ⟨0, h.coherent (stackFree_of_plain hg) fun _ _ => Step.Over.stackFree⟩
  trusting := h.trusting hg

/-- A compaction drops nothing that shows. -/
theorem Twin.compacted (hg : ∀ name, (g name).Plain bodyOf) (h : Visited s g bodyOf e₂)
    (hcan : e₂.canCompact = true) (htwin : Twin e₁ e₂) : Twin e₁ e₂.compacted where
  buffer := by
    rw [htwin.buffer]
    exact (h.clear_buffer (stackFree_of_plain hg) (fun _ _ => Step.Over.stackFree) hcan).symm
  marks := htwin.marks
  settings := htwin.settings
  furthest := htwin.furthest
  depth := htwin.depth
  depthHit := htwin.depthHit

/-- Whether it is possible or not, an explicit compaction leads from twins to twins. -/
theorem Twin.final_compact (hg : ∀ name, (g name).Plain bodyOf) (h : Visited s g bodyOf e₂)
    (htwin : Twin e₁ e₂) :
    Twin e₁ (Run.final (compact e₂)) ∧ Visited s g bodyOf (Run.final (compact e₂)) := by
  by_cases hcan : e₂.canCompact = true
  · have hrun : compact e₂ = .ok () e₂.compacted := by
      rw [compact, if_pos hcan]
      rfl
    have hperform : perform g 0 (.stack .compact) e₂ = .ok .done e₂.compacted :=
      Run.bind_of_ok hrun
    rw [hrun]
    have hallowed : (Step.stack .compact).Over g bodyOf := trivial
    exact ⟨htwin.compacted hg h hcan, h.step 0 hallowed hperform⟩
  · rw [compact, if_neg hcan]
    exact ⟨htwin, h⟩

theorem Sustains.recognize (hg : ∀ name, (g name).Plain bodyOf) (n : Nat) {rule : Rule ν}
    (hrule : rule.Plain bodyOf) : Sustains s g bodyOf (Engine.recognize g n rule) := by
  intro e result e' h hrun
  obtain ⟨low, hc⟩ := h.coherent
  have hc' := Upholds.recognize (stackFree_of_plain hg) n hrule.stackFree _ _ _ _ hc hrun
  exact ⟨⟨low, hc'⟩, h.trusting.recognize hc hg hrule hrun⟩

/-- Every step that does not ask for what is kept echoes itself. -/
theorem Echoes.perform (hg : ∀ name, (g name).Plain bodyOf) (n : Nat) {step : Step ν}
    (hstep : step.Over g bodyOf) (hasks : ∀ id pos, step ≠ .outcomeAt id pos) :
    Echoes s g bodyOf (Engine.perform g n step) fun n => Engine.perform g n step := by
  have hrecognize : ∀ {rule : Rule ν}, rule.Plain bodyOf → ∀ f : Except ParseError Match → Answer,
      Echoes s g bodyOf (do return f (← Engine.recognize g n rule))
        fun n => do return f (← Engine.recognize g n rule) := fun hrule f =>
    answer (recognizing (eval hg n hrule) (.eval hg n hrule) fun n => .eval hg n hrule)
      (.recognize hg n hrule) (fun n => .recognize hg n hrule) f
  have hlook : ∀ {α : Type} (look : Lookahead.Step σ α) (f : α → Answer),
      Echoes s g bodyOf (do return f (← onBuffer look)) fun _ => do return f (← onBuffer look) :=
    fun look f => of_blind (.bind (.onBuffer look) fun a => .pure (f a))
  cases step with
  | parse entry =>
      obtain ⟨embed, hembed⟩ := hstep
      have hentry := fun n => recognizeEntry_eq_of_rule (σ := σ) hembed n entry
      simp only [Engine.perform, hentry]
      exact hrecognize (entry.plain_rename embed) Answer.result
  | tryParse entry =>
      obtain ⟨embed, hembed⟩ := hstep
      have hentry := fun n => recognizeEntry_eq_of_rule (σ := σ) hembed n entry
      simp only [Engine.perform, hentry]
      exact hrecognize (entry.plain_rename embed) fun result => .flag result.isOk
  | recognize rule => exact hrecognize hstep Answer.result
  | run rule =>
      exact answer (eval hg n hstep) (.eval hg n hstep) (fun n => .eval hg n hstep) Answer.flag
  | stack step => exact of_blind (.bind (.stackStep step) fun _ => .pure Answer.done)
  | kindAhead k => exact hlook (Lookahead.peek k) fun token => .kind token.kind
  | tokenAhead k => exact hlook (Lookahead.peek k) fun token => .token (some token)
  | outcomeAt id pos => exact absurd rfl (hasks id pos)
  | tokenAt pos =>
      refine of_blind fun e₁ e₂ h => ⟨e₂, ?_, h⟩
      rw [h.buffer]
      rfl
  | tokensBetween start stop => exact hlook (Lookahead.slice start stop) Answer.tokens
  | absolute pos => exact hlook (Lookahead.absolute pos) Answer.number
  | settings =>
      refine of_blind fun e₁ e₂ h => ⟨e₂, ?_, h⟩
      rw [h.settings]
      rfl

/-- What shows of a step, and whether the engine can compact after it. -/
def display (x : Except Fault Answer × Engine σ) :
    (Except Fault Answer × Lookahead σ × Nat) × Bool :=
  (observe x, x.2.canCompact)

omit [TokenSource σ] in
theorem Twin.display_eq (h : Twin e₁ e₂) (answer : Except Fault Answer) :
    display (answer, e₂) = display (answer, e₁) := by
  simp only [display, observe, Speculation.depth, h.buffer, h.marks, h.canCompact]

/-- The steps of the session did not run out of fuel. -/
def Finishes (answers : List (Except Fault Answer × Engine σ)) : Prop :=
  ∀ x ∈ answers, x.1 ≠ .error .exhausted

/-- The steps of the session did not hit the depth limit. -/
def Unlimited (answers : List (Except Fault Answer × Engine σ)) : Prop :=
  ∀ x ∈ answers, x.2.depthHit = none

instance (r : Except Fault Answer) : Decidable (r = .error .exhausted) :=
  match r with
  | .ok _ => .isFalse fun h => nomatch h
  | .error fault => decidable_of_iff (fault = .exhausted)
      ⟨congrArg Except.error, Except.error.inj⟩

instance (answers : List (Except Fault Answer × Engine σ)) : Decidable (Finishes answers) :=
  inferInstanceAs (Decidable (∀ x ∈ answers, x.1 ≠ .error .exhausted))

instance (answers : List (Except Fault Answer × Engine σ)) : Decidable (Unlimited answers) :=
  inferInstanceAs (Decidable (∀ x ∈ answers, x.2.depthHit = none))

theorem Finishes.ends {step : Step ν} {script : List (Option (Step ν))} {e : Engine σ}
    (h : Finishes (compactingSession g n (some step :: script) e)) :
    Run.Ends (perform g n step e) := by
  cases hrun : perform g n step e with
  | ok answer e' => trivial
  | error fault e' =>
      rintro rfl
      rw [compactingSession_of_error hrun] at h
      exact h _ List.mem_cons_self rfl

theorem Unlimited.final {step : Step ν} {script : List (Option (Step ν))} {e : Engine σ}
    (h : Unlimited (compactingSession g n (some step :: script) e)) :
    (Run.final (perform g n step e)).depthHit = none := by
  cases hrun : perform g n step e with
  | ok answer e' =>
      rw [compactingSession_of_ok hrun] at h
      exact h _ List.mem_cons_self
  | error fault e' =>
      rw [compactingSession_of_error hrun] at h
      exact h _ List.mem_cons_self

/-- On every twin of `e₁` the session with the compactions of the script shows what the answers
    show: on enough fuel it finishes, and whenever it finishes it shows the same.  Sessions that
    hit the depth limit do not count. -/
def EchoedSession (s : σ) (g : Grammar ν) (bodyOf : RuleId → Rule ν) (e₁ : Engine σ)
    (answers : List (Except Fault Answer × Engine σ)) (script : List (Option (Step ν))) : Prop :=
  ∃ N, ∀ m e₂, Visited s g bodyOf e₂ → Twin e₁ e₂ → Unlimited (compactingSession g m script e₂) →
    (N ≤ m → Finishes (compactingSession g m script e₂)) ∧
    (Finishes (compactingSession g m script e₂) →
      (compactingSession g m script e₂).map display = answers.map display)

namespace EchoedSession

variable {answers : List (Except Fault Answer × Engine σ)} {script : List (Option (Step ν))}
variable {e₁' : Engine σ}

theorem nil : EchoedSession s g bodyOf e₁ [] [] := by
  refine ⟨0, fun m e₂ _ _ _ => ⟨fun _ x hmem => ?_, fun _ => rfl⟩⟩
  cases hmem

/-- One compaction more. -/
theorem of_compact (hg : ∀ name, (g name).Plain bodyOf)
    (h : EchoedSession s g bodyOf e₁ answers script) :
    EchoedSession s g bodyOf e₁ answers (none :: script) := by
  obtain ⟨N, hN⟩ := h
  refine ⟨N, fun m e₂ h₂ htwin => ?_⟩
  obtain ⟨htwin', h₂'⟩ := htwin.final_compact hg h₂
  exact hN m _ h₂' htwin'

/-- A fault ends both sessions. -/
theorem of_fault (hg : ∀ name, (g name).Plain bodyOf) {step : Step ν} {fault : Fault}
    (hend : fault ≠ .exhausted)
    (hecho : EchoedFrom s g bodyOf e₁ (.error fault e₁') fun m => perform g m step) :
    EchoedSession s g bodyOf e₁ [(.error fault, e₁')] (some step :: script) := by
  obtain ⟨N, hN⟩ := hecho
  refine ⟨N, fun m e₂ h₂ htwin hfree => ?_⟩
  obtain ⟨hends, halike⟩ := hN m e₂ (h₂.sound hg) htwin hfree.final
  refine ⟨fun hle => ?_, fun hfinishes => ?_⟩
  · obtain ⟨e₂', hrun, -⟩ := halike (hends hle)
    rw [compactingSession_of_error hrun]
    intro x hmem
    obtain rfl := List.mem_singleton.1 hmem
    exact fun heq => hend (Except.error.inj heq)
  · obtain ⟨e₂', hrun, htwin'⟩ := halike hfinishes.ends
    rw [compactingSession_of_error hrun]
    simp only [List.map_cons, List.map_nil, htwin'.display_eq]

/-- One step more. -/
theorem of_step (hg : ∀ name, (g name).Plain bodyOf) {step : Step ν}
    (hstep : step.Over g bodyOf) {answer : Answer}
    (hecho : EchoedFrom s g bodyOf e₁ (.ok answer e₁') fun m => perform g m step)
    (h : EchoedSession s g bodyOf e₁' answers script) :
    EchoedSession s g bodyOf e₁ ((.ok answer, e₁') :: answers) (some step :: script) := by
  obtain ⟨N, hN⟩ := hecho
  obtain ⟨N', hN'⟩ := h
  refine ⟨max N N', fun m e₂ h₂ htwin hfree => ?_⟩
  obtain ⟨hends, halike⟩ := hN m e₂ (h₂.sound hg) htwin hfree.final
  refine ⟨fun hle => ?_, fun hfinishes => ?_⟩
  · obtain ⟨e₂', hrun, htwin'⟩ := halike (hends (by omega))
    rw [compactingSession_of_ok hrun] at hfree ⊢
    obtain ⟨-, hfree'⟩ := List.forall_mem_cons.1 hfree
    obtain ⟨hfinishes, -⟩ := hN' m e₂' (h₂.step m hstep hrun) htwin' hfree'
    refine List.forall_mem_cons.2 ⟨?_, hfinishes (by omega)⟩
    exact fun heq => nomatch heq
  · obtain ⟨e₂', hrun, htwin'⟩ := halike hfinishes.ends
    rw [compactingSession_of_ok hrun] at hfree hfinishes ⊢
    obtain ⟨-, hfree'⟩ := List.forall_mem_cons.1 hfree
    obtain ⟨-, hfinishes'⟩ := List.forall_mem_cons.1 hfinishes
    obtain ⟨-, hsame⟩ := hN' m e₂' (h₂.step m hstep hrun) htwin' hfree'
    simp only [List.map_cons, htwin'.display_eq, hsame hfinishes']

/-- A session without compactions, and the same one with those of a script. -/
theorem of_session (hg : ∀ name, (g name).Plain bodyOf)
    (hsteps : ∀ step, some step ∈ script → step.Over g bodyOf)
    (hasks : ∀ id pos, some (.outcomeAt id pos) ∉ script) (h₁ : Visited s g bodyOf e₁)
    (hends : Finishes (Engine.session g n (script.filterMap id) e₁))
    (hfree : Unlimited (Engine.session g n (script.filterMap id) e₁)) :
    EchoedSession s g bodyOf e₁ (Engine.session g n (script.filterMap id) e₁) script := by
  induction script generalizing e₁ with
  | nil => exact nil
  | cons entry script ih =>
      have hsteps' : ∀ step, some step ∈ script → step.Over g bodyOf :=
        fun step hmem => hsteps step (List.mem_cons_of_mem _ hmem)
      have hasks' : ∀ id pos, some (.outcomeAt id pos) ∉ script :=
        fun id pos hmem => hasks id pos (List.mem_cons_of_mem _ hmem)
      cases entry with
      | none => exact of_compact hg (ih hsteps' hasks' h₁ hends hfree)
      | some step =>
          have hstep := hsteps step List.mem_cons_self
          have hecho := Echoes.perform (s := s) hg n hstep
            (fun id pos heq => hasks id pos (heq ▸ List.mem_cons_self)) e₁ (h₁.sound hg)
          simp only [List.filterMap_cons, id_eq, Engine.session] at hends hfree ⊢
          cases hrun : perform g n step e₁ with
          | error fault e₁' =>
              simp only [hrun] at hends hfree hecho ⊢
              have hend : fault ≠ .exhausted := by
                rintro rfl
                exact hends _ List.mem_cons_self rfl
              exact of_fault hg hend (hecho hend (hfree _ List.mem_cons_self))
          | ok answer e₁' =>
              simp only [hrun] at hends hfree hecho ⊢
              obtain ⟨-, hends'⟩ := List.forall_mem_cons.1 hends
              obtain ⟨hfree₁, hfree'⟩ := List.forall_mem_cons.1 hfree
              have hrest := ih hsteps' hasks' (h₁.step n hstep hrun) hends' hfree'
              exact of_step hg hstep (hecho trivial hfree₁) hrest

end EchoedSession

/-- Compactions do not show.  Take a session over plain rules that asks for nothing of what is
    kept, and a script that has its steps in order with compactions in between, any number of
    them at any places; they count where the engine can compact.  As long as neither session
    hits the depth limit, the one with the compactions finishes on enough fuel if the other one
    finishes, and whenever it finishes, every step answers the same and leaves the same buffer,
    as many open speculations, and an engine that can compact iff the other one can.  Of the
    limit both have to be free: what the one replays the other runs, maybe on a deeper level than
    it was kept from. -/
theorem session_compacting_eq (hg : ∀ name, (g name).Plain bodyOf) (settings : Settings) (s : σ)
    (script : List (Option (Step ν)))
    (hsteps : ∀ step, some step ∈ script → step.Over g bodyOf)
    (hasks : ∀ id pos, some (.outcomeAt id pos) ∉ script)
    (hends : Finishes (session g n (script.filterMap id) (ofSource settings s)))
    (hfree : Unlimited (session g n (script.filterMap id) (ofSource settings s))) :
    ∃ N, ∀ m, Unlimited (compactingSession g m script (ofSource settings s)) →
      (N ≤ m → Finishes (compactingSession g m script (ofSource settings s))) ∧
      (Finishes (compactingSession g m script (ofSource settings s)) →
        (compactingSession g m script (ofSource settings s)).map display
          = (session g n (script.filterMap id) (ofSource settings s)).map display) := by
  obtain ⟨N, hN⟩ := EchoedSession.of_session hg hsteps hasks (.start settings) hends hfree
  exact ⟨N, fun m hfree₂ => hN m _ (.start settings) (.refl _) hfree₂⟩

/-- A rule that takes nothing, kept as `skip`, and one that runs it before a name. -/
def skipRules : List (String × Rule RuleName) :=
  [("skip", .memo ⟨"skip"⟩ (.const true)), ("item", .both (.ref (.own "skip")) (.token .name))]

/-- The body of `skip` beside those of the list language. -/
def skipBodies (id : RuleId) : Rule RuleName :=
  if id.name = "skip" then .const true else ListGrammar.bodyOf .list id

/-- Compactions before, between and behind recognitions and below an open mark.  The first one
    drops a kept outcome that the session without it replays. -/
def skipScript : List (Option (Step RuleName)) :=
  [none, some (.recognize (.ref (.own "skip"))), none, some (.recognize (.ref (.own "item"))), none,
   some (.stack .openMark), none, some (.run (.ref (.own "item"))), some (.stack .commit), none,
   some (.kindAhead 1), none, some (.parse .list), none]

theorem session_compacting_eq_of_skips :
    (compactingSession (extendedGrammar skipRules) 40 skipScript
        (ofSource ⟨true, 3⟩ pairSource)).map display
      = (session (extendedGrammar skipRules) 40 (skipScript.filterMap id)
          (ofSource ⟨true, 3⟩ pairSource)).map display := by
  have hends : Finishes (session (extendedGrammar skipRules) 40 (skipScript.filterMap id)
      (ofSource ⟨true, 3⟩ pairSource)) := by decide +kernel
  have hfree : Unlimited (session (extendedGrammar skipRules) 40 (skipScript.filterMap id)
      (ofSource ⟨true, 3⟩ pairSource)) := by decide +kernel
  have hends₂ : Finishes (compactingSession (extendedGrammar skipRules) 40 skipScript
      (ofSource ⟨true, 3⟩ pairSource)) := by decide +kernel
  have hfree₂ : Unlimited (compactingSession (extendedGrammar skipRules) 40 skipScript
      (ofSource ⟨true, 3⟩ pairSource)) := by decide +kernel
  have hrules : ∀ name, (extendedGrammar skipRules name).Plain skipBodies := by
    rintro (name | name)
    · exact ListGrammar.plain_rule (fun name => by cases name <;> rfl) name
    · by_cases hskip : name = "skip"
      · subst hskip
        exact ⟨trivial, rfl, trivial⟩
      · by_cases hitem : name = "item"
        · subst hitem
          exact ⟨⟨trivial, trivial⟩, trivial, trivial⟩
        · have hnone : skipRules.lookup name = none := by
            simp [skipRules, List.lookup_cons, beq_false_of_ne hskip, beq_false_of_ne hitem]
          rw [extendedGrammar, hnone]
          exact ⟨trivial, trivial⟩
  have hsteps : ∀ step, some step ∈ skipScript →
      step.Over (extendedGrammar skipRules) skipBodies := by
    intro step hmem
    simp only [skipScript, List.mem_cons, List.not_mem_nil, or_false, reduceCtorEq, false_or,
      Option.some.injEq] at hmem
    rcases hmem with rfl | rfl | rfl | rfl | rfl | rfl | rfl
    · exact ⟨trivial, trivial⟩
    · exact ⟨trivial, trivial⟩
    · trivial
    · exact ⟨trivial, trivial⟩
    · trivial
    · trivial
    · exact ⟨.list, fun _ => rfl⟩
  have hasks : ∀ id pos, some (.outcomeAt id pos) ∉ skipScript := by
    simp [skipScript]
  obtain ⟨N, hN⟩ := session_compacting_eq hrules ⟨true, 3⟩ pairSource skipScript hsteps hasks
    hends hfree
  exact (hN 40 hfree₂).2 hends₂

/-- A rule that takes nothing, one level deeper, and is kept. -/
def deeperRule : Rule Unit := .memo ⟨"m"⟩ (.nested (.const true))

/-- The rule, and then the rule on a level of its own, with a compaction in between. -/
def deeperScript : List (Option (Step Unit)) :=
  [some (.recognize deeperRule), none, some (.recognize (.nested deeperRule))]

/-- The match or the error that a step of a session comes to, if it is a recognition. -/
def verdict? (done : Except Fault Answer × Engine TokenList) : Option (Match ⊕ ParseError) :=
  match done.1 with
  | .ok (.result (.ok found)) => some (.inl found)
  | .ok (.result (.error err)) => some (.inr err)
  | _ => none

/-- With one level allowed, the session without the compaction replays the outcome of the rule
    beyond that level and never hits the limit.  The engine can compact after the first step; then
    the rule runs again, and the second recognition reports the limit. -/
theorem compaction_uncovers_depth_limit :
    let e : Engine TokenList := ofSource ⟨true, 1⟩ (TokenList.ofKinds [(.name, "a")])
    let plain := session (fun _ => .const false) 20 (deeperScript.filterMap id) e
    let compacting := compactingSession (fun _ => .const false) 20 deeperScript e
    deeperRule.Plain (fun _ => .nested (.const true)) ∧ Unlimited plain ∧
      plain.map verdict? = [some (.inl ⟨0, []⟩), some (.inl ⟨0, []⟩)] ∧
      plain.head?.map (·.2.canCompact) = some true ∧
      compacting.map verdict? = [some (.inl ⟨0, []⟩), some (.inr (.nestingLimit 1 0 .origin))] :=
  ⟨⟨trivial, rfl, trivial⟩, by decide +kernel, by decide +kernel, by decide +kernel,
    by decide +kernel⟩

end Engine
end Packrat
