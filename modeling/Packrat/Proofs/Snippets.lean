/-
  Packrat.Proofs.Snippets

  Every label about a text can be shown in the text.

  The spans that a scanner makes are those of stretches of the text, moved to the
  last offset if they end behind it (`Span.StandsIn`): those of the tokens, of the
  end of the input and of the invalid characters, whatever the size of the text.
  The commands label no other spans, for a parse error has the span of a token
  that the parse pulled.

  Hence no label ends before it starts, and to find its place never takes a slice
  that is out of range.  If the offsets of the text fit, each label starts at a
  boundary of it, so its place is found.  Then all that the commands write on
  standard error is diagnostics with a snippet for each label, and the count
  (`labels_shown`).
-/

import Packrat.Proofs.Rendering
import Packrat.Proofs.Reports

namespace Packrat

-- ============================================================================
-- Spans of stretches
-- ============================================================================

namespace Span

variable {start stop start' stop' offset : Nat} {piece cs : List Char} {span : Span}

/-- A range keeps its offsets or becomes the last one. -/
theorem clamped_cases (hle : start ≤ stop) :
    (stop ≤ maxOffset.toNat ∧ (clamped start stop).start.toNat = start ∧
      (clamped start stop).stop.toNat = stop) ∨
    maxOffset.toNat < stop ∧ clamped start stop = point maxOffset := by
  have hmax : maxOffset.toNat = 2 ^ 32 - 1 := rfl
  rcases Nat.lt_or_ge maxOffset.toNat stop with hlt | hge
  · exact .inr ⟨hlt, clamped_of_lt hlt⟩
  · exact .inl ⟨hge, toNat_start_clamped hle (by omega), toNat_stop_clamped hle (by omega)⟩

theorem start_le_stop_clamped (hle : start ≤ stop) :
    (clamped start stop).start ≤ (clamped start stop).stop := by
  rcases clamped_cases hle with ⟨-, hstart, hstop⟩ | ⟨-, hpoint⟩
  · rw [UInt32.le_iff_toNat_le, hstart, hstop]
    exact hle
  · rw [hpoint]
    exact UInt32.le_refl _

theorem le_maxOffset (offset : UInt32) : offset ≤ maxOffset := by
  have hmax : maxOffset.toNat = 2 ^ 32 - 1 := rfl
  have := offset.toNat_lt
  rw [UInt32.le_iff_toNat_le]
  omega

/-- Of two ranges the later one starts at no lower offset, also if its offsets do not fit. -/
theorem start_clamped_le (hle : start ≤ stop) (hnext : stop ≤ start') (hle' : start' ≤ stop') :
    (clamped start stop).start ≤ (clamped start' stop').start := by
  rcases clamped_cases hle' with ⟨hfits, hstart', -⟩ | ⟨-, hpoint'⟩
  · rcases clamped_cases hle with ⟨-, hstart, -⟩ | ⟨hlt, -⟩
    · rw [UInt32.le_iff_toNat_le, hstart, hstart']
      exact Nat.le_trans hle hnext
    · omega
  · rw [hpoint']
    exact le_maxOffset _

theorem point_start_clamped (offset : Nat) :
    point (clamped offset offset).start = clamped offset offset := by
  rcases Nat.lt_or_ge maxOffset.toNat offset with hlt | hge
  · rw [clamped_of_lt hlt]
    rfl
  · rw [clamped_of_le hge hge]
    rfl

/-- The span is that of a stretch of the characters, which start at `offset`; it is the last
    offset, if the stretch ends behind that. -/
def StandsIn (span : Span) (offset : Nat) (cs : List Char) : Prop :=
  ∃ before word after, cs = before ++ word ++ after ∧
    span = clamped (offset + Text.byteLength before) (offset + Text.byteLength (before ++ word))

theorem standsIn_of_piece (rest : List Char)
    (h : span = clamped offset (offset + Text.byteLength piece)) :
    span.StandsIn offset (piece ++ rest) :=
  ⟨[], piece, rest, rfl, h⟩

theorem StandsIn.behind (h : span.StandsIn (offset + Text.byteLength piece) cs) :
    span.StandsIn offset (piece ++ cs) := by
  obtain ⟨before, word, after, rfl, hspan⟩ := h
  refine ⟨piece ++ before, word, after, by simp, ?_⟩
  rw [hspan, List.append_assoc, Text.byteLength_append piece, Text.byteLength_append piece,
    Nat.add_assoc, Nat.add_assoc]

theorem StandsIn.start_le_stop (h : span.StandsIn offset cs) : span.start ≤ span.stop := by
  obtain ⟨before, word, after, -, rfl⟩ := h
  rw [Text.byteLength_append, ← Nat.add_assoc]
  exact start_le_stop_clamped (Nat.le_add_right _ _)

/-- In a text whose offsets fit, the span of a stretch starts where the stretch does. -/
theorem StandsIn.isBoundary (h : span.StandsIn 0 cs)
    (hfits : Text.byteLength cs ≤ maxOffset.toNat) : Text.IsBoundary cs span.start.toNat := by
  obtain ⟨before, word, after, rfl, rfl⟩ := h
  have hle : 0 + Text.byteLength before ≤ 0 + Text.byteLength (before ++ word) := by
    rw [Text.byteLength_append]
    omega
  rcases clamped_cases hle with ⟨-, hstart, -⟩ | ⟨hlt, -⟩
  · exact ⟨before, word ++ after, by simp, by rw [hstart, Nat.zero_add]⟩
  · rw [Text.byteLength_append] at hfits
    omega

end Span

-- ============================================================================
-- Tokens and errors
-- ============================================================================

section

variable {offset : Nat} {cs : List Char} {tokens : List Token} {errors : List InvalidCharacter}

/-- What is laid out stands in the text. -/
theorem Layout.standsIn (h : Layout offset cs tokens errors) (span : Span)
    (hmem : span ∈ tokens.map Token.span ++ errors.map InvalidCharacter.span) :
    span.StandsIn offset cs := by
  induction h with
  | nil => cases hmem
  | cons hpiece _ _ ih =>
      have hpart := hpiece.span_eq span
      simp only [List.map_append, List.mem_append] at hmem hpart ih
      rcases hmem with (hmem | hmem) | hmem | hmem
      · exact Span.standsIn_of_piece _ (hpart (.inl hmem))
      · exact (ih (.inl hmem)).behind
      · exact Span.standsIn_of_piece _ (hpart (.inr hmem))
      · exact (ih (.inr hmem)).behind

/-- Tokens start in order. -/
theorem Layout.starts_sorted (h : Layout offset cs tokens errors) :
    tokens.Pairwise fun s t => s.span.start ≤ t.span.start := by
  induction h with
  | nil => exact .nil
  | @cons offset piece rest ts tokens es errors hpiece _ hrest ih =>
      refine List.pairwise_append.2 ⟨?_, ih, fun s hs t ht => ?_⟩
      · cases hpiece <;> simp
      · obtain ⟨before, word, after, -, hspan⟩ := hrest.standsIn t.span (by
          simp [List.mem_map_of_mem ht])
        rw [hpiece.span_eq s.span (by simp [List.mem_map_of_mem hs]), hspan]
        refine Span.start_clamped_le (Nat.le_add_right _ _) (Nat.le_add_right _ _) ?_
        rw [Text.byteLength_append]
        omega

end

variable {source : String}

/-- The end of the input has the span of an empty stretch at the end of the text. -/
theorem span_eof_ofSource (source : String) :
    (Token.eof (Scanner.ofSource source).endOffset).span
      = Span.clamped (Text.byteLength source.toList) (Text.byteLength source.toList) := by
  rw [Text.byteLength_toList]
  exact Span.point_start_clamped _

/-- The tokens of a text stand in it. -/
theorem standsIn_of_mem_lex {t : Token} (hmem : t ∈ (lex source).1) :
    t.span.StandsIn 0 source.toList := by
  obtain ⟨tokens, htokens, hlayout⟩ := exists_layout_lex source
  rw [htokens, List.mem_append, List.mem_singleton] at hmem
  rcases hmem with hmem | rfl
  · exact hlayout.standsIn t.span (by simp [List.mem_map_of_mem hmem])
  · refine ⟨source.toList, [], [], by simp, ?_⟩
    rw [span_eof_ofSource, List.append_nil, Nat.zero_add]

/-- So do the invalid characters. -/
theorem standsIn_of_mem_errors {error : InvalidCharacter} (hmem : error ∈ (lex source).2) :
    error.span.StandsIn 0 source.toList := by
  obtain ⟨tokens, -, hlayout⟩ := exists_layout_lex source
  exact hlayout.standsIn error.span (by simp [List.mem_map_of_mem hmem])

/-- The tokens of a text start in order, and the end of the input starts behind them. -/
theorem starts_sorted_lex (source : String) :
    (lex source).1.Pairwise fun s t => s.span.start ≤ t.span.start := by
  obtain ⟨tokens, htokens, hlayout⟩ := exists_layout_lex source
  rw [htokens]
  refine List.pairwise_append.2
    ⟨hlayout.starts_sorted, List.pairwise_singleton _ _, fun s hs t ht => ?_⟩
  obtain rfl := List.mem_singleton.1 ht
  obtain ⟨before, word, after, htext, hspan⟩ := hlayout.standsIn s.span (by
    simp [List.mem_map_of_mem hs])
  rw [span_eof_ofSource, hspan, htext]
  refine Span.start_clamped_le ?_ ?_ (Nat.le_refl _)
  · rw [Text.byteLength_append]
    omega
  · rw [Text.byteLength_append (before ++ word)]
    omega

theorem lexAt_mem (source : String) (i : Nat) : lexAt source i ∈ (lex source).1 := by
  obtain ⟨tokens, htokens, -⟩ := exists_layout_lex source
  rw [lexAt, List.getD_eq_getElem?_getD]
  by_cases hi : i < (lex source).1.length
  · rw [List.getElem?_eq_getElem hi]
    exact List.getElem_mem hi
  · rw [List.getElem?_eq_none (Nat.le_of_not_lt hi), htokens]
    simp

-- ============================================================================
-- Labels
-- ============================================================================

theorem ParseError.span_of_mem_labels {err : ParseError} {label : Label}
    (hmem : label ∈ err.toDiagnostic.labels) : label.span = err.span := by
  cases err with
  | lexical error => rw [List.mem_singleton.1 hmem]; rfl
  | syntaxError err => rw [List.mem_singleton.1 hmem]; rfl
  | nestingLimit limit position span => rw [List.mem_singleton.1 hmem]; rfl

/-- The label can be shown in the text: it stands in it, does not end before it starts, and its
    place is found without a slice that is out of range.  If the offsets of the text fit, there is
    such a place. -/
structure Label.ShownIn (label : Label) (source : String) : Prop where
  standsIn : label.span.StandsIn 0 source.toList
  start_le_stop : label.span.start ≤ label.span.stop
  sliced : Location.sliced source.toList label.span
    = .ok (Location.of? source.toList label.span)
  start_le : source.utf8ByteSize ≤ Span.maxOffset.toNat →
    label.span.start.toNat ≤ source.utf8ByteSize
  isBoundary : source.utf8ByteSize ≤ Span.maxOffset.toNat →
    Text.IsBoundary source.toList label.span.start.toNat
  located : source.utf8ByteSize ≤ Span.maxOffset.toNat →
    ∃ loc, Location.of? source.toList label.span = some loc

namespace Label.ShownIn

variable {label : Label}

/-- Whatever stands in a text can be shown in it. -/
theorem of_standsIn (h : label.span.StandsIn 0 source.toList) : label.ShownIn source := by
  have hle := h.start_le_stop
  have hboundary : source.utf8ByteSize ≤ Span.maxOffset.toNat →
      Text.IsBoundary source.toList label.span.start.toNat := fun hfits =>
    h.isBoundary (by rwa [Text.byteLength_toList])
  exact {
    standsIn := h
    start_le_stop := hle
    sliced := by rw [Location.sliced_eq, if_neg fun hlt => absurd hlt.1 (UInt32.not_lt.2 hle)]
    start_le := by
      intro hfits
      obtain ⟨front, back, htext, hstart⟩ := hboundary hfits
      rw [← hstart, ← Text.byteLength_toList, htext, Text.byteLength_append]
      exact Nat.le_add_right _ _
    isBoundary := hboundary
    located := by
      intro hfits
      obtain ⟨front, back, htext, hstart⟩ := hboundary hfits
      have hsplit : Text.splitAt? label.span.start.toNat source.toList = some (front, back) := by
        rw [← hstart, htext]
        exact Text.splitAt?_byteLength front back
      exact ⟨_, by rw [Location.of?, hsplit, Option.map_some]⟩ }

/-- If the offsets of the text fit, the label is rendered as a snippet. -/
theorem snippet (h : label.ShownIn source) (hfits : source.utf8ByteSize ≤ Span.maxOffset.toNat)
    (colors : Bool) :
    label.Snippet colors source.toList (Piece.join colors (label.render source.toList)) := by
  obtain ⟨loc, hloc⟩ := h.located hfits
  exact snippet_render h.start_le_stop hloc

end Label.ShownIn

/-- A report writes its diagnostics, none if it accepts. -/
theorem Check.err_report_eq {options : CheckOptions} {isTerminal : Bool}
    {result : Except ParseError Match} {errors : List InvalidCharacter} :
    (report source options isTerminal result errors).err
      = rejection source (options.color.useColors isTerminal) (diagnostics errors result) := by
  cases hok : (report source options isTerminal result errors).ok with
  | false => exact err_report hok
  | true =>
      obtain ⟨found, hfound⟩ := ok_report_iff.1 hok
      obtain ⟨rfl, rfl⟩ := outcome_eq_ok_iff.1 hfound
      rfl

/-- So does a list of tokens. -/
theorem err_listTokens (source : String) (color : ColorMode) (isTerminal : Bool) :
    (listTokens source color isTerminal).err = Check.rejection source (color.useColors isTerminal)
      ((lex source).2.map InvalidCharacter.toDiagnostic) := by
  simp only [listTokens]
  cases (lex source).2 with
  | nil => rfl
  | cons error errors => rfl

/-- What is wrong with a text is said about what stands in it. -/
theorem standsIn_of_mem_diagnostics {entry : Entry} {settings : Settings}
    {parsed : Except ParseError Match} {e : Engine Scanner}
    (hparse : Engine.parse entry (.ofSource settings (Scanner.ofSource source)) = .ok parsed e)
    {d : Diagnostic} (hd : d ∈ Check.diagnostics e.buffer.source.errors parsed) {label : Label}
    (hlabel : label ∈ d.labels) : label.span.StandsIn 0 source.toList := by
  rcases List.mem_append.1 hd with hd | hd
  · obtain ⟨error, hmem, rfl⟩ := List.mem_map.1 hd
    obtain ⟨later, happend, -⟩ := Engine.errors_of_parse_text hparse
    obtain rfl := List.mem_singleton.1 hlabel
    exact standsIn_of_mem_errors (by rw [← happend]; exact List.mem_append_left _ hmem)
  · cases parsed with
    | ok found => cases hd
    | error err =>
        obtain ⟨-, -, herror⟩ := Engine.pulled_of_parse_text hparse
        obtain ⟨i, -, habout⟩ := herror err rfl
        obtain rfl := List.mem_singleton.1 hd
        rw [ParseError.span_of_mem_labels hlabel, habout.span_eq, stream_ofSource]
        exact standsIn_of_mem_lex (lexAt_mem source i)

/-- The diagnostics of a text whose labels can be shown in it are listed with these labels, and if
    the offsets of the text fit, with a snippet for each. -/
theorem Check.listed_of_shownIn {ds : List Diagnostic} (colors : Bool)
    (h : ∀ d ∈ ds, ∀ label ∈ d.labels, label.ShownIn source) :
    Diagnostic.Listed colors (Label.Displayed colors source.toList) ds
        (rejection source colors ds) ∧
      (source.utf8ByteSize ≤ Span.maxOffset.toNat →
        Diagnostic.Listed colors (fun label written => label.Snippet colors source.toList written ∧
          written ≠ label.withOffsets colors) ds (rejection source colors ds)) := by
  constructor
  · exact listed_rejection fun d hd label hlabel =>
      Label.displayed_render (h d hd label hlabel).start_le_stop
  · intro hfits
    refine listed_rejection fun d hd label hlabel => ?_
    have hsnippet := (h d hd label hlabel).snippet hfits colors
    exact ⟨hsnippet, hsnippet.ne_withOffsets⟩

/-- The check command and the tokens command end, and write their diagnostics and the count of them
    on standard error.  Every label of a diagnostic can be shown in the text, whatever the size of
    the text; if the offsets of the text fit, each is written as a snippet and none with its
    offsets.  The tokens of the text stand in it, and start in order. -/
theorem labels_shown (source : String) (options : CheckOptions) (color : ColorMode)
    (isTerminal : Bool) :
    let colors := options.color.useColors isTerminal
    let colors' := color.useColors isTerminal
    let listed := (lex source).2.map InvalidCharacter.toDiagnostic
    let displayed colors := Label.Displayed colors source.toList
    let snippet colors (label : Label) written :=
      label.Snippet colors source.toList written ∧ written ≠ label.withOffsets colors
    ∃ report parsed e,
      Engine.parse options.entry (.ofSource options.settings (Scanner.ofSource source))
        = .ok parsed e ∧
      let checked := Check.diagnostics e.buffer.source.errors parsed
      check source options isTerminal = .ok report ∧
      Diagnostic.Listed colors (displayed colors) checked report.err ∧
      Diagnostic.Listed colors' (displayed colors') listed
        (listTokens source color isTerminal).err ∧
      (source.utf8ByteSize ≤ Span.maxOffset.toNat →
        Diagnostic.Listed colors (snippet colors) checked report.err ∧
        Diagnostic.Listed colors' (snippet colors') listed
          (listTokens source color isTerminal).err) ∧
      (∀ d ∈ checked ++ listed, ∀ label ∈ d.labels, label.ShownIn source) ∧
      (∀ t ∈ (lex source).1, t.span.StandsIn 0 source.toList) ∧
      (lex source).1.Pairwise fun s t => s.span.start ≤ t.span.start := by
  intro colors colors' listed displayed snippet
  obtain ⟨parsed, e, -, hparse, -, -⟩ :=
    Engine.exists_parse_text source options.settings options.entry
  obtain ⟨stats, -, hcheck⟩ := check_of_parse isTerminal hparse
  have hchecked : ∀ d ∈ Check.diagnostics e.buffer.source.errors parsed, ∀ label ∈ d.labels,
      label.ShownIn source := fun d hd label hlabel =>
    .of_standsIn (standsIn_of_mem_diagnostics hparse hd hlabel)
  have hlisted : ∀ d ∈ listed, ∀ label ∈ d.labels, label.ShownIn source := by
    intro d hd label hlabel
    obtain ⟨error, hmem, rfl⟩ := List.mem_map.1 hd
    obtain rfl := List.mem_singleton.1 hlabel
    exact .of_standsIn (standsIn_of_mem_errors hmem)
  obtain ⟨hdisplayed, hsnippet⟩ := Check.listed_of_shownIn colors hchecked
  obtain ⟨hdisplayed', hsnippet'⟩ := Check.listed_of_shownIn colors' hlisted
  have herr : (Check.report source options isTerminal parsed e.buffer.source.errors).err
      = Check.rejection source colors (Check.diagnostics e.buffer.source.errors parsed) :=
    Check.err_report_eq
  have herr' := err_listTokens source color isTerminal
  refine ⟨_, parsed, e, hparse, hcheck, herr ▸ hdisplayed, herr' ▸ hdisplayed',
    fun hfits => ⟨herr ▸ hsnippet hfits, herr' ▸ hsnippet' hfits⟩, fun d hd => ?_,
    fun t => standsIn_of_mem_lex, starts_sorted_lex source⟩
  exact (List.mem_append.1 hd).elim (hchecked d) (hlisted d)

end Packrat
