import Cityscape.Proofs.Calls

/-!
# `Telling`: which calls change traces and spans

An accepted span fact tells its span and changes what `SpanFact.TakenIn` says. All other calls
leave the traces and spans alone, also those that tell a span and fail. So what holds of traces
and spans after any calls follows from what one accepted fact does to them
(`Store.telling_induction`).
-/

namespace Cityscape

/-- The key of the span that a fact tells. -/
def SpanFact.spanKey (f : SpanFact) : String × String := (f.landscapeToken, f.spanId)

/-- The key of the trace that a fact names. -/
def SpanFact.traceKey (f : SpanFact) : String × String := (f.landscapeToken, f.traceId)

/-- The key of a span. -/
def Span.key (p : Span) : String × String := (p.token, p.spanId)

theorem Span.Kept.key {p p' : Span} (h : p.Kept p') : p'.key = p.key := Prod.ext h.token h.spanId

/-- The key of a trace. -/
def Trace.key (x : Trace) : String × String := (x.token, x.traceId)

/-- The fact is told by one of the calls, and is accepted. -/
def SpanFact.ToldBy (f : SpanFact) (calls : List Ingestion) : Prop :=
  .span f ∈ calls ∧ f.refusal = none

theorem SpanFact.toldBy_concat {f : SpanFact} {calls : List Ingestion} {i : Ingestion} :
    f.ToldBy (calls ++ [i]) ↔ f.ToldBy calls ∨ .span f = i ∧ f.refusal = none := by
  unfold ToldBy
  rw [List.mem_append, List.mem_singleton, or_and_right]

/-! ## Calls that tell a span -/

namespace SpanFact.TakenIn

variable {s s' : Store} {f : SpanFact} {p : Span} {x : Trace}

/-- Spans that the fact does not tell stay. -/
theorem span_stays (h : f.TakenIn s p x s') (hs : s.Keyed) {q : Span} (hq : q ∈ s.spans)
    (hne : q.key ≠ f.spanKey) : q ∈ s'.spans := by
  have hfind := hs.findSpan_eq_some_iff.2 ⟨hq, rfl, rfl⟩
  rcases h.told.others q.token q.spanId hne with hsame | ⟨hnone, -⟩
  · exact (Sorted.mem_of_find?_pair (hsame.trans hfind)).1
  · rw [hfind] at hnone
    cases hnone

/-- A span that the fact does not tell has been there, or is blank. -/
theorem old_or_blank (h : f.TakenIn s p x s') (hs' : s'.Keyed) {q : Span} (hq : q ∈ s'.spans)
    (hne : q.key ≠ f.spanKey) : q ∈ s.spans ∨ q = .blank q.id q.token q.spanId := by
  have hfind := hs'.findSpan_eq_some_iff.2 ⟨hq, rfl, rfl⟩
  rcases h.told.others q.token q.spanId hne with hsame | ⟨-, -, -, n, hblank⟩
  · exact .inl (Sorted.mem_of_find?_pair (hsame.symm.trans hfind)).1
  · have hq := Option.some.inj (hfind.symm.trans hblank)
    have hid : q.id = n := congrArg Span.id hq
    exact .inr (hid ▸ hq)

theorem mem_spans (h : f.TakenIn s p x s') : p ∈ s'.spans ∧ p.key = f.spanKey := by
  obtain ⟨hmem, htoken, hid⟩ := Sorted.mem_of_find?_pair h.told.found
  exact ⟨hmem, Prod.ext htoken hid⟩

theorem mem_traces (h : f.TakenIn s p x s') : x ∈ s'.traces ∧ x.key = f.traceKey := by
  obtain ⟨hmem, htoken, hid⟩ := Sorted.mem_of_find?_pair h.found
  exact ⟨hmem, Prod.ext htoken hid⟩

/-- A trace is the one that the fact names, or it has been there. -/
theorem trace_new_or_old (h : f.TakenIn s p x s') (hs' : s'.Keyed) {y : Trace}
    (hy : y ∈ s'.traces) : y = x ∨ y ∈ s.traces ∧ y.key ≠ f.traceKey := by
  obtain ⟨hx, hkey⟩ := h.mem_traces
  by_cases hnamed : y.key = f.traceKey
  · exact .inl (hs'.traces y hy x hx (hnamed.trans hkey.symm))
  · have hfind := hs'.findTrace_eq_some_iff.2 ⟨hy, rfl, rfl⟩
    rw [h.otherTraces y.token y.traceId hnamed] at hfind
    exact .inr ⟨(Sorted.mem_of_find?_pair hfind).1, hnamed⟩

end SpanFact.TakenIn

/-! ## Calls that tell no span -/

section Calls

variable {owner : NodeId → String} {t : String} {k : Topic} {n j : Nat} {s s' : Store}

/-- Only calls about spans change traces and spans. -/
theorem Step.records (h : Step owner t k j s s') (hk : k ≠ .span) :
    s'.traces = s.traces ∧ s'.spans = s.spans := by
  cases h with
  | newTracedApplication => exact absurd rfl hk
  | newTrace => exact absurd rfl hk
  | trace => exact absurd rfl hk
  | newSpan => exact absurd rfl hk
  | span => exact absurd rfl hk
  | _ => exact ⟨rfl, rfl⟩

theorem Steps.records (h : Steps owner t k j s s') (hk : k ≠ .span) :
    s'.traces = s.traces ∧ s'.spans = s.spans := by
  induction h with
  | refl => exact ⟨rfl, rfl⟩
  | tail _ last ih =>
    obtain ⟨htraces, hspans⟩ := last.records hk
    exact ⟨htraces.trans ih.1, hspans.trans ih.2⟩

/-- A function without a name cannot be placed. -/
theorem Edit.placeFunction_of_nil {f : SpanFact} (hname : splitName f.functionFqn = [])
    (root : NodeId) :
    Edit.placeFunction root f s = { result := .error .emptyFunctionName, store := s } := by
  unfold Edit.placeFunction
  rw [hname]
  rfl

/-- A span fact without key is refused before anything is done. -/
theorem Edit.ingestSpan_of_noKey {f : SpanFact} (hkey : f.traceId = "" ∨ f.spanId = "") :
    (Edit.ingestSpan f s).store = s := by
  unfold Edit.ingestSpan
  rw [if_pos (by simpa [String.isEmpty_iff] using hkey)]
  rfl

/-- If the fact names no function, nothing is done but finding the application. -/
theorem Edit.ingestSpan_of_noName {f : SpanFact} (hkey : ¬(f.traceId = "" ∨ f.spanId = ""))
    (hname : splitName f.functionFqn = []) :
    (Edit.ingestSpan f s).store
        = (Edit.applicationNamed f.landscapeToken f.applicationName s).store ∧
      (Edit.ingestSpan f s).issued
        = (Edit.applicationNamed f.landscapeToken f.applicationName s).issued := by
  unfold Edit.ingestSpan
  rw [if_neg (by simpa [String.isEmpty_iff] using hkey)]
  simp only
  rcases ho : Edit.applicationNamed f.landscapeToken f.applicationName s with ⟨x | a, s', j⟩
  · rw [Edit.bind_of_error ho]
    exact ⟨rfl, rfl⟩
  · rw [Edit.bind_of_ok ho, Edit.bind_of_error (Edit.placeFunction_of_nil hname _)]
    exact ⟨rfl, rfl⟩

/-- A span fact that is refused leaves the traces and spans alone. -/
theorem Edit.ingestSpan_records {f : SpanFact} (h : Ready owner f.landscapeToken n s)
    (hn : n + (Edit.ingestSpan f s).issued < 2 ^ 64) (hf : f.refusal ≠ none) :
    (Edit.ingestSpan f s).store.traces = s.traces ∧
      (Edit.ingestSpan f s).store.spans = s.spans := by
  by_cases hkey : f.traceId = "" ∨ f.spanId = ""
  · rw [Edit.ingestSpan_of_noKey hkey]
    exact ⟨rfl, rfl⟩
  have hname : splitName f.functionFqn = [] := by
    unfold SpanFact.refusal at hf
    rw [if_neg hkey] at hf
    by_contra hne
    exact hf (if_neg hne)
  -- the application is there, and then the call fails
  obtain ⟨hstore, hissued⟩ := Edit.ingestSpan_of_noName (s := s) hkey hname
  rw [hissued] at hn
  rw [hstore]
  obtain ⟨-, hok, herror⟩ := Edit.runs_applicationNamed h hn
  cases hresult : (Edit.applicationNamed f.landscapeToken f.applicationName s).result with
  | error x => exact (herror x hresult).elim
  | ok a => exact (hok a hresult).2.2.2

/-- A call tells an accepted span fact, or it leaves the traces and spans alone. -/
theorem Ingestion.takenIn_or_records {i : Ingestion} (h : Ready owner i.token n s)
    (hn : n + (i.edit s).issued < 2 ^ 64) :
    (∃ f p x, i = .span f ∧ f.TakenIn s p x (i.edit s).store) ∨
      (∀ f, i = .span f → f.refusal ≠ none) ∧ (i.edit s).store.traces = s.traces ∧
        (i.edit s).store.spans = s.spans := by
  by_cases hspan : ∃ f, i = .span f
  · obtain ⟨f, rfl⟩ := hspan
    obtain ⟨hstore, hissued⟩ := Ingestion.effect_span s f
    rw [hissued] at hn
    rw [hstore]
    by_cases hf : f.refusal = none
    · obtain ⟨-, hok, herror⟩ := Edit.runs_ingestSpan h hn
      cases hresult : (Edit.ingestSpan f s).result with
      | error x =>
        have hx := herror x hresult
        rw [hf] at hx
        cases hx
      | ok p =>
        obtain ⟨x, htaken⟩ := hok p hresult
        exact .inl ⟨f, p, x, rfl, htaken⟩
    · refine .inr ⟨fun f' he => ?_, Edit.ingestSpan_records h hn hf⟩
      cases he
      exact hf
  · have htopic : i.topic ≠ .span := by
      cases i with
      | span f => exact absurd ⟨f, rfl⟩ hspan
      | repository f => exact fun he => by cases he
      | commit f => exact fun he => by cases he
      | file f => exact fun he => by cases he
    exact .inr ⟨fun f hf => absurd ⟨f, hf⟩ hspan, (i.runs h hn).1.records htopic⟩

end Calls

/-! ## Any number of calls -/

namespace Store

/-- What accepted span facts keep up, and what does not depend on anything but traces and spans,
holds after any calls. -/
theorem telling_induction {P : List Ingestion → Prop} (hnil : P [])
    (htold : ∀ {owner owner' n n'} calls f p x, ((∅ : Store).after calls).Sound owner n →
      ((∅ : Store).after (calls ++ [.span f])).Sound owner' n' →
      ((∅ : Store).after calls).Grows ((∅ : Store).after (calls ++ [.span f])) →
      f.TakenIn ((∅ : Store).after calls) p x ((∅ : Store).after (calls ++ [.span f])) →
      P calls → P (calls ++ [.span f]))
    (hother : ∀ calls i, (∀ f, i = .span f → f.refusal ≠ none) →
      ((∅ : Store).after calls).Grows ((∅ : Store).after (calls ++ [i])) →
      ((∅ : Store).after (calls ++ [i])).traces = ((∅ : Store).after calls).traces →
      ((∅ : Store).after (calls ++ [i])).spans = ((∅ : Store).after calls).spans →
      P calls → P (calls ++ [i]))
    (calls : List Ingestion) (hn : (∅ : Store).idsIssued calls < 2 ^ 64) : P calls := by
  refine call_induction (P := fun calls _ => P calls) hnil ?_ calls hn
  intro owner n calls i hready hids ih
  obtain ⟨hs', g⟩ := (i.runs hready hids).1.sound_and_grows hready.sound hids
  have hcall := Ingestion.takenIn_or_records hready hids
  rw [← after_concat] at hs' g hcall
  rcases hcall with ⟨f, p, x, rfl, htaken⟩ | ⟨hrefused, htraces, hspans⟩
  · exact htold calls f p x hready.sound hs' g htaken ih
  · exact hother calls i hrefused g htraces hspans ih

/-- The span with the given id is there, and has been told. -/
def HasTold (calls : List Ingestion) (s : Store) (id : NodeId) : Prop :=
  ∃ p ∈ s.spans, p.id = id ∧ ∃ f : SpanFact, f.ToldBy calls ∧ f.spanKey = p.key

theorem HasTold.of_grows {calls : List Ingestion} {s s' : Store} {id : NodeId}
    (h : HasTold calls s id) (g : s.Grows s') (i : Ingestion) : HasTold (calls ++ [i]) s' id := by
  obtain ⟨p, hp, rfl, f, hf, hkey⟩ := h
  obtain ⟨p', hp', hk⟩ := g.spans.mem hp
  exact ⟨p', hp', hk.id, f, SpanFact.toldBy_concat.2 (.inl hf), hkey.trans hk.key.symm⟩

/-- What is known of spans and traces comes from accepted facts. -/
structure Recorded (calls : List Ingestion) (s : Store) : Prop where
  /-- A span that has not been told has no caller. -/
  caller : ∀ p ∈ s.spans, (∀ f : SpanFact, f.ToldBy calls → f.spanKey ≠ p.key) → p.parentSpan = none
  /-- The spans of a trace have been told. -/
  members : ∀ x ∈ s.traces, ∀ id ∈ x.spans, HasTold calls s id

theorem recorded_of_calls (calls : List Ingestion) (hn : (∅ : Store).idsIssued calls < 2 ^ 64) :
    ((∅ : Store).after calls).Recorded calls := by
  refine telling_induction (P := fun calls => ((∅ : Store).after calls).Recorded calls) ?_ ?_ ?_
    calls hn
  · exact
      { caller := fun p hp => absurd hp (Sorted.not_mem_empty p)
        members := fun x hx => absurd hx (Sorted.not_mem_empty x) }
  · intro _ _ _ _ calls f p x hs hs' g htaken ih
    have hnew : f.ToldBy (calls ++ [.span f]) :=
      SpanFact.toldBy_concat.2 (.inr ⟨rfl, htaken.accepted⟩)
    obtain ⟨hp, hpkey⟩ := htaken.mem_spans
    constructor
    case caller =>
      intro q hq huntold
      rcases htaken.old_or_blank hs'.keyed hq (huntold f hnew).symm with hq | hblank
      · exact ih.caller q hq fun f' hf' => huntold f' (SpanFact.toldBy_concat.2 (.inl hf'))
      · rw [hblank]
        rfl
    case members =>
      intro y hy id hid
      rcases htaken.trace_new_or_old hs'.keyed hy with rfl | ⟨hy, -⟩
      · rcases (htaken.spans id).1 hid with rfl | ⟨y', hy', hid⟩
        · exact ⟨p, hp, rfl, f, hnew, hpkey.symm⟩
        · exact (ih.members y' (Sorted.mem_of_find?_pair hy').1 id hid).of_grows g _
      · exact (ih.members y hy id hid).of_grows g _
  · intro calls i _ g htraces hspans ih
    constructor
    case caller =>
      intro q hq huntold
      exact ih.caller q (hspans ▸ hq) fun f' hf' => huntold f' (SpanFact.toldBy_concat.2 (.inl hf'))
    case members =>
      intro y hy id hid
      exact (ih.members y (htraces ▸ hy) id hid).of_grows g i

end Store
end Cityscape
