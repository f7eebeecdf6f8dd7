import Cityscape.Proofs.Telling

/-!
# `TraceBounds`: when the bounds of a trace are those of its spans

An accepted span fact sets the bounds of the trace that it names, and of no other one. A span may be
in several traces, as its fact may be told again with another trace. Then it keeps its place in the
first trace, whose bounds stay what they have been when a fact named it for the last time
(`Store.bounds_of_calls`).
-/

namespace Cityscape

/-- A span that is told in one trace, and then again in another one with other times. -/
def Ingestion.sampleShared : List Ingestion :=
  [.span
      { landscapeToken := "t", applicationName := "web", traceId := "x", spanId := "p"
        functionFqn := "src.a.run", startTime := 5, endTime := 9 },
    .span
      { landscapeToken := "t", applicationName := "web", traceId := "y", spanId := "p"
        functionFqn := "src.a.run", startTime := 1, endTime := 3 }]

/-- Bounds that enclose the spans of a trace do so as long as none of the spans changes. -/
theorem Store.Encloses.congr {s s' : Store} {x : Trace} (h : s.Encloses x)
    (hsame : ∀ id ∈ x.spans, s'.spans.get? id = s.spans.get? id) : s'.Encloses x where
  bounds id hid p hp := h.bounds id hid p ((hsame id hid).symm.trans hp)
  earliest := by
    obtain ⟨id, hid, p, hp, heq⟩ := h.earliest
    exact ⟨id, hid, p, (hsame id hid).trans hp, heq⟩
  latest := by
    obtain ⟨id, hid, p, hp, heq⟩ := h.latest
    exact ⟨id, hid, p, (hsame id hid).trans hp, heq⟩

/-- The fact has set the bounds of a trace, and no accepted fact has named the trace since. -/
structure Trace.SetBy (x : Trace) (before : List Ingestion) (f : SpanFact)
    (later : List Ingestion) : Prop where
  accepted : f.refusal = none
  names : f.traceKey = x.key
  last : ∀ g : SpanFact, g.ToldBy later → g.traceKey ≠ x.key
  stored : x ∈ ((∅ : Store).after (before ++ [.span f])).traces
  encloses : ((∅ : Store).after (before ++ [.span f])).Encloses x

/-- One more call does not name the trace. -/
theorem Trace.SetBy.later {x : Trace} {before later : List Ingestion} {f : SpanFact}
    (h : x.SetBy before f later) {i : Ingestion}
    (hi : ∀ g : SpanFact, i = .span g → g.refusal = none → g.traceKey ≠ x.key) :
    x.SetBy before f (later ++ [i]) :=
  { h with
    last := fun g hg => by
      rcases SpanFact.toldBy_concat.1 hg with hg | ⟨rfl, hnone⟩
      · exact h.last g hg
      · exact hi g rfl hnone }

/-- None of the calls tells a span of the trace. -/
def Trace.Spared (x : Trace) (s : Store) (calls : List Ingestion) : Prop :=
  ∀ g : SpanFact, g.ToldBy calls → ∀ id ∈ x.spans, ∀ p, s.spans.get? id = some p →
    p.key ≠ g.spanKey

namespace Store

/-- The bounds of a trace have been set by the last fact that names it, and enclose its spans as
long as these are not told again. -/
structure LastSet (calls : List Ingestion) (x : Trace) (before : List Ingestion) (f : SpanFact)
    (later : List Ingestion) : Prop where
  split : calls = before ++ .span f :: later
  set : x.SetBy before f later
  current : x.Spared ((∅ : Store).after calls) later → ((∅ : Store).after calls).Encloses x

theorem LastSet.later {calls : List Ingestion} {x : Trace} {before : List Ingestion}
    {f : SpanFact} {later : List Ingestion} (h : LastSet calls x before f later) {i : Ingestion}
    (hi : ∀ g : SpanFact, i = .span g → g.refusal = none → g.traceKey ≠ x.key)
    (g : ((∅ : Store).after calls).Grows ((∅ : Store).after (calls ++ [i])))
    (hsame : x.Spared ((∅ : Store).after (calls ++ [i])) [i] → ∀ id ∈ x.spans,
      ((∅ : Store).after (calls ++ [i])).spans.get? id
        = ((∅ : Store).after calls).spans.get? id) :
    LastSet (calls ++ [i]) x before f (later ++ [i]) where
  split := by rw [h.split, List.append_assoc, List.cons_append]
  set := h.set.later hi
  current hspared := by
    refine (h.current fun f' hf' id hid p hp => ?_).congr
      (hsame fun f' hf' => hspared f' ⟨List.mem_append_right later hf'.1, hf'.2⟩)
    -- spans keep their keys
    obtain ⟨p', hp', hk⟩ := g.spans id p hp
    have hne := hspared f' (SpanFact.toldBy_concat.2 (.inl hf')) id hid p' hp'
    rwa [hk.key] at hne

theorem lastSet_of_calls (calls : List Ingestion) (hn : (∅ : Store).idsIssued calls < 2 ^ 64) :
    ∀ x ∈ ((∅ : Store).after calls).traces, ∃ before f later, LastSet calls x before f later := by
  refine telling_induction (P := fun calls => ∀ x ∈ ((∅ : Store).after calls).traces,
    ∃ before f later, LastSet calls x before f later) ?_ ?_ ?_ calls hn
  · exact fun x hx => absurd hx (Sorted.not_mem_empty x)
  · intro _ _ _ _ calls f p x hs hs' g htaken ih y hy
    rcases htaken.trace_new_or_old hs'.keyed hy with rfl | ⟨hy, hne⟩
    · -- the call has named this trace
      refine ⟨calls, f, [], rfl, ?_, fun _ => htaken.encloses⟩
      exact
        { accepted := htaken.accepted
          names := htaken.mem_traces.2.symm
          last := fun g hg => absurd hg.1 List.not_mem_nil
          stored := hy
          encloses := htaken.encloses }
    · obtain ⟨before, f', later, hlast⟩ := ih y hy
      refine ⟨before, f', later ++ [.span f],
        hlast.later (fun g hg _ => ?_) g fun hspared id hid => ?_⟩
      · cases hg
        exact hne.symm
      · -- the call tells no span of the trace, so these stay
        obtain ⟨q, hq, -⟩ := (hs.fitting.traces y hy).spans id hid
        obtain ⟨q', hq', hk⟩ := g.spans id q hq
        have hother := hspared f ⟨List.mem_singleton_self _, htaken.accepted⟩ id hid q' hq'
        rw [hk.key] at hother
        obtain rfl := Sorted.key_of_get? hq
        have hstays := htaken.span_stays hs.keyed (Sorted.mem_of_get? hq) hother
        rw [hq, Sorted.get?_key hstays]
  · intro calls i hrefused g htraces hspans ih x hx
    obtain ⟨before, f, later, hlast⟩ := ih x (htraces ▸ hx)
    refine ⟨before, f, later ++ [i], hlast.later (fun g hg hnone => ?_) g fun _ id _ => ?_⟩
    · exact absurd hnone (hrefused g hg)
    · rw [hspans]

/-- After any calls each trace has spans, and all of them are there. Its bounds have been set by
the last accepted fact that names it: they are the earliest start and the latest end of its spans
as they were then. So they are still right if no fact since has told one of these spans. -/
theorem bounds_of_calls (calls : List Ingestion) (hn : (∅ : Store).idsIssued calls < 2 ^ 64) :
    ∀ x ∈ ((∅ : Store).after calls).traces,
      (∃ id, id ∈ x.spans) ∧
      (∀ id ∈ x.spans, ∃ p, ((∅ : Store).after calls).spans.get? id = some p) ∧
      ∃ before f later, calls = before ++ .span f :: later ∧ x.SetBy before f later ∧
        (x.Spared ((∅ : Store).after calls) later → ((∅ : Store).after calls).Encloses x) := by
  intro x hx
  obtain ⟨owner, hs⟩ := sound_after_empty calls hn
  obtain ⟨before, f, later, hlast⟩ := lastSet_of_calls calls hn x hx
  obtain ⟨id, hid, -⟩ := hlast.set.encloses.earliest
  refine ⟨⟨id, hid⟩, fun id hid => ?_, before, f, later, hlast.split, hlast.set, hlast.current⟩
  obtain ⟨p, hp, -⟩ := (hs.fitting.traces x hx).spans id hid
  exact ⟨p, hp⟩

theorem bounds_of_calls_sample :
    (∅ : Store).idsIssued Ingestion.sampleShared < 2 ^ 64 ∧
      ∃ x ∈ ((∅ : Store).after Ingestion.sampleShared).traces, x.key = ("t", "x") ∧
        (∃ id, id ∈ x.spans) ∧
        (∀ id ∈ x.spans,
          ∃ p, ((∅ : Store).after Ingestion.sampleShared).spans.get? id = some p) ∧
        ∃ before f later, Ingestion.sampleShared = before ++ .span f :: later ∧
          x.SetBy before f later ∧
          (x.Spared ((∅ : Store).after Ingestion.sampleShared) later →
            ((∅ : Store).after Ingestion.sampleShared).Encloses x) := by
  have hids : (∅ : Store).idsIssued Ingestion.sampleShared < 2 ^ 64 := by decide +kernel
  have hfound : ∃ x ∈ ((∅ : Store).after Ingestion.sampleShared).traces.toList,
      x.key = ("t", "x") := by decide +kernel
  obtain ⟨x, hx, hkey⟩ := hfound
  exact ⟨hids, x, hx, hkey, bounds_of_calls Ingestion.sampleShared hids x hx⟩

/-- When a span of a trace is told again with another trace, the bounds of the first trace are not
those of its spans any more. -/
theorem outdated_bounds :
    (∅ : Store).idsIssued Ingestion.sampleShared < 2 ^ 64 ∧
      ∃ x ∈ ((∅ : Store).after Ingestion.sampleShared).traces, x.key = ("t", "x") ∧
        ¬ ((∅ : Store).after Ingestion.sampleShared).Encloses x := by
  have hfound : ∃ x ∈ ((∅ : Store).after Ingestion.sampleShared).traces.toList,
      x.key = ("t", "x") ∧ x.startTime = 5 ∧ ∀ id ∈ x.spans.toList,
        (((∅ : Store).after Ingestion.sampleShared).spans.get? id).map Span.startTime = some 1 := by
    decide +kernel
  refine ⟨by decide +kernel, ?_⟩
  obtain ⟨x, hx, hkey, hstart, hspans⟩ := hfound
  refine ⟨x, hx, hkey, fun h => ?_⟩
  -- no span starts when the trace is said to start
  obtain ⟨id, hid, p, hp, heq⟩ := h.earliest
  have hone := hspans id hid
  rw [hp, Option.map_some, heq, hstart] at hone
  exact absurd hone (by decide)

end Store
end Cityscape
