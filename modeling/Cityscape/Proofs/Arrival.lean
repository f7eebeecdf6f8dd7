import Cityscape.Proofs.Recordings

/-!
# `Arrival`: spans may be told in any order, and more than once

As long as no two facts tell one span, and none of the spans has been told before, what can be seen
of spans and traces in the end depends only on which facts have come in (`Store.Arrived.same`): a
span shows what its fact tells, a caller that no fact tells is blank, and the bounds of a trace are
those of all its spans, since the last fact about it has set them. With the views the times of the
traces are the same too (`Store.arrival_order`).
-/

namespace Cityscape

/-- Calls that tell span facts. -/
def Ingestion.spans (facts : List SpanFact) : List Ingestion := facts.map Ingestion.span

/-- Three spans, of which the first one is told before its caller, and the caller of that one is
never told. -/
def SpanFact.sample : List SpanFact :=
  [{ landscapeToken := "t", applicationName := "web", traceId := "x", spanId := "q"
     parentSpanId := some "p", functionFqn := "src.a.run", startTime := 5, endTime := 9 },
    { landscapeToken := "t", applicationName := "web", traceId := "x", spanId := "p"
      parentSpanId := some "o", functionFqn := "src.b.run", startTime := 3, endTime := 10
      commitId := some "c2" },
    { landscapeToken := "t", applicationName := "db", traceId := "z", spanId := "r"
      parentSpanId := some "q", functionFqn := "query", startTime := 6, endTime := 7 }]

namespace Store

variable {owner owner' : NodeId → String} {n m : Nat} {s s' s'' : Store}

/-- The same can be seen of the spans and traces, and of their times. -/
structure SameRecordings (s s' : Store) : Prop where
  spans : ∀ token spanId, s'.spanView token spanId = s.spanView token spanId
  traces : ∀ token traceId, s'.traceView token traceId = s.traceView token traceId
  timestamps : ∀ now token, s'.timestamps now token = s.timestamps now token

/-- The facts may be told in any order from here on: they are accepted, no two of them tell one
span, and none of the spans has a caller or is in a trace yet. -/
structure Expects (s : Store) (facts : List SpanFact) : Prop where
  accepted : ∀ f ∈ facts, f.refusal = none
  unique : ∀ f ∈ facts, ∀ g ∈ facts, f.spanKey = g.spanKey → f = g
  callers : ∀ f ∈ facts, (s.spanView f.landscapeToken f.spanId).bind SpanView.caller = none
  traces : ∀ f ∈ facts, ∀ traceId w, s.traceView f.landscapeToken traceId = some w →
    f.spanId ∉ w.spans

/-- What can be seen after the facts have come in. -/
structure Arrived (s : Store) (facts : List SpanFact) (s' : Store) : Prop where
  meant : ∀ f, s'.pathsMeant f = s.pathsMeant f
  told : ∀ f ∈ facts, s'.spanView f.landscapeToken f.spanId = some (f.view (s.pathsMeant f))
  untold : ∀ token spanId, (∀ f ∈ facts, f.spanKey ≠ (token, spanId)) →
    s'.spanView token spanId = (s.spanView token spanId).or
      (if ∃ f ∈ facts, f.NamesCaller token spanId then some .blank else none)
  named : ∀ f ∈ facts, ∃ v, s'.traceView f.landscapeToken f.traceId = some v ∧
    v.Encloses (s'.spanView f.landscapeToken) ∧
    ∀ id, id ∈ v.spans ↔ (∃ g ∈ facts, g.traceKey = f.traceKey ∧ id = g.spanId) ∨
      ∃ w, s.traceView f.landscapeToken f.traceId = some w ∧ id ∈ w.spans
  unnamed : ∀ token traceId, (∀ f ∈ facts, f.traceKey ≠ (token, traceId)) →
    s'.traceView token traceId = s.traceView token traceId

namespace Arrived

theorem nil : s.Arrived [] s where
  meant _ := rfl
  told f hf := absurd hf List.not_mem_nil
  untold token spanId _ := by simp
  named f hf := absurd hf List.not_mem_nil
  unnamed _ _ _ := rfl

/-- Only which facts have come in counts. -/
theorem same {facts facts' : List SpanFact} (h : s.Arrived facts s') (h' : s.Arrived facts' s'')
    (hmem : ∀ f, f ∈ facts ↔ f ∈ facts') :
    s''.spanView = s'.spanView ∧ s''.traceView = s'.traceView := by
  have hspans : s''.spanView = s'.spanView := by
    funext token spanId
    by_cases htold : ∃ f ∈ facts, f.spanKey = (token, spanId)
    · obtain ⟨f, hf, hkey⟩ := htold
      cases hkey
      rw [h.told f hf, h'.told f ((hmem f).1 hf)]
    · have huntold : ∀ f ∈ facts, f.spanKey ≠ (token, spanId) :=
        fun f hf hkey => htold ⟨f, hf, hkey⟩
      rw [h.untold token spanId huntold,
        h'.untold token spanId fun f hf => huntold f ((hmem f).2 hf)]
      simp only [hmem]
  refine ⟨hspans, ?_⟩
  funext token traceId
  by_cases hnamed : ∃ f ∈ facts, f.traceKey = (token, traceId)
  · obtain ⟨f, hf, hkey⟩ := hnamed
    cases hkey
    obtain ⟨v, hv, hencloses, hspans₁⟩ := h.named f hf
    obtain ⟨v', hv', hencloses', hspans₂⟩ := h'.named f ((hmem f).1 hf)
    rw [hspans] at hencloses'
    rw [hv, hv', hencloses'.eq hencloses fun id => by simp only [hspans₁, hspans₂, hmem]]
  · have hunnamed : ∀ f ∈ facts, f.traceKey ≠ (token, traceId) :=
      fun f hf hkey => hnamed ⟨f, hf, hkey⟩
    rw [h.unnamed token traceId hunnamed,
      h'.unnamed token traceId fun f hf => hunnamed f ((hmem f).2 hf)]

variable {facts : List SpanFact} {f : SpanFact} {p : Span} {x : Trace}

/-- The spans of a trace are those of the facts that name it, and those that were there before. -/
theorem mem_traceView (h : s.Arrived facts s') (token traceId id : String) :
    (∃ w, s'.traceView token traceId = some w ∧ id ∈ w.spans) ↔
      (∃ k ∈ facts, k.traceKey = (token, traceId) ∧ id = k.spanId) ∨
        ∃ w, s.traceView token traceId = some w ∧ id ∈ w.spans := by
  by_cases hnamed : ∃ k ∈ facts, k.traceKey = (token, traceId)
  · obtain ⟨k, hk, hkey⟩ := hnamed
    cases hkey
    obtain ⟨v, hv, -, hspans⟩ := h.named k hk
    refine Iff.trans ?_ (hspans id)
    rw [hv]
    simp
  · have hunnamed : ∀ k ∈ facts, k.traceKey ≠ (token, traceId) :=
      fun k hk hkey => hnamed ⟨k, hk, hkey⟩
    rw [h.unnamed token traceId hunnamed]
    refine ⟨.inr, fun hor => hor.resolve_left ?_⟩
    rintro ⟨k, hk, hkey, -⟩
    exact hunnamed k hk hkey

/-! ## One more fact comes in -/

section Concat

variable (h : s.Arrived facts s') (hexpects : s.Expects (facts ++ [f]))
  (htaken : f.TakenIn s' p x s'') (hs' : s'.Sound owner n) (g : s'.Grows s'')

include h hexpects in
/-- The span of the fact has no caller yet, or the one that the fact tells. -/
theorem caller_or : (nonEmpty f.parentSpanId).or
      ((s'.spanView f.landscapeToken f.spanId).bind SpanView.caller) = nonEmpty f.parentSpanId := by
  have hf : f ∈ facts ++ [f] := List.mem_append_right facts (List.mem_singleton_self f)
  by_cases hmem : f ∈ facts
  · rw [h.told f hmem]
    exact Option.or_self
  · have huntold : ∀ k ∈ facts, k.spanKey ≠ (f.landscapeToken, f.spanId) := by
      intro k hk hkey
      obtain rfl := hexpects.unique k (List.mem_append_left [f] hk) f hf hkey
      exact hmem hk
    have hcaller : (s'.spanView f.landscapeToken f.spanId).bind SpanView.caller = none := by
      rw [h.untold f.landscapeToken f.spanId huntold]
      have hbefore := hexpects.callers f hf
      cases hview : s.spanView f.landscapeToken f.spanId with
      | some v =>
        rw [hview] at hbefore
        exact hbefore
      | none =>
        rw [Option.none_or]
        split <;> rfl
    rw [hcaller, Option.or_none]

include h hexpects htaken hs' g in
theorem concat_told : ∀ k ∈ facts ++ [f],
    s''.spanView k.landscapeToken k.spanId = some (k.view (s.pathsMeant k)) := by
  intro k hk
  by_cases hkey : f.spanKey = k.spanKey
  · obtain rfl := hexpects.unique f (List.mem_append_right facts (List.mem_singleton_self f)) k hk
      hkey
    rw [htaken.spanView_told hs' g, h.meant, caller_or h hexpects]
    rfl
  · have hk : k ∈ facts := (List.mem_append.1 hk).resolve_right fun hk =>
      hkey (congrArg SpanFact.spanKey (List.mem_singleton.1 hk).symm)
    rw [htaken.spanView_other hs' g hkey, h.told k hk, Option.some_or]

include h htaken hs' g in
theorem concat_untold (token spanId : String)
    (huntold : ∀ k ∈ facts ++ [f], k.spanKey ≠ (token, spanId)) :
    s''.spanView token spanId = (s.spanView token spanId).or
      (if ∃ k ∈ facts ++ [f], k.NamesCaller token spanId then some .blank else none) := by
  have hf := huntold f (List.mem_append_right facts (List.mem_singleton_self f))
  rw [htaken.spanView_other hs' g hf,
    h.untold token spanId fun k hk => huntold k (List.mem_append_left [f] hk), Option.or_assoc]
  congr 1
  by_cases hold : ∃ k ∈ facts, k.NamesCaller token spanId <;>
    by_cases hnew : f.NamesCaller token spanId <;> simp [hold, hnew, or_and_right, exists_or]

include h hexpects htaken hs' g in
/-- A trace that the fact does not name still encloses its spans, as the fact tells none of
them. -/
theorem encloses_other {k : SpanFact} (hne : f.traceKey ≠ k.traceKey)
    {v : TraceView} (hv : s'.traceView k.landscapeToken k.traceId = some v)
    (hencloses : v.Encloses (s'.spanView k.landscapeToken)) :
    v.Encloses (s''.spanView k.landscapeToken) := by
  have hf : f ∈ facts ++ [f] := List.mem_append_right facts (List.mem_singleton_self f)
  refine hencloses.congr fun id hid w hw => ?_
  have hother : f.spanKey ≠ (k.landscapeToken, id) := by
    intro hkey
    rcases (h.mem_traceView _ _ id).1 ⟨v, hv, hid⟩ with ⟨k', hk', hname, rfl⟩ | ⟨w', hw', hid'⟩
    · have htoken : k'.landscapeToken = k.landscapeToken := congrArg Prod.fst hname
      obtain rfl := hexpects.unique f hf k' (List.mem_append_left [f] hk')
        (hkey.trans (Prod.ext htoken.symm rfl))
      exact hne hname
    · obtain ⟨htoken, rfl⟩ := Prod.ext_iff.1 hkey
      have htoken : f.landscapeToken = k.landscapeToken := htoken
      exact hexpects.traces f hf k.traceId w' (htoken ▸ hw') hid'
  rw [htaken.spanView_other hs' g hother, hw, Option.some_or]

include h hexpects htaken hs' g in
theorem concat_named (hs'' : s''.Sound owner' m) : ∀ k ∈ facts ++ [f],
    ∃ v, s''.traceView k.landscapeToken k.traceId = some v ∧
      v.Encloses (s''.spanView k.landscapeToken) ∧
      ∀ id, id ∈ v.spans ↔ (∃ k' ∈ facts ++ [f], k'.traceKey = k.traceKey ∧ id = k'.spanId) ∨
        ∃ w, s.traceView k.landscapeToken k.traceId = some w ∧ id ∈ w.spans := by
  intro k hk
  by_cases hkey : f.traceKey = k.traceKey
  · obtain ⟨v, hv, hencloses, hspans⟩ := htaken.traceView_named hs' hs'' g
    have htoken : f.landscapeToken = k.landscapeToken := congrArg Prod.fst hkey
    have htrace : f.traceId = k.traceId := congrArg Prod.snd hkey
    rw [htoken, htrace] at hv hspans
    rw [htoken] at hencloses
    refine ⟨v, hv, hencloses, fun id => ?_⟩
    rw [hspans id, h.mem_traceView]
    have hpair : (k.landscapeToken, k.traceId) = k.traceKey := rfl
    simp only [hpair, List.mem_append, List.mem_singleton, or_and_right, exists_or,
      exists_eq_left, hkey, true_and]
    rw [← or_assoc, or_comm (a := id = f.spanId)]
  · have hk : k ∈ facts := (List.mem_append.1 hk).resolve_right fun hk =>
      hkey (congrArg SpanFact.traceKey (List.mem_singleton.1 hk).symm)
    obtain ⟨v, hv, hencloses, hspans⟩ := h.named k hk
    refine ⟨v, (htaken.traceView_other hs' g hkey).trans hv,
      encloses_other h hexpects htaken hs' g hkey hv hencloses, fun id => ?_⟩
    rw [hspans id]
    simp only [List.mem_append, List.mem_singleton, or_and_right, exists_or, exists_eq_left, hkey,
      false_and, or_false]

include h hexpects htaken hs' g in
theorem concat (hs'' : s''.Sound owner' m) : s.Arrived (facts ++ [f]) s'' where
  meant k := (htaken.keeps.pathsMeant k).trans (h.meant k)
  told := concat_told h hexpects htaken hs' g
  untold := concat_untold h htaken hs' g
  named := concat_named h hexpects htaken hs' g hs''
  unnamed token traceId hunnamed := by
    rw [htaken.traceView_other hs' g
      (hunnamed f (List.mem_append_right facts (List.mem_singleton_self f)))]
    exact h.unnamed token traceId fun k hk => hunnamed k (List.mem_append_left [f] hk)

end Concat

end Arrived

/-! ## Any number of facts -/

theorem Expects.of_subset {facts facts' : List SpanFact} (h : s.Expects facts)
    (hsub : facts' ⊆ facts) : s.Expects facts' where
  accepted f hf := h.accepted f (hsub hf)
  unique f hf k hk := h.unique f (hsub hf) k (hsub hk)
  callers f hf := h.callers f (hsub hf)
  traces f hf := h.traces f (hsub hf)

/-- All facts come in, one after another. -/
theorem Sound.arrived (hs : s.Sound owner n) {facts : List SpanFact} (hexpects : s.Expects facts)
    (hn : n + s.idsIssued (Ingestion.spans facts) < 2 ^ 64) :
    s.Arrived facts (s.after (Ingestion.spans facts)) := by
  induction facts using List.reverseRecOn with
  | nil => exact .nil
  | append_singleton facts f ih =>
    have hcalls : Ingestion.spans (facts ++ [f]) = Ingestion.spans facts ++ [.span f] :=
      List.map_append
    have hids := s.idsIssued_append (Ingestion.spans facts) [.span f]
    have hlast : (s.after (Ingestion.spans facts)).idsIssued [.span f]
        = ((Ingestion.span f).edit (s.after (Ingestion.spans facts))).issued := rfl
    rw [hcalls, hids, hlast, ← Nat.add_assoc] at hn
    have hprefix : n + s.idsIssued (Ingestion.spans facts) < 2 ^ 64 := by omega
    obtain ⟨⟨owner₁, -, hs₁⟩, -⟩ := hs.after hprefix
    obtain ⟨owner₂, -, hready, hsteps⟩ := hs₁.call (.span f) hn
    obtain ⟨hs₂, g⟩ := hsteps.sound_and_grows hready.sound hn
    have ih := ih (hexpects.of_subset (List.subset_append_left facts [f])) hprefix
    rw [hcalls, after_append]
    rcases Ingestion.takenIn_or_records hready hn with ⟨f', p, x, he, htaken⟩ | ⟨hrefused, -⟩
    · cases he
      exact ih.concat hexpects htaken hs₁ g hs₂
    · exact absurd (hexpects.accepted f (List.mem_append_right facts (List.mem_singleton_self f)))
        (hrefused f rfl)

/-- Spans that no call has told may be told. -/
theorem expects_of_calls (calls : List Ingestion) (hn : (∅ : Store).idsIssued calls < 2 ^ 64)
    {facts : List SpanFact} (haccept : ∀ f ∈ facts, f.refusal = none)
    (hone : ∀ f ∈ facts, ∀ k ∈ facts, f.spanKey = k.spanKey → f = k)
    (hnew : ∀ f ∈ facts, ∀ k : SpanFact, k.ToldBy calls → k.spanKey ≠ f.spanKey) :
    ((∅ : Store).after calls).Expects facts := by
  obtain ⟨owner, hs⟩ := sound_after_empty calls hn
  have hrecorded := recorded_of_calls calls hn
  refine ⟨haccept, hone, fun f hf => ?_, fun f hf traceId w hw hid => ?_⟩
  · unfold spanView
    cases hfind : ((∅ : Store).after calls).findSpan f.landscapeToken f.spanId with
    | none => rfl
    | some p =>
      obtain ⟨hp, htoken, hspanId⟩ := Sorted.mem_of_find?_pair hfind
      have hkey : p.key = f.spanKey := Prod.ext htoken hspanId
      have hcaller := hrecorded.caller p hp fun k hk => hkey ▸ hnew f hf k hk
      simp [viewOfSpan, hcaller]
  · obtain ⟨x, hx, rfl⟩ := Option.map_eq_some_iff.1 hw
    obtain ⟨hx, htoken, -⟩ := Sorted.mem_of_find?_pair hx
    obtain ⟨id, hmem, p, hp, hspanId⟩ := mem_viewOfTrace.1 hid
    -- the spans of a trace have been told, under the token of the trace
    obtain ⟨q, hq, rfl, k, hk, hkey⟩ := hrecorded.members x hx id hmem
    obtain ⟨r, hr, hrtoken⟩ := (hs.fitting.traces x hx).spans q.id hmem
    obtain rfl := Option.some.inj (hp.symm.trans hr)
    obtain rfl := Option.some.inj (hp.symm.trans (Sorted.get?_key hq))
    exact hnew f hf k hk (hkey.trans (Prod.ext (hrtoken.trans htoken) hspanId))

/-- In whatever order accepted span facts are told, and however often each of them, the same can be
seen of spans and traces in the end. No two of the facts may tell one span, and none of the spans
may have been told by an earlier call. -/
theorem arrival_order (calls : List Ingestion) (facts : Set SpanFact)
    (haccept : ∀ f ∈ facts, f.refusal = none)
    (hone : ∀ f ∈ facts, ∀ k ∈ facts, f.spanKey = k.spanKey → f = k)
    (hnew : ∀ f ∈ facts, ∀ k : SpanFact, k.ToldBy calls → k.spanKey ≠ f.spanKey)
    (l₁ l₂ : List SpanFact) (h₁ : ∀ f, f ∈ l₁ ↔ f ∈ facts) (h₂ : ∀ f, f ∈ l₂ ↔ f ∈ facts)
    (hids₁ : (∅ : Store).idsIssued (calls ++ Ingestion.spans l₁) < 2 ^ 64)
    (hids₂ : (∅ : Store).idsIssued (calls ++ Ingestion.spans l₂) < 2 ^ 64) :
    ((∅ : Store).after (calls ++ Ingestion.spans l₁)).SameRecordings
      ((∅ : Store).after (calls ++ Ingestion.spans l₂)) := by
  rw [idsIssued_append] at hids₁ hids₂
  have hcalls : (∅ : Store).idsIssued calls < 2 ^ 64 := by omega
  obtain ⟨owner, hs⟩ := sound_after_empty calls hcalls
  obtain ⟨⟨owner₁, -, hs₁⟩, -⟩ := hs.after hids₁
  obtain ⟨⟨owner₂, -, hs₂⟩, -⟩ := hs.after hids₂
  rw [after_append, after_append]
  have hexpects₁ : ((∅ : Store).after calls).Expects l₁ := expects_of_calls calls hcalls
    (fun f hf => haccept f ((h₁ f).1 hf))
    (fun f hf k hk => hone f ((h₁ f).1 hf) k ((h₁ k).1 hk))
    fun f hf => hnew f ((h₁ f).1 hf)
  have hexpects₂ : ((∅ : Store).after calls).Expects l₂ :=
    hexpects₁.of_subset fun f hf => (h₁ f).2 ((h₂ f).1 hf)
  obtain ⟨hspans, htraces⟩ := (hs.arrived hexpects₁ hids₁).same (hs.arrived hexpects₂ hids₂)
    fun f => (h₁ f).trans (h₂ f).symm
  exact
    { spans := fun token spanId => by rw [hspans]
      traces := fun token traceId => by rw [htraces]
      timestamps := hs₁.timestamps_eq hs₂ htraces }

theorem arrival_order_sample :
    (∀ f ∈ SpanFact.sample, f.refusal = none) ∧
      (∀ f ∈ SpanFact.sample, ∀ k ∈ SpanFact.sample, f.spanKey = k.spanKey → f = k) ∧
      (∀ f ∈ SpanFact.sample, ∀ k : SpanFact, k.ToldBy Ingestion.sample →
        k.spanKey ≠ f.spanKey) ∧
      ((∅ : Store).after (Ingestion.sample ++ Ingestion.spans SpanFact.sample)).SameRecordings
        ((∅ : Store).after (Ingestion.sample ++ Ingestion.spans
          (SpanFact.sample.reverse ++ SpanFact.sample))) := by
  have haccept : ∀ f ∈ SpanFact.sample, f.refusal = none := by decide +kernel
  have hone : ∀ f ∈ SpanFact.sample, ∀ k ∈ SpanFact.sample, f.spanKey = k.spanKey → f = k := by
    decide +kernel
  have hnew : ∀ f ∈ SpanFact.sample, ∀ k : SpanFact, k.ToldBy Ingestion.sample →
      k.spanKey ≠ f.spanKey := by
    intro f hf k hk
    -- the calls before tell one span
    have hkey : k.spanKey = ("t", "y") := by
      have hmem := hk.1
      simp only [Ingestion.sample, List.mem_cons, List.not_mem_nil, reduceCtorEq,
        Ingestion.span.injEq, false_or, or_false] at hmem
      rw [hmem]
      rfl
    have hother : ∀ f ∈ SpanFact.sample, ("t", "y") ≠ f.spanKey := by decide +kernel
    rw [hkey]
    exact hother f hf
  refine ⟨haccept, hone, hnew, ?_⟩
  exact arrival_order Ingestion.sample {f | f ∈ SpanFact.sample} haccept hone hnew
    SpanFact.sample (SpanFact.sample.reverse ++ SpanFact.sample) (fun f => Iff.rfl)
    (fun f => by simp) (by decide +kernel) (by decide +kernel)

end Store
end Cityscape
