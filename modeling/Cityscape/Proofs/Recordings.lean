import Cityscape.Proofs.Telling
import Cityscape.Query.Answer

/-!
# `Recordings`: what can be seen of spans and traces

A view of a span or a trace has names instead of the ids of nodes, which depend on the order in
which nodes come in. What an accepted span fact does to the views can be said in terms of the views
alone, and of the paths that its function has been meant to have.
-/

namespace Cityscape

/-- What can be seen of a span. -/
@[ext]
structure SpanView where
  startTime : Int64
  endTime : Int64
  caller : Option String
  application : Option String
  /-- The paths of the files that the function is in, and its name. -/
  function : Option (SortedSet (List String) × String)

/-- What can be seen of a trace. -/
@[ext]
structure TraceView where
  startTime : Int64
  endTime : Int64
  spans : SortedSet String

/-- A span of which nothing is known. -/
def SpanView.blank : SpanView where
  startTime := 0
  endTime := 0
  caller := none
  application := none
  function := none

/-- What a fact tells of its span, whose function is in the files with the given paths. -/
def SpanFact.view (f : SpanFact) (paths : SortedSet (List String)) : SpanView where
  startTime := f.startTime
  endTime := f.endTime
  caller := nonEmpty f.parentSpanId
  application := some f.applicationName
  function := (splitName f.functionFqn).getLast?.map fun name => (paths, name)

/-- The fact names a span as the caller of its own one. -/
def SpanFact.NamesCaller (f : SpanFact) (token spanId : String) : Prop :=
  f.landscapeToken = token ∧ nonEmpty f.parentSpanId = some spanId

instance (f : SpanFact) (token spanId : String) : Decidable (f.NamesCaller token spanId) :=
  inferInstanceAs (Decidable (_ ∧ _))

/-- All spans of a trace are there, and its bounds are their earliest start and latest end. -/
structure TraceView.Encloses (spans : String → Option SpanView) (v : TraceView) : Prop where
  bounds : ∀ id ∈ v.spans, ∃ w, spans id = some w ∧ v.startTime ≤ w.startTime ∧
    w.endTime ≤ v.endTime
  earliest : ∃ id ∈ v.spans, ∃ w, spans id = some w ∧ w.startTime = v.startTime
  latest : ∃ id ∈ v.spans, ∃ w, spans id = some w ∧ w.endTime = v.endTime

/-- Views that have the same spans and enclose them are the same. -/
theorem TraceView.Encloses.eq {spans : String → Option SpanView} {v v' : TraceView}
    (h : v.Encloses spans) (h' : v'.Encloses spans) (hmem : ∀ id, id ∈ v.spans ↔ id ∈ v'.spans) :
    v = v' := by
  have starts : ∀ {v v' : TraceView}, v.Encloses spans → v'.Encloses spans →
      (∀ id, id ∈ v.spans ↔ id ∈ v'.spans) → v.startTime ≤ v'.startTime := by
    intro v v' h h' hmem
    obtain ⟨id, hid, w, hw, heq⟩ := h'.earliest
    obtain ⟨w', hw', hle, -⟩ := h.bounds id ((hmem id).2 hid)
    rw [hw] at hw'
    cases hw'
    exact heq ▸ hle
  have ends : ∀ {v v' : TraceView}, v.Encloses spans → v'.Encloses spans →
      (∀ id, id ∈ v.spans ↔ id ∈ v'.spans) → v'.endTime ≤ v.endTime := by
    intro v v' h h' hmem
    obtain ⟨id, hid, w, hw, heq⟩ := h'.latest
    obtain ⟨w', hw', -, hle⟩ := h.bounds id ((hmem id).2 hid)
    rw [hw] at hw'
    cases hw'
    exact heq ▸ hle
  have hmem' := fun id => (hmem id).symm
  ext1
  · exact Int64.le_antisymm (starts h h' hmem) (starts h' h hmem')
  · exact Int64.le_antisymm (ends h' h hmem') (ends h h' hmem)
  · exact SortedSet.ext_mem hmem

/-- Bounds stay right as long as the spans do not change. -/
theorem TraceView.Encloses.congr {spans spans' : String → Option SpanView} {v : TraceView}
    (h : v.Encloses spans) (hsame : ∀ id ∈ v.spans, ∀ w, spans id = some w → spans' id = some w) :
    v.Encloses spans' where
  bounds id hid := by
    obtain ⟨w, hw, hle⟩ := h.bounds id hid
    exact ⟨w, hsame id hid w hw, hle⟩
  earliest := by
    obtain ⟨id, hid, w, hw, heq⟩ := h.earliest
    exact ⟨id, hid, w, hsame id hid w hw, heq⟩
  latest := by
    obtain ⟨id, hid, w, hw, heq⟩ := h.latest
    exact ⟨id, hid, w, hsame id hid w hw, heq⟩

namespace Store

/-- What can be seen of a span of the store. -/
def viewOfSpan (s : Store) (p : Span) : SpanView where
  startTime := p.startTime
  endTime := p.endTime
  caller := (p.parentSpan.bind s.spans.get?).map Span.spanId
  application := (p.application.bind s.applications.get?).map Application.name
  function := (p.function.bind s.functions.get?).map fun g => (s.pathsOf g.id, g.name)

/-- What can be seen of a trace of the store. -/
def viewOfTrace (s : Store) (x : Trace) : TraceView where
  startTime := x.startTime
  endTime := x.endTime
  spans := Sorted.ofList ((x.spans.toList.filterMap s.spans.get?).map Span.spanId)

/-- The view of a span that is found under its key. -/
def spanView (s : Store) (token spanId : String) : Option SpanView :=
  (s.findSpan token spanId).map s.viewOfSpan

/-- The view of a trace that is found under its key. -/
def traceView (s : Store) (token traceId : String) : Option TraceView :=
  (s.findTrace token traceId).map s.viewOfTrace

variable {owner owner' : NodeId → String} {n m : Nat} {s s' : Store}

theorem mem_viewOfTrace {x : Trace} {spanId : String} :
    spanId ∈ (s.viewOfTrace x).spans ↔
      ∃ id ∈ x.spans, ∃ p, s.spans.get? id = some p ∧ p.spanId = spanId := by
  unfold viewOfTrace
  rw [SortedSet.mem_ofList]
  simp only [List.mem_map, List.mem_filterMap, Sorted.mem_toList]
  constructor
  · rintro ⟨p, ⟨id, hid, hp⟩, rfl⟩
    exact ⟨id, hid, p, hp, rfl⟩
  · rintro ⟨id, hid, p, hp, rfl⟩
    exact ⟨p, ⟨id, hid, hp⟩, rfl⟩

/-! ## Views stay -/

/-- The name of the calling span stays. -/
theorem Sound.callerName_of_grows (hs : s.Sound owner n) (g : s.Grows s') {p : Span}
    (hp : p ∈ s.spans) : (p.parentSpan.bind s'.spans.get?).map Span.spanId
      = (p.parentSpan.bind s.spans.get?).map Span.spanId := by
  cases hcaller : p.parentSpan with
  | none => rfl
  | some id =>
    obtain ⟨q, hq, -⟩ := (hs.fitting.spans p hp).caller id hcaller
    obtain ⟨q', hq', hk⟩ := g.spans id q hq
    rw [Option.bind_some, Option.bind_some, hq, hq', Option.map_some, Option.map_some, hk.spanId]

/-- The view of a span that does not change stays. -/
theorem Sound.viewOfSpan_of_grows (hs : s.Sound owner n) (g : s.Grows s')
    (hkeeps : s.KeepsPlaces s') {p : Span} (hp : p ∈ s.spans) :
    s'.viewOfSpan p = s.viewOfSpan p := by
  have fits := hs.fitting.spans p hp
  unfold viewOfSpan
  rw [hs.callerName_of_grows g hp]
  ext1
  · rfl
  · rfl
  · rfl
  · cases happ : p.application with
    | none => rfl
    | some id =>
      obtain ⟨a, ha, -⟩ := fits.application id happ
      obtain ⟨a', ha', hk⟩ := g.applications id a ha
      simp only [Option.bind_some, ha, ha', Option.map_some, hk.name]
  · cases hfunction : p.function with
    | none => rfl
    | some id =>
      obtain ⟨f, hf, -⟩ := fits.function id hfunction
      obtain ⟨f', hf', rfl⟩ := g.functions id f hf
      simp only [Option.bind_some, hf, hf', Option.map_some,
        hkeeps.pathsOf f (Sorted.mem_of_get? hf)]

/-- The view of a trace that does not change stays. -/
theorem Sound.viewOfTrace_of_grows (hs : s.Sound owner n) (g : s.Grows s') {x : Trace}
    (hx : x ∈ s.traces) : s'.viewOfTrace x = s.viewOfTrace x := by
  have fits := hs.fitting.traces x hx
  ext1
  · rfl
  · rfl
  · refine SortedSet.ext_mem fun spanId => ?_
    rw [mem_viewOfTrace, mem_viewOfTrace]
    refine exists_congr fun id => and_congr_right fun hid => ?_
    obtain ⟨p, hp, -⟩ := fits.spans id hid
    obtain ⟨p', hp', hk⟩ := g.spans id p hp
    simp [hp, hp', hk.spanId]

/-- The bounds of a trace enclose its spans, and so do those of its view. -/
theorem Encloses.view (hs : s.Sound owner n) {x : Trace} (hx : x ∈ s.traces) (h : s.Encloses x) :
    (s.viewOfTrace x).Encloses (s.spanView x.token) := by
  have fits := hs.fitting.traces x hx
  have hview : ∀ id ∈ x.spans, ∀ p, s.spans.get? id = some p →
      p.spanId ∈ (s.viewOfTrace x).spans ∧
        s.spanView x.token p.spanId = some (s.viewOfSpan p) := by
    intro id hid p hp
    obtain ⟨p', hp', htoken⟩ := fits.spans id hid
    rw [hp] at hp'
    cases hp'
    refine ⟨mem_viewOfTrace.2 ⟨id, hid, p, hp, rfl⟩, ?_⟩
    unfold spanView
    rw [hs.keyed.findSpan_eq_some_iff.2 ⟨Sorted.mem_of_get? hp, htoken, rfl⟩, Option.map_some]
  constructor
  case bounds =>
    intro spanId hspan
    obtain ⟨id, hid, p, hp, rfl⟩ := mem_viewOfTrace.1 hspan
    exact ⟨_, (hview id hid p hp).2, h.bounds id hid p hp⟩
  case earliest =>
    obtain ⟨id, hid, p, hp, heq⟩ := h.earliest
    obtain ⟨hmem, hfind⟩ := hview id hid p hp
    exact ⟨p.spanId, hmem, _, hfind, heq⟩
  case latest =>
    obtain ⟨id, hid, p, hp, heq⟩ := h.latest
    obtain ⟨hmem, hfind⟩ := hview id hid p hp
    exact ⟨p.spanId, hmem, _, hfind, heq⟩

/-! ## The times of the traces -/

instance : Std.TransCmp timeOrder :=
  inferInstanceAs (Std.TransCmp
    (compareLex (compareOn TraceTime.epochNano) (compareOn TraceTime.spanCount)))

theorem eq_of_timeOrder {a b : TraceTime} (h : timeOrder a b = .eq) : a = b := by
  obtain ⟨hstart, hcount⟩ := Ordering.then_eq_eq.1 h
  cases a
  cases b
  rw [TraceTime.mk.injEq]
  exact ⟨Std.LawfulEqCmp.eq_of_compare hstart, Std.LawfulEqCmp.eq_of_compare hcount⟩

theorem mem_tracesOf {token : String} {x : Trace} :
    x ∈ s.tracesOf token ↔ x ∈ s.traces ∧ x.token = token := by
  unfold tracesOf
  rw [List.mem_filter, decide_eq_true_eq]
  rfl

/-- A trace shows as many spans as it has. -/
theorem Sound.size_viewOfTrace (hs : s.Sound owner n) {x : Trace} (hx : x ∈ s.traces) :
    (s.viewOfTrace x).spans.size = x.spans.size := by
  have fits := hs.fitting.traces x hx
  have hlength : (x.spans.toList.filterMap s.spans.get?).length = x.spans.toList.length := by
    rw [List.filterMap_length_eq_length]
    intro id hid
    obtain ⟨p, hp, -⟩ := fits.spans id hid
    rw [hp]
    rfl
  have htoken : ∀ p ∈ x.spans.toList.filterMap s.spans.get?, p ∈ s.spans ∧ p.token = x.token := by
    intro p hp
    obtain ⟨id, hid, hget⟩ := List.mem_filterMap.1 hp
    obtain ⟨p', hp', htoken⟩ := fits.spans id hid
    rw [hget] at hp'
    cases hp'
    exact ⟨Sorted.mem_of_get? hget, htoken⟩
  -- the spans of a trace have different names
  have hnodup : ((x.spans.toList.filterMap s.spans.get?).map Span.spanId).Nodup := by
    apply List.Nodup.map_on
    · intro p hp q hq hname
      obtain ⟨hp, hpt⟩ := htoken p hp
      obtain ⟨hq, hqt⟩ := htoken q hq
      exact hs.keyed.spans p hp q hq (Prod.ext (hpt.trans hqt.symm) hname)
    · apply List.Nodup.filterMap
      · intro i j p hi hj
        rw [← Sorted.key_of_get? hi, ← Sorted.key_of_get? hj]
      · exact Sorted.nodup_of_ascending x.spans.ascending
  have hperm := (List.perm_ext_iff_of_nodup (Sorted.nodup_of_ascending
    (s.viewOfTrace x).spans.ascending) hnodup).2 fun _ => SortedSet.mem_ofList
  exact (hperm.length_eq.trans (List.length_map _)).trans hlength

/-- When a trace starts and how many spans it has. -/
def TraceView.time (v : TraceView) : TraceTime := ⟨v.startTime, .ofNat v.spans.size⟩

/-- The traces of a landscape have different names. -/
theorem Keyed.nodup_traceIds (h : s.Keyed) (token : String) :
    ((s.tracesOf token).map Trace.traceId).Nodup := by
  apply List.Nodup.map_on
  · intro x hx y hy hname
    obtain ⟨hx, hxt⟩ := mem_tracesOf.1 hx
    obtain ⟨hy, hyt⟩ := mem_tracesOf.1 hy
    exact h.traces x hx y hy (Prod.ext (hxt.trans hyt.symm) hname)
  · exact (Sorted.nodup_of_ascending s.traces.ascending).filter _

theorem Keyed.mem_traceIds (h : s.Keyed) {token traceId : String} :
    traceId ∈ (s.tracesOf token).map Trace.traceId ↔ (s.traceView token traceId).isSome := by
  unfold traceView
  rw [Option.isSome_map, Option.isSome_iff_exists, List.mem_map]
  refine exists_congr fun x => ?_
  rw [mem_tracesOf, h.findTrace_eq_some_iff, and_assoc]

theorem Sound.map_time (hs : s.Sound owner n) (token : String) :
    ((s.tracesOf token).map fun x => (⟨x.startTime, .ofNat x.spans.size⟩ : TraceTime))
      = ((s.tracesOf token).map Trace.traceId).filterMap fun id =>
        (s.traceView token id).map TraceView.time := by
  rw [List.filterMap_map, eq_comm, List.filterMap_eq_map_iff_forall_eq_some]
  intro x hx
  obtain ⟨hx, htoken⟩ := mem_tracesOf.1 hx
  have hfind := hs.keyed.findTrace_eq_some_iff.2 ⟨hx, htoken, rfl⟩
  rw [Function.comp_apply, traceView, hfind, Option.map_some, Option.map_some, TraceView.time,
    hs.size_viewOfTrace hx]
  rfl

/-- What the traces of a landscape show tells their times. -/
theorem Sound.timestamps_eq (hs : s.Sound owner n) (hs' : s'.Sound owner' m)
    (h : s'.traceView = s.traceView) (now : Int64) (token : String) :
    s'.timestamps now token = s.timestamps now token := by
  have hids : ((s'.tracesOf token).map Trace.traceId).Perm ((s.tracesOf token).map Trace.traceId) :=
    (List.perm_ext_iff_of_nodup (hs'.keyed.nodup_traceIds token) (hs.keyed.nodup_traceIds token)).2
      fun id => by rw [hs'.keyed.mem_traceIds, hs.keyed.mem_traceIds, h]
  have htimes := hids.filterMap fun id => (s'.traceView token id).map TraceView.time
  rw [← hs'.map_time, h, ← hs.map_time] at htimes
  have hsorted := mergeSort_congr htimes fun _ _ _ _ => eq_of_timeOrder
  unfold timestamps
  cases hl : s.tracesOf token with
  | nil =>
    rw [hl] at htimes
    rw [List.map_eq_nil_iff.1 htimes.eq_nil]
  | cons x rest =>
    rw [hl] at hsorted htimes
    cases hl' : s'.tracesOf token with
    | nil =>
      rw [hl'] at htimes
      cases htimes.symm.eq_nil
    | cons x' rest' =>
      rw [hl'] at hsorted
      exact hsorted

end Store

/-! ## What a span fact does to the views -/

namespace SpanFact.TakenIn

variable {owner owner' : NodeId → String} {n m : Nat} {s s' : Store} {f : SpanFact} {p : Span}
  {x : Trace}

/-- The span of the fact shows what the fact tells; it keeps its caller if the fact names none. -/
theorem spanView_told (h : f.TakenIn s p x s') (hs : s.Sound owner n) (g : s.Grows s') :
    s'.spanView f.landscapeToken f.spanId = some { f.view (s.pathsMeant f) with
      caller := (nonEmpty f.parentSpanId).or
        ((s.spanView f.landscapeToken f.spanId).bind SpanView.caller) } := by
  obtain ⟨function, hfunction, hstored, hname, hpaths⟩ := h.function
  obtain ⟨a, happ, hastored, haname⟩ := h.application
  have hcaller : (p.parentSpan.bind s'.spans.get?).map Span.spanId = (nonEmpty f.parentSpanId).or
      ((s.spanView f.landscapeToken f.spanId).bind SpanView.caller) := by
    rcases h.told.caller with ⟨hnone, hparent⟩ | ⟨q, c, hq, hc, hparent⟩
    · rw [hnone, hparent, Option.none_or]
      unfold Store.spanView
      cases hfind : s.findSpan f.landscapeToken f.spanId with
      | none => rfl
      | some old => exact hs.callerName_of_grows g (Sorted.mem_of_find?_pair hfind).1
    · obtain ⟨hmem, -, hid⟩ := Sorted.mem_of_find?_pair hc
      rw [hq, hparent, Option.bind_some, Sorted.get?_key hmem, Option.map_some, hid,
        Option.some_or]
  unfold Store.spanView at hcaller ⊢
  rw [h.told.found, Option.map_some, Option.some_inj]
  ext1
  · exact h.told.startTime
  · exact h.told.endTime
  · exact hcaller
  · show (p.application.bind _).map _ = some f.applicationName
    rw [happ, Option.bind_some, hastored, Option.map_some, haname]
  · show (p.function.bind _).map _ = (splitName f.functionFqn).getLast?.map _
    rw [hfunction, Option.bind_some, hstored, hname, Option.map_some, Option.map_some, hpaths]

/-- Other spans show what they have shown, but a caller that has been missing is blank. -/
theorem spanView_other (h : f.TakenIn s p x s') (hs : s.Sound owner n) (g : s.Grows s')
    {token spanId : String} (hne : f.spanKey ≠ (token, spanId)) :
    s'.spanView token spanId = (s.spanView token spanId).or
      (if f.NamesCaller token spanId then some .blank else none) := by
  unfold Store.spanView
  rcases h.told.others token spanId hne.symm with hsame | ⟨hnone, htoken, hparent, id, hblank⟩
  · rw [hsame]
    cases hfind : s.findSpan token spanId with
    | some q =>
      rw [Option.map_some, Option.map_some, Option.some_or,
        hs.viewOfSpan_of_grows g h.keeps (Sorted.mem_of_find?_pair hfind).1]
    | none =>
      -- a caller that is named is there
      have hcaller : ¬ f.NamesCaller token spanId := by
        rintro ⟨rfl, hparent⟩
        rcases h.told.caller with ⟨hnone, -⟩ | ⟨q, c, hq, hc, -⟩
        · rw [hparent] at hnone
          cases hnone
        · rw [hparent] at hq
          cases hq
          rw [hsame, hfind] at hc
          cases hc
      rw [if_neg hcaller]
      rfl
  · rw [hnone, hblank, if_pos ⟨htoken.symm, hparent⟩]
    rfl

/-- Traces that the fact does not name show what they have shown. -/
theorem traceView_other (h : f.TakenIn s p x s') (hs : s.Sound owner n) (g : s.Grows s')
    {token traceId : String} (hne : f.traceKey ≠ (token, traceId)) :
    s'.traceView token traceId = s.traceView token traceId := by
  unfold Store.traceView
  rw [h.otherTraces token traceId hne.symm]
  cases hfind : s.findTrace token traceId with
  | none => rfl
  | some y =>
    rw [Option.map_some, Option.map_some,
      hs.viewOfTrace_of_grows g (Sorted.mem_of_find?_pair hfind).1]

/-- The trace of the fact shows its span also, and encloses its spans. -/
theorem traceView_named (h : f.TakenIn s p x s') (hs : s.Sound owner n) (hs' : s'.Sound owner' m)
    (g : s.Grows s') :
    ∃ v, s'.traceView f.landscapeToken f.traceId = some v ∧
      v.Encloses (s'.spanView f.landscapeToken) ∧
      ∀ id, id ∈ v.spans ↔
        id = f.spanId ∨ ∃ w, s.traceView f.landscapeToken f.traceId = some w ∧ id ∈ w.spans := by
  obtain ⟨hx, htoken, -⟩ := Sorted.mem_of_find?_pair h.found
  obtain ⟨hp, hpkey⟩ := h.mem_spans
  have hpid : p.spanId = f.spanId := congrArg Prod.snd hpkey
  refine ⟨s'.viewOfTrace x, by rw [Store.traceView, h.found, Option.map_some],
    htoken ▸ h.encloses.view hs' hx, fun spanId => ?_⟩
  rw [Store.mem_viewOfTrace]
  constructor
  case mp =>
    rintro ⟨id, hid, q, hq, rfl⟩
    rcases (h.spans id).1 hid with rfl | ⟨y, hy, hmem⟩
    · rw [Sorted.get?_key hp] at hq
      cases hq
      exact .inl hpid
    · have hymem := (Sorted.mem_of_find?_pair hy).1
      refine .inr ⟨s.viewOfTrace y, by rw [Store.traceView, hy, Option.map_some], ?_⟩
      rw [← hs.viewOfTrace_of_grows g hymem]
      exact Store.mem_viewOfTrace.2 ⟨id, hmem, q, hq, rfl⟩
  case mpr =>
    rintro (rfl | ⟨w, hw, hid⟩)
    · exact ⟨p.id, (h.spans p.id).2 (.inl rfl), p, Sorted.get?_key hp, hpid⟩
    · obtain ⟨y, hy, rfl⟩ := Option.map_eq_some_iff.1 hw
      rw [← hs.viewOfTrace_of_grows g (Sorted.mem_of_find?_pair hy).1] at hid
      obtain ⟨id, hmem, q, hq, rfl⟩ := Store.mem_viewOfTrace.1 hid
      exact ⟨id, (h.spans id).2 (.inr ⟨y, hy, hmem⟩), q, hq, rfl⟩

end SpanFact.TakenIn
end Cityscape
