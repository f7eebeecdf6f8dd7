import Cityscape.Proofs.Placement

/-!
# `Spans`: what taking in a span does

When its application and function are there, a span fact adds or finds its trace, the calling span
and its own one. It changes its own span and trace only; all other ones stay as they are, but for
a placeholder that stands for a calling span which has not been told yet. The bounds of the trace
are set anew, so they enclose its spans afterwards (`SpanFact.TakenIn`).
-/

namespace Cityscape

/-- Why a span fact is refused, if it is. -/
def SpanFact.refusal (f : SpanFact) : Option Fault :=
  if f.traceId = "" ∨ f.spanId = "" then some .emptySpanKey
  else if splitName f.functionFqn = [] then some .emptyFunctionName
  else none

theorem SpanFact.refusal_eq_none_iff {f : SpanFact} : f.refusal = none ↔
    ¬(f.traceId = "" ∨ f.spanId = "") ∧ splitName f.functionFqn ≠ [] := by
  unfold refusal
  by_cases hkeys : f.traceId = "" ∨ f.spanId = ""
  · simp only [hkeys, if_true, not_true_eq_false, false_and, reduceCtorEq]
  · simp only [hkeys, if_false, not_false_eq_true, true_and]
    by_cases hname : splitName f.functionFqn = []
    · simp only [hname, if_true, reduceCtorEq, not_true_eq_false, ne_eq]
    · simp only [hname, if_false, not_false_eq_true, ne_eq]

/-- A span of which nothing is known but its key. -/
def Span.blank (id : NodeId) (token spanId : String) : Span :=
  { id, token, spanId, startTime := 0, endTime := 0 }

/-- A span with what its fact tells; it keeps its caller if no other one is named. -/
def Span.tell (p : Span) (f : SpanFact) (caller : Option NodeId) (function application : NodeId) :
    Span :=
  { p with
    startTime := f.startTime
    endTime := f.endTime
    parentSpan := caller.or p.parentSpan
    function := some function
    application := some application }

/-- A trace with one more span and other bounds. -/
def Trace.join (x : Trace) (span : NodeId) (startTime endTime : Int64) : Trace :=
  { x with spans := x.spans.insert span, startTime, endTime }

/-- The span comes in first, and then the bounds are set. -/
theorem Trace.insert_join (x : Trace) (traces : Sorted Trace.id) (span : NodeId)
    (startTime endTime : Int64) :
    (traces.insert { x with spans := x.spans.insert span }).insert (x.join span startTime endTime)
      = traces.insert (x.join span startTime endTime) :=
  Sorted.insert_insert rfl

namespace Store

variable {s s' s'' : Store}

/-- The stores differ in traces and spans only. -/
def SameBesideRecords (s s' : Store) : Prop :=
  { s' with
    nextId := s.nextId
    traces := s.traces
    spans := s.spans } = s

/-- What reads neither traces nor spans reads the same in both stores. -/
theorem SameBesideRecords.congr {α : Type} (h : s.SameBesideRecords s') (read : Store → α) :
    read { s' with
      nextId := s.nextId
      traces := s.traces
      spans := s.spans } = read s := congrArg read h

theorem SameBesideRecords.rfl : s.SameBesideRecords s := .refl s

theorem SameBesideRecords.trans (h : s.SameBesideRecords s') (h' : s'.SameBesideRecords s'') :
    s.SameBesideRecords s'' := by
  unfold SameBesideRecords at h h' ⊢
  rw [← h'] at h
  exact h

theorem findTrace_congr (h : s'.traces = s.traces) : s'.findTrace = s.findTrace := by
  unfold findTrace
  rw [h]

theorem findSpan_congr (h : s'.spans = s.spans) : s'.findSpan = s.findSpan := by
  unfold findSpan
  rw [h]

theorem Keyed.findTrace_eq_some_iff (h : s.Keyed) {token traceId : String} {x : Trace} :
    s.findTrace token traceId = some x ↔ x ∈ s.traces ∧ x.token = token ∧ x.traceId = traceId :=
  h.traces.find?_eq_some_iff

theorem Keyed.findSpan_eq_some_iff (h : s.Keyed) {token spanId : String} {p : Span} :
    s.findSpan token spanId = some p ↔ p ∈ s.spans ∧ p.token = token ∧ p.spanId = spanId :=
  h.spans.find?_eq_some_iff

/-! ## The bounds of a trace -/

/-- The bounds of a trace are the earliest start and the latest end of its spans. -/
structure Encloses (s : Store) (x : Trace) : Prop where
  bounds : ∀ id ∈ x.spans, ∀ p, s.spans.get? id = some p →
    x.startTime ≤ p.startTime ∧ p.endTime ≤ x.endTime
  earliest : ∃ id ∈ x.spans, ∃ p, s.spans.get? id = some p ∧ p.startTime = x.startTime
  latest : ∃ id ∈ x.spans, ∃ p, s.spans.get? id = some p ∧ p.endTime = x.endTime

/-- Picking the lesser of two times again and again ends at the time of one of the spans, and at the
least one. -/
theorem foldl_pick_time {le : Int64 → Int64 → Prop} {pick : Int64 → Int64 → Int64}
    (hrefl : ∀ a, le a a) (htrans : ∀ a b c, le a b → le b c → le a c)
    (hpick : ∀ a b, (pick a b = a ∨ pick a b = b) ∧ le (pick a b) a ∧ le (pick a b) b)
    (time : Span → Int64) (p : Span) (l : List Span) :
    (∃ q ∈ p :: l, time q = l.foldl (fun t q => pick t (time q)) (time p)) ∧
      ∀ q ∈ p :: l, le (l.foldl (fun t q => pick t (time q)) (time p)) (time q) := by
  rw [← List.foldl_map]
  have hmem := mem_of_foldl_pick (fun a b => (hpick a b).1) (l.map time) (time p)
  have hleast := foldl_pick_least hrefl htrans (fun a b => (hpick a b).2) (l.map time) (time p)
  rw [← List.map_cons] at hmem hleast
  exact ⟨List.mem_map.1 hmem, fun q hq => hleast _ (List.mem_map_of_mem hq)⟩

theorem min_least (a b : Int64) : (min a b = a ∨ min a b = b) ∧ min a b ≤ a ∧ min a b ≤ b := by
  show ((if a ≤ b then a else b) = a ∨ (if a ≤ b then a else b) = b) ∧
    (if a ≤ b then a else b) ≤ a ∧ (if a ≤ b then a else b) ≤ b
  split
  · rename_i h
    exact ⟨.inl rfl, Int64.le_refl a, h⟩
  · rename_i h
    exact ⟨.inr rfl, (Int64.le_total a b).resolve_left h, Int64.le_refl b⟩

theorem max_greatest (a b : Int64) : (max a b = a ∨ max a b = b) ∧ a ≤ max a b ∧ b ≤ max a b := by
  show ((if a ≤ b then b else a) = a ∨ (if a ≤ b then b else a) = b) ∧
    a ≤ (if a ≤ b then b else a) ∧ b ≤ (if a ≤ b then b else a)
  split
  · rename_i h
    exact ⟨.inr rfl, h, Int64.le_refl b⟩
  · rename_i h
    exact ⟨.inl rfl, Int64.le_refl a, (Int64.le_total a b).resolve_left h⟩

/-- Spans that exist have bounds, and a trace that gets them encloses its spans. -/
theorem boundsOf_spec {spans : SortedSet NodeId} {id : NodeId} {p : Span} (hid : id ∈ spans)
    (hp : s.spans.get? id = some p) :
    ∃ start stop, s.boundsOf spans = some (start, stop) ∧
      ∀ x : Trace, x.spans = spans → x.startTime = start → x.endTime = stop → s.Encloses x := by
  have hmem : ∀ q, q ∈ spans.toList.filterMap s.spans.get? ↔
      ∃ i ∈ spans, s.spans.get? i = some q := fun q => List.mem_filterMap
  unfold boundsOf
  cases hlist : spans.toList.filterMap s.spans.get? with
  | nil => exact absurd ((hmem p).2 ⟨id, hid, hp⟩) (hlist ▸ List.not_mem_nil)
  | cons r l =>
    rw [hlist] at hmem
    obtain ⟨⟨first, hfirst, heq⟩, hstart⟩ := foldl_pick_time Int64.le_refl
      (fun _ _ _ => Int64.le_trans) min_least Span.startTime r l
    obtain ⟨⟨final, hfinal, heq'⟩, hstop⟩ := @foldl_pick_time (fun a b => b ≤ a) max
      Int64.le_refl (fun _ _ _ h h' => Int64.le_trans h' h) max_greatest Span.endTime r l
    refine ⟨_, _, rfl, ?_⟩
    rintro x rfl hxstart hxstop
    constructor
    case bounds =>
      intro i hi q hq
      have hq := (hmem q).2 ⟨i, hi, hq⟩
      exact ⟨hxstart ▸ hstart q hq, hxstop ▸ hstop q hq⟩
    case earliest =>
      obtain ⟨i, hi, hget⟩ := (hmem first).1 hfirst
      exact ⟨i, hi, first, hget, heq.trans hxstart.symm⟩
    case latest =>
      obtain ⟨i, hi, hget⟩ := (hmem final).1 hfinal
      exact ⟨i, hi, final, hget, heq'.trans hxstop.symm⟩

/-- A trace has but one pair of bounds that enclose its spans. -/
theorem Encloses.boundsOf {x : Trace} (h : s.Encloses x) :
    s.boundsOf x.spans = some (x.startTime, x.endTime) := by
  obtain ⟨i, hi, p, hp, hstart⟩ := h.earliest
  obtain ⟨j, hj, q, hq, hstop⟩ := h.latest
  obtain ⟨start, stop, hbounds, hencloses⟩ := s.boundsOf_spec hi hp
  obtain ⟨hwithin, ⟨i', hi', p', hp', hstart'⟩, j', hj', q', hq', hstop'⟩ :=
    hencloses { x with startTime := start, endTime := stop } rfl rfl rfl
  have hstartLe : start ≤ x.startTime := hstart ▸ (hwithin i hi p hp).1
  have hstopLe : x.endTime ≤ stop := hstop ▸ (hwithin j hj q hq).2
  have hstart' : p'.startTime = start := hstart'
  have hstop' : q'.endTime = stop := hstop'
  have hstartGe : x.startTime ≤ start := hstart' ▸ (h.bounds i' hi' p' hp').1
  have hstopGe : stop ≤ x.endTime := hstop' ▸ (h.bounds j' hj' q' hq').2
  rw [hbounds, Int64.le_antisymm hstartLe hstartGe, Int64.le_antisymm hstopGe hstopLe]

/-- Setting the bounds of a trace with spans makes it enclose them. -/
theorem refreshBounds_spec {token traceId : String} {x : Trace}
    (hfind : s.findTrace token traceId = some x) {id : NodeId} (hid : id ∈ x.spans) {p : Span}
    (hp : s.spans.get? id = some p) :
    ∃ start stop, s.refreshBounds token traceId
        = { s with traces := s.traces.insert { x with startTime := start, endTime := stop } } ∧
      s.Encloses { x with startTime := start, endTime := stop } := by
  obtain ⟨hx, -⟩ := Sorted.mem_of_find?_pair hfind
  obtain ⟨start, stop, hbounds, hencloses⟩ := s.boundsOf_spec hid hp
  refine ⟨start, stop, ?_, hencloses _ rfl rfl rfl⟩
  unfold refreshBounds
  rw [hfind]
  simp only [hbounds]
  by_cases hsame : (start, stop) = (x.startTime, x.endTime)
  · rw [if_pos hsame]
    cases hsame
    rw [Sorted.insert_eq_self hx]
  · rw [if_neg hsame]
    -- the trace has just been read, so saving it takes no spans away
    have hspans : x.spans.union x.spans = x.spans := SortedSet.union_eq_left fun _ h => h
    unfold saveTrace
    rw [show s.traces.get? x.id = some x from Sorted.get?_key hx]
    simp only [hspans]

/-! ## Naming a trace or a span -/

/-- The trace is found under its key; a new one has no spans. All else is as before. -/
structure NamedTrace (s : Store) (token traceId : String) (x : Trace) (s' : Store) : Prop where
  beside : s.SameBesideRecords s'
  spans : s'.spans = s.spans
  found : s'.findTrace token traceId = some x
  old_or_new : s.findTrace token traceId = some x ∨
    s.findTrace token traceId = none ∧ x.spans = ∅
  others : ∀ token' id, (token', id) ≠ (token, traceId) →
    s'.findTrace token' id = s.findTrace token' id

/-- The span is found under its key; nothing is known of a new one. All else is as before. -/
structure NamedSpan (s : Store) (token spanId : String) (p : Span) (s' : Store) : Prop where
  beside : s.SameBesideRecords s'
  traces : s'.traces = s.traces
  found : s'.findSpan token spanId = some p
  old_or_new : s.findSpan token spanId = some p ∨
    s.findSpan token spanId = none ∧ p = .blank p.id token spanId
  others : ∀ token' id, (token', id) ≠ (token, spanId) →
    s'.findSpan token' id = s.findSpan token' id

/-- A span has come into a trace, which encloses its spans. All else is as before. -/
structure JoinedTrace (s : Store) (trace : Trace) (span : NodeId) (x : Trace) (s' : Store) :
    Prop where
  beside : s.SameBesideRecords s'
  stored : s'.spans = s.spans
  found : s'.findTrace trace.token trace.traceId = some x
  spans : x.spans = trace.spans.insert span
  encloses : s'.Encloses x
  others : ∀ token' id, (token', id) ≠ (trace.token, trace.traceId) →
    s'.findTrace token' id = s.findTrace token' id

/-- The calling span is found under its key, if one is named. -/
def NamedCaller (s : Store) (token : String) (key : Option String) (caller : Option NodeId)
    (s' : Store) : Prop :=
  key = none ∧ caller = none ∧ s' = s ∨
    ∃ spanId p, key = some spanId ∧ caller = some p.id ∧ s.NamedSpan token spanId p s'

/-- Setting the bounds of a trace that a span has come into. -/
theorem refreshBounds_linked (hs : s.Keyed) {x : Trace} (hx : x ∈ s.traces) {p : Span}
    (hp : p ∈ s.spans) :
    ∃ start stop, Store.refreshBounds
        { s with traces := s.traces.insert { x with spans := x.spans.insert p.id } }
        x.token x.traceId
        = { s with traces := s.traces.insert (x.join p.id start stop) } ∧
      s.JoinedTrace x p.id (x.join p.id start stop)
        { s with traces := s.traces.insert (x.join p.id start stop) } := by
  have hlinked := hs.traces.find?_replace (y := { x with spans := x.spans.insert p.id }) hx rfl rfl
  have hmem : p.id ∈ x.spans.insert p.id := SortedSet.mem_insert.2 (.inl rfl)
  have hfind : Store.findTrace
      { s with traces := s.traces.insert { x with spans := x.spans.insert p.id } }
      x.token x.traceId = some { x with spans := x.spans.insert p.id } :=
    (hlinked x.token x.traceId).trans (if_pos rfl)
  obtain ⟨start, stop, heq, hencloses⟩ := refreshBounds_spec hfind hmem (Sorted.get?_key hp)
  have hjoined := hs.traces.find?_replace (y := x.join p.id start stop) hx rfl rfl
  refine ⟨start, stop, ?_, ?_⟩
  · exact heq.trans (congrArg (fun traces => { s with traces })
      (x.insert_join s.traces p.id start stop))
  · exact
      { beside := rfl
        stored := rfl
        found := (hjoined x.token x.traceId).trans (if_pos rfl)
        spans := rfl
        encloses := { hencloses with }
        others := fun token id hne => (hjoined token id).trans (if_neg hne.symm) }

end Store

/-! ## What a span fact leads to -/

/-- The span of a fact has the times and the caller that the fact tells of it. The other spans are
as before, but a caller that has been missing is there. -/
structure SpanFact.TellsSpan (f : SpanFact) (s : Store) (p : Span) (s' : Store) : Prop where
  found : s'.findSpan f.landscapeToken f.spanId = some p
  startTime : p.startTime = f.startTime
  endTime : p.endTime = f.endTime
  /-- A span keeps its caller if its fact names none. -/
  caller : nonEmpty f.parentSpanId = none ∧
      p.parentSpan = (s.findSpan f.landscapeToken f.spanId).bind Span.parentSpan ∨
    ∃ q c, nonEmpty f.parentSpanId = some q ∧ s'.findSpan f.landscapeToken q = some c ∧
      p.parentSpan = some c.id
  others : ∀ token id, (token, id) ≠ (f.landscapeToken, f.spanId) →
    s'.findSpan token id = s.findSpan token id ∨
      s.findSpan token id = none ∧ token = f.landscapeToken ∧ nonEmpty f.parentSpanId = some id ∧
        ∃ n, s'.findSpan token id = some (.blank n token id)

/-- A span fact has been accepted. -/
structure SpanFact.TakenIn (f : SpanFact) (s : Store) (p : Span) (x : Trace) (s' : Store) :
    Prop where
  accepted : f.refusal = none
  keeps : s.KeepsPlaces s'
  told : f.TellsSpan s p s'
  /-- The function of the span is in the files in which the fact has meant it to be. -/
  function : ∃ g, p.function = some g.id ∧ s'.functions.get? g.id = some g ∧
    (splitName f.functionFqn).getLast? = some g.name ∧ s'.pathsOf g.id = s.pathsMeant f
  application : ∃ a, p.application = some a.id ∧ s'.applications.get? a.id = some a ∧
    a.name = f.applicationName
  found : s'.findTrace f.landscapeToken f.traceId = some x
  encloses : s'.Encloses x
  spans : ∀ id, id ∈ x.spans ↔
    id = p.id ∨ ∃ y, s.findTrace f.landscapeToken f.traceId = some y ∧ id ∈ y.spans
  otherTraces : ∀ token id, (token, id) ≠ (f.landscapeToken, f.traceId) →
    s'.findTrace token id = s.findTrace token id

/-- Only the spans of the stores count. -/
theorem SpanFact.TellsSpan.congr {f : SpanFact} {p : Span} {s s₁ s₂ s₃ : Store}
    (h : f.TellsSpan s₁ p s₂) (h₁ : s₁.spans = s.spans) (h₂ : s₃.spans = s₂.spans) :
    f.TellsSpan s p s₃ := by
  have hfind₁ := Store.findSpan_congr h₁
  have hfind₂ := Store.findSpan_congr h₂
  exact
    { h with
      found := hfind₂ ▸ h.found
      caller := hfind₁ ▸ hfind₂ ▸ h.caller
      others := hfind₁ ▸ hfind₂ ▸ h.others }

/-- The span has come into its trace, and the bounds of the trace have been set. -/
theorem Store.NamedTrace.mem_spans_iff {s s' : Store} {token traceId : String} {x : Trace}
    (h : s.NamedTrace token traceId x s') (p id : NodeId) : id ∈ x.spans.insert p ↔
      id = p ∨ ∃ y, s.findTrace token traceId = some y ∧ id ∈ y.spans := by
  rw [SortedSet.mem_insert]
  refine or_congr_right ?_
  rcases h.old_or_new with hold | ⟨hnone, hempty⟩
  · simp [hold]
  · simp [hnone, hempty]

namespace Store.NamedCaller

variable {s s₁ s₂ : Store} {token : String} {key : Option String} {caller : Option NodeId}

theorem beside (h : s.NamedCaller token key caller s₁) : s.SameBesideRecords s₁ := by
  rcases h with ⟨-, -, rfl⟩ | ⟨_, _, -, -, h⟩
  · exact .rfl
  · exact h.beside

theorem traces (h : s.NamedCaller token key caller s₁) : s₁.traces = s.traces := by
  rcases h with ⟨-, -, rfl⟩ | ⟨_, _, -, -, h⟩
  · rfl
  · exact h.traces

/-- A calling span is stored. -/
theorem exists_stored {id : NodeId} (h : s.NamedCaller token key (some id) s₁) :
    ∃ c, s₁.spans.get? id = some c ∧ c.token = token := by
  rcases h with ⟨-, hnone, -⟩ | ⟨_, c, -, hc, h⟩
  · cases hnone
  · obtain ⟨hmem, htoken, -⟩ := Sorted.mem_of_find?_pair h.found
    cases hc
    exact ⟨c, Sorted.get?_key hmem, htoken⟩

/-- Spans other than the caller are as before. -/
theorem old_or_blank (h : s.NamedCaller token key caller s₁) (token' id : String) :
    s₁.findSpan token' id = s.findSpan token' id ∨
      s.findSpan token' id = none ∧ token' = token ∧ key = some id ∧
        ∃ n, s₁.findSpan token' id = some (.blank n token' id) := by
  rcases h with ⟨-, -, rfl⟩ | ⟨q, c, rfl, -, h⟩
  · exact .inl rfl
  · by_cases hkey : (token', id) = (token, q)
    · cases hkey
      rcases h.old_or_new with hold | ⟨hnone, hc⟩
      · exact .inl (h.found.trans hold.symm)
      · exact .inr ⟨hnone, rfl, rfl, c.id, by rw [h.found, ← hc]⟩
    · exact .inl (h.others token' id hkey)

/-- The caller and the span have been named, and the span is saved with what its fact tells. -/
theorem tellsSpan {f : SpanFact} {function application : NodeId} {p : Span}
    {owner : NodeId → String} {n : Nat}
    (h : s.NamedCaller f.landscapeToken (nonEmpty f.parentSpanId) caller s₁)
    (hp : s₁.NamedSpan f.landscapeToken f.spanId p s₂) (hs : s₂.Sound owner n) :
    f.TellsSpan s (p.tell f caller function application)
      { s₂ with spans := s₂.spans.insert (p.tell f caller function application) } := by
  obtain ⟨hmem, htoken, hid⟩ := Sorted.mem_of_find?_pair hp.found
  have hfind := hs.keyed.spans.find?_replace (y := p.tell f caller function application)
    hmem rfl rfl
  have hkey : (f.landscapeToken, f.spanId) = (p.token, p.spanId) := by rw [htoken, hid]
  have hfound := (hfind f.landscapeToken f.spanId).trans (if_pos hkey.symm)
  have hother : ∀ token id, (token, id) ≠ (f.landscapeToken, f.spanId) →
      { s₂ with spans := s₂.spans.insert (p.tell f caller function application) }.findSpan token id
        = s₁.findSpan token id := fun token id hne =>
    ((hfind token id).trans (if_neg fun he => hne (hkey.trans he).symm)).trans
      (hp.others token id hne)
  refine
    { found := hfound
      startTime := rfl
      endTime := rfl
      caller := ?_
      others := fun token id hne => hother token id hne ▸ h.old_or_blank token id }
  rcases h with ⟨hnone, rfl, rfl⟩ | ⟨q, c, hq, rfl, hc⟩
  · refine .inl ⟨hnone, ?_⟩
    rcases hp.old_or_new with hold | ⟨hnew, hblank⟩
    · rw [hold]
      rfl
    · rw [hnew, hblank]
      rfl
  · by_cases hself : (f.landscapeToken, q) = (f.landscapeToken, f.spanId)
    · -- the span calls itself, so it is the one that has been named before
      cases hself
      refine .inr ⟨f.spanId, _, hq, hfound, ?_⟩
      rcases hp.old_or_new with hold | ⟨hnew, -⟩
      · rw [Option.some.inj (hc.found.symm.trans hold)]
        rfl
      · rw [hc.found] at hnew
        cases hnew
    · exact .inr ⟨q, c, hq, (hother _ q hself).trans hc.found, rfl⟩

end Store.NamedCaller

/-- The parts of which taking in a span fact consists, and the stores between them: the application
is found, the function is placed, the trace is named, the span is told, and comes into the trace. -/
structure SpanFact.Course (f : SpanFact) (owner : NodeId → String) (s s' : Store) where
  located : Store
  placed : Store
  named : Store
  told : Store
  application : Application
  function : FunctionNode
  trace : Trace
  caller : Option NodeId
  /-- The span as it has been before. -/
  span : Span
  joined : Trace
  accepted : f.refusal = none
  applicationFound : located.findApplication f.landscapeToken f.applicationName = some application
  keepsLocated : s.KeepsPlaces located
  contentsLocated : s.KeepsContents located
  tracesLocated : located.traces = s.traces
  spansLocated : located.spans = s.spans
  functionPlaced : Placed owner located f function placed
  functionFound : placed.FoundBy f function
  functionGiven : located.GivesFunction f function placed
  traceNamed : placed.NamedTrace f.landscapeToken f.traceId trace named
  besideTold : named.SameBesideRecords told
  tracesTold : told.traces = named.traces
  spanTold : f.TellsSpan named (span.tell f caller function.id application.id) told
  spanJoined : told.JoinedTrace trace span.id joined s'
  growsLocated : s.Grows located
  growsPlaced : located.Grows placed
  growsAfter : placed.Grows s'
  soundPlaced : ∃ n, placed.Sound owner n
  soundAfter : ∃ n, s'.Sound owner n

namespace SpanFact.Course

variable {f : SpanFact} {owner : NodeId → String} {s s' : Store}

/-- The span with what the fact tells of it. -/
def result (c : f.Course owner s s') : Span :=
  c.span.tell f c.caller c.function.id c.application.id

/-- Telling the span and setting the bounds changes spans and traces only. -/
theorem besidePlaced (c : f.Course owner s s') : c.placed.SameBesideRecords s' :=
  (c.traceNamed.beside.trans c.besideTold).trans c.spanJoined.beside

theorem spansPlaced (c : f.Course owner s s') : c.placed.spans = s.spans :=
  c.functionPlaced.records.spans.trans c.spansLocated

theorem tellsSpan (c : f.Course owner s s') : f.TellsSpan s c.result s' :=
  c.spanTold.congr (c.traceNamed.spans.trans c.spansPlaced) c.spanJoined.stored

/-- The file that the fact means has the function of the fact. -/
theorem gives (c : f.Course owner s s') : s.GivesFunction f c.function s' := by
  have hgiven := c.functionGiven.after c.contentsLocated
  have hsame : s'.functionNamed = c.placed.functionNamed :=
    c.besidePlaced.congr Store.functionNamed
  exact { hgiven with named := fun y hy name => by rw [hsame]; exact hgiven.named y hy name }

/-- All in all, the fact has been taken in. -/
theorem takenIn (c : f.Course owner s s') : f.TakenIn s c.result c.joined s' := by
  obtain ⟨n, hs₂⟩ := c.soundPlaced
  obtain ⟨m, hs₅⟩ := c.soundAfter
  obtain ⟨hamem, -, hname⟩ := Sorted.mem_of_find?_pair c.applicationFound
  obtain ⟨-, htoken, htraceId⟩ := Sorted.mem_of_find?_pair c.traceNamed.found
  have hkeeps : c.placed.KeepsPlaces s' := hs₂.keepsPlaces hs₅ c.growsAfter
    (c.besidePlaced.congr Store.files) (c.besidePlaced.congr Store.commits)
    (c.besidePlaced.congr Store.applications)
  have hfind : c.placed.findTrace = s.findTrace :=
    Store.findTrace_congr (c.functionPlaced.records.traces.trans c.tracesLocated)
  have hkey : (c.trace.token, c.trace.traceId) = (f.landscapeToken, f.traceId) := by
    rw [htoken, htraceId]
  obtain ⟨_, hfunction, rfl⟩ := c.growsAfter.functions _ _ c.functionPlaced.stored
  obtain ⟨a₅, ha₅, hak₅⟩ :=
    (c.growsPlaced.trans c.growsAfter).applications _ _ (Sorted.get?_key hamem)
  constructor
  case accepted => exact c.accepted
  case keeps =>
    exact (c.keepsLocated.trans c.growsLocated c.functionPlaced.keeps).trans
      (c.growsLocated.trans c.growsPlaced) hkeeps
  case told => exact c.tellsSpan
  case function =>
    refine ⟨c.function, rfl, hfunction, c.functionPlaced.name, ?_⟩
    rw [hkeeps.pathsOf c.function (Sorted.mem_of_get? c.functionPlaced.stored),
      c.functionPlaced.paths, c.keepsLocated.pathsMeant]
  case application =>
    exact ⟨a₅, congrArg some hak₅.id.symm, hak₅.id ▸ ha₅, hak₅.name.trans hname⟩
  case found =>
    rw [← htoken, ← htraceId]
    exact c.spanJoined.found
  case encloses => exact c.spanJoined.encloses
  case spans =>
    intro id
    rw [c.spanJoined.spans, c.traceNamed.mem_spans_iff, hfind]
    rfl
  case otherTraces =>
    intro token id hne
    rw [c.spanJoined.others token id (hkey ▸ hne), Store.findTrace_congr c.tracesTold,
      c.traceNamed.others token id hne, hfind]

end SpanFact.Course

namespace Edit

open Store

variable {owner : NodeId → String} {t : String} {n : Nat} {s : Store}

theorem runs_spanNamed (h : Ready owner t n s) {spanId : String} :
    Runs owner t .span (spanNamed t spanId) n s (fun p s' => s.NamedSpan t spanId p s')
      fun _ => False := by
  refine Runs.of_allocate fun hn => ?_
  let p : Span := .blank ⟨s.nextId⟩ t spanId
  cases hfind : s.findSpan t spanId with
  | some q =>
    have hmerge : Store.mergeSpan { s with nextId := s.nextId + 1 } p
        = (q, { s with nextId := s.nextId + 1 }) := Store.mergeSpan_of_some hfind
    have heq := allocate_step_apply (fun id s => s.mergeSpan (.blank id t spanId)) s
    rw [show Store.mergeSpan _ _ = _ from hmerge] at heq
    exact Runs.of_step h heq (fun _ => .skip)
      fun _ _ => ⟨rfl, rfl, hfind, .inl hfind, fun _ _ _ => rfl⟩
  | none =>
    have hmerge : Store.mergeSpan { s with nextId := s.nextId + 1 } p
        = (p, { s with nextId := s.nextId + 1, spans := s.spans.insert p }) :=
      Store.mergeSpan_of_none hfind
    have heq := allocate_step_apply (fun id s => s.mergeSpan (.blank id t spanId)) s
    rw [show Store.mergeSpan _ _ = _ from hmerge] at heq
    have hfresh := Sorted.find?_pair_eq_none_iff.1 hfind
    have hinsert := h.sound.keyed.spans.find?_insert (y := p) fun x hx =>
      iff_of_false (h.sound.numbered.ne_next hn (h.sound.numbered.spans x hx)) (hfresh x hx)
    refine Runs.of_step h heq (fun hn => .newSpan rfl rfl hfresh
      { own := h.own_next hn
        caller := nofun
        function := nofun
        application := nofun }) fun _ _ => ?_
    exact ⟨rfl, rfl, (hinsert t spanId).trans (if_pos rfl), .inr ⟨hfind, rfl⟩,
      fun token id hne => (hinsert token id).trans (if_neg hne.symm)⟩

theorem runs_callerOf (h : Ready owner t n s) {parentSpanId : Option String} :
    Runs owner t .span (callerOf t parentSpanId) n s
      (fun o s' => s.NamedCaller t (nonEmpty parentSpanId) o s') fun _ => False := by
  unfold callerOf
  cases nonEmpty parentSpanId with
  | none => exact Runs.pure (.inl ⟨rfl, rfl, rfl⟩)
  | some id =>
    refine Runs.bind h (runs_spanNamed h) ?_
    intro p n₁ s₁ _ _ hp
    exact Runs.pure (.inr ⟨id, p, rfl, rfl, hp⟩)

/-- The trace of a span is there afterwards, whether it is new or not. -/
theorem runs_traceNamed {α : Type} {e : Trace → Edit α} {P : α → Store → Prop}
    {E : Fault → Prop} (h : Ready owner t n s) {traceId : String} {startTime endTime : Int64}
    (he : ∀ x n' s', Ready owner t n' s' → s.Grows s' → s.NamedTrace t traceId x s' →
      Runs owner t .span (e x) n' s' P E) :
    Runs owner t .span
      (do
        let id ← allocate
        let x ← step fun s => s.mergeTrace { id, token := t, traceId, startTime, endTime }
        e x) n s P E := by
  refine Runs.of_allocate fun hn => ?_
  cases hfind : s.findTrace t traceId with
  | some x =>
    exact Runs.allocate_step h (Store.mergeTrace_of_some hfind) (fun _ => .skip)
      fun h' g => he x _ _ h' g ⟨rfl, rfl, hfind, .inl hfind, fun _ _ _ => rfl⟩
  | none =>
    have hfresh := Sorted.find?_pair_eq_none_iff.1 hfind
    have hinsert := h.sound.keyed.traces.find?_insert
      (y := { id := ⟨s.nextId⟩, token := t, traceId, startTime, endTime }) fun x hx =>
      iff_of_false (h.sound.numbered.ne_next hn (h.sound.numbered.traces x hx)) (hfresh x hx)
    exact Runs.allocate_step h (Store.mergeTrace_of_none hfind)
      (fun hn => .newTrace rfl rfl hfresh
        { own := h.own_next hn
          spans := fun x hx => absurd hx (Sorted.not_mem_empty x) })
      fun h' g => he _ _ _ h' g ⟨rfl, rfl, (hinsert t traceId).trans (if_pos rfl),
        .inr ⟨hfind, rfl⟩, fun token id hne => (hinsert token id).trans (if_neg hne.symm)⟩

/-! ## Telling the span -/

/-- The span of a fact is there, with what the fact tells of it. -/
theorem runs_tellSpan {α : Type} {e : Option NodeId → Span → Edit α} {P : α → Store → Prop}
    {E : Fault → Prop} {f : SpanFact} (h : Ready owner f.landscapeToken n s)
    {function application : NodeId}
    (hfunction : s.functions.HasOwn owner f.landscapeToken function)
    (happ : ∃ a, s.applications.get? application = some a ∧ a.token = f.landscapeToken)
    (he : ∀ caller p n' s', Ready owner f.landscapeToken n' s' → s.Grows s' →
      s.SameBesideRecords s' → s'.traces = s.traces →
      f.TellsSpan s (p.tell f caller function application) s' →
      Runs owner f.landscapeToken .span (e caller p) n' s' P E) :
    Runs owner f.landscapeToken .span
      (do
        let caller ← callerOf f.landscapeToken f.parentSpanId
        let p ← spanNamed f.landscapeToken f.spanId
        change fun s => s.saveSpan (p.tell f caller function application)
        e caller p) n s P E := by
  refine Runs.bind h (runs_callerOf h).never ?_
  intro caller n₁ s₁ h₁ g₁ hcaller
  refine Runs.bind h₁ (runs_spanNamed h₁).never ?_
  intro p n₂ s₂ h₂ g₂ hp
  obtain ⟨hpmem, hptoken, -⟩ := Sorted.mem_of_find?_pair hp.found
  have fits := h₂.sound.fitting.spans p hpmem
  have g := g₁.trans g₂
  obtain ⟨⟨x, hx⟩, hxown⟩ := hfunction.of_grows g.functions
  obtain ⟨a, ha, hatoken⟩ := happ
  obtain ⟨a', ha', hak⟩ := g.applications _ _ ha
  have hcaller₂ : ∀ q, caller.or p.parentSpan = some q →
      ∃ c, s₂.spans.get? q = some c ∧ c.token = p.token := by
    intro q hq
    rcases Option.or_eq_some_iff.1 hq with rfl | ⟨-, hq⟩
    · obtain ⟨c, hc, htoken⟩ := hcaller.exists_stored
      obtain ⟨c', hc', hk⟩ := g₂.spans _ _ hc
      exact ⟨c', hc', (hk.token.trans htoken).trans hptoken.symm⟩
    · exact fits.caller q hq
  have hstep : Step owner f.landscapeToken .span 0 s₂
      { s₂ with spans := s₂.spans.insert (p.tell f caller function application) } :=
    .span hpmem hptoken ⟨rfl, rfl, rfl⟩
      { own := fits.own
        caller := hcaller₂
        function := fun y hy => by
          cases hy
          exact ⟨x, hx, hxown.trans hptoken.symm⟩
        application := fun y hy => by
          cases hy
          exact ⟨a', ha', (hak.token.trans hatoken).trans hptoken.symm⟩ }
  refine Runs.bind h₂ (Runs.of_step
    (P := fun _ s' => s' = { s₂ with
      spans := s₂.spans.insert (p.tell f caller function application) })
    (E := fun _ => False) h₂ (change_apply _ _) (fun _ => hstep) fun _ _ => rfl).never ?_
  rintro _ n₃ _ h₃ g₃ rfl
  exact he caller p n₃ _ h₃ (g.trans g₃) (hcaller.beside.trans hp.beside)
    (hp.traces.trans hcaller.traces) (hcaller.tellsSpan hp h₂.sound)

/-! ## The trace -/

theorem runs_linkSpan (h : Ready owner t n s) {trace : Trace} (htrace : trace ∈ s.traces)
    (htoken : trace.token = t) {p : Span} (hp : p ∈ s.spans) (hptoken : p.token = t) :
    Runs owner t .span (mergeEdge .traceSpan trace.id p.id) n s
      (fun _ s' => s' = { s with
        traces := s.traces.insert { trace with spans := trace.spans.insert p.id } })
      fun _ => False := by
  obtain ⟨isNew, heq⟩ := mergeEdge_traceSpan (Sorted.get?_key htrace) (Sorted.get?_key hp)
  have fits := h.sound.fitting.traces trace htrace
  exact Runs.of_step h heq (fun _ => .trace htrace htoken
    { Trace.Kept.rfl with spans := fun _ hx => SortedSet.mem_insert.2 (.inr hx) }
    { fits with
      spans := SortedSet.forall_mem_insert
        ⟨p, Sorted.get?_key hp, hptoken.trans htoken.symm⟩ fits.spans }) fun _ _ => rfl

/-- The span of a fact is in its trace afterwards, whether it has been there before or not. -/
theorem runs_joinTrace {α : Type} {e : Edit α} {P : α → Store → Prop} {E : Fault → Prop}
    (h : Ready owner t n s) {trace : Trace} (htrace : trace ∈ s.traces) (htoken : trace.token = t)
    {traceId : String} (htraceId : trace.traceId = traceId) {p : Span} (hp : p ∈ s.spans)
    (hptoken : p.token = t)
    (he : ∀ x n' s', Ready owner t n' s' → s.Grows s' → s.JoinedTrace trace p.id x s' →
      Runs owner t .span e n' s' P E) :
    Runs owner t .span
      (do
        let _ ← mergeEdge .traceSpan trace.id p.id
        change fun s => s.refreshBounds t traceId
        e) n s P E := by
  subst htoken htraceId
  refine Runs.bind h (runs_linkSpan h htrace rfl hp hptoken).never ?_
  rintro - n₁ _ h₁ g₁ rfl
  obtain ⟨start, stop, heq, hjoined⟩ := Store.refreshBounds_linked h.sound.keyed htrace hp
  have hmem := Sorted.mem_insert_self s.traces { trace with spans := trace.spans.insert p.id }
  have fits := h₁.sound.fitting.traces _ hmem
  have hkept : Trace.Kept { trace with spans := trace.spans.insert p.id }
      (trace.join p.id start stop) := { Trace.Kept.rfl with }
  have hstep := Step.trace hmem rfl hkept ⟨fits.own, fits.spans⟩
  rw [Trace.insert_join] at hstep
  refine Runs.bind h₁ (Runs.of_step (P := fun _ s' => s' = { s with
    traces := s.traces.insert (trace.join p.id start stop) }) (E := fun _ => False) h₁
    ((change_apply _ _).trans (by rw [heq])) (fun _ => hstep) fun _ _ => rfl).never ?_
  rintro - n₂ _ h₂ g₂ rfl
  exact he _ n₂ _ h₂ (g₁.trans g₂) hjoined

/-- Taking in a span fact goes through all the parts, unless the fact is refused. -/
theorem runs_ingestSpan_course {f : SpanFact} (h : Ready owner f.landscapeToken n s) :
    Runs owner f.landscapeToken .span (ingestSpan f) n s
      (fun p s' => ∃ c : f.Course owner s s', c.result = p) fun x => f.refusal = some x := by
  unfold ingestSpan
  by_cases hempty : f.traceId = "" ∨ f.spanId = ""
  · rw [if_pos (by simpa [String.isEmpty_iff] using hempty)]
    exact Runs.fail (if_pos hempty)
  rw [if_neg (by simpa [String.isEmpty_iff] using hempty)]
  have hrefusal : f.refusal = _ := if_neg hempty
  refine Runs.bind h (runs_applicationNamed h).never ?_
  rintro a n₁ s₁ h₁ g₁ ⟨ha, hkeeps₁, hcontents₁, htraces₁, hspans₁⟩
  refine Runs.bind h₁ (Runs.mono (runs_placeFunction h₁ ha) (fun _ _ hP => hP)
    fun _ hx => by rw [hrefusal, if_pos hx.1, hx.2]) ?_
  rintro function n₂ s₂ h₂ g₂ ⟨hplaced, hfound, hgiven⟩
  obtain ⟨hamem, hatoken, hname⟩ := Sorted.mem_of_find?_pair ha
  refine runs_traceNamed h₂ ?_
  intro trace n₃ s₃ h₃ g₃ htrace
  obtain ⟨a₂, ha₂, hak₂⟩ := g₂.applications _ _ (Sorted.get?_key hamem)
  obtain ⟨a₃, ha₃, hak₃⟩ := g₃.applications _ _ ha₂
  refine runs_tellSpan h₃ (Sorted.HasOwn.of_grows ⟨⟨function, hplaced.stored⟩, hplaced.own⟩
    g₃.functions) ⟨a₃, ha₃, (hak₃.token.trans hak₂.token).trans hatoken⟩ ?_
  intro caller p n₄ s₄ h₄ g₄ hbeside₄ htraces₄ htold
  obtain ⟨hp, hptoken, -⟩ := Sorted.mem_of_find?_pair htold.found
  obtain ⟨hx, htoken, htraceId⟩ := Sorted.mem_of_find?_pair htrace.found
  refine runs_joinTrace h₄ (htraces₄ ▸ hx) htoken htraceId hp hptoken ?_
  intro x n₅ s₅ h₅ g₅ hjoined
  exact Runs.pure
    ⟨{  located := s₁
        placed := s₂
        named := s₃
        told := s₄
        application := a
        function := function
        trace := trace
        caller := caller
        span := p
        joined := x
        accepted := hrefusal.trans (if_neg hplaced.splitName_ne_nil)
        applicationFound := ha
        keepsLocated := hkeeps₁
        contentsLocated := hcontents₁
        tracesLocated := htraces₁
        spansLocated := hspans₁
        functionPlaced := hplaced
        functionFound := hfound
        functionGiven := hgiven
        traceNamed := htrace
        besideTold := hbeside₄
        tracesTold := htraces₄
        spanTold := htold
        spanJoined := hjoined
        growsLocated := g₁
        growsPlaced := g₂
        growsAfter := (g₃.trans g₄).trans g₅
        soundPlaced := ⟨n₂, h₂.sound⟩
        soundAfter := ⟨n₅, h₅.sound⟩ }, rfl⟩

theorem runs_ingestSpan {f : SpanFact} (h : Ready owner f.landscapeToken n s) :
    Runs owner f.landscapeToken .span (ingestSpan f) n s
      (fun p s' => ∃ x, f.TakenIn s p x s') fun x => f.refusal = some x := by
  refine (runs_ingestSpan_course h).mono ?_ fun _ hx => hx
  rintro _ s' ⟨c, rfl⟩
  exact ⟨c.joined, c.takenIn⟩

end Edit
end Cityscape
