import Cityscape.Proofs.Repetition
import Cityscape.Proofs.Telling

/-!
# `RepeatedSpans`: telling a span fact again changes nothing

When a span fact has been taken in, its application, its function, its trace and its span are those
that the fact leads to when it is told again (`SpanFact.Course.toldAlready`). For a function in a
file this is what the fact means now. For a function in no file it holds because the span that has
been told is the only one that may have begun to call another function, and that function is not
newer than those with its qualified name. A second run finds all of this, so each of its parts
leaves everything but the next id as it is (`SpanFact.Told.idle`).
-/

namespace Cityscape

/-! ## What has been told -/

/-- Everything that a span fact says is in the store. -/
structure SpanFact.Told (f : SpanFact) (s : Store) (a : Application) (g : FunctionNode) (x : Trace)
    (p : Span) : Prop where
  accepted : f.refusal = none
  application : s.findApplication f.landscapeToken f.applicationName = some a
  function : g ∈ s.functions
  inFile : f.path ≠ [] → s.functionMeant f = some g.id
  detached : f.path = [] → s.findTracedFunction f.landscapeToken f.functionFqn = some g
  trace : s.findTrace f.landscapeToken f.traceId = some x
  span : s.findSpan f.landscapeToken f.spanId = some p
  startTime : p.startTime = f.startTime
  endTime : p.endTime = f.endTime
  caller : ∀ q, nonEmpty f.parentSpanId = some q →
    ∃ c, s.findSpan f.landscapeToken q = some c ∧ p.parentSpan = some c.id
  calls : p.function = some g.id
  runsIn : p.application = some a.id
  joined : p.id ∈ x.spans
  bounds : s.boundsOf x.spans = some (x.startTime, x.endTime)

namespace SpanFact.Course

variable {owner : NodeId → String} {n : Nat} {f : SpanFact} {s s' : Store}

theorem functions (c : f.Course owner s s') : s'.functions = c.placed.functions :=
  c.besidePlaced.congr Store.functions

/-- A function in no file is still the first one of its qualified name that spans call. -/
theorem findTracedFunction (c : f.Course owner s s') (hpath : f.path = []) :
    s'.findTracedFunction f.landscapeToken f.functionFqn = some c.function := by
  obtain ⟨m, hs'⟩ := c.soundAfter
  obtain ⟨hmem, hkey⟩ := c.takenIn.mem_spans
  have hfunction : c.function ∈ s'.functions :=
    c.functions ▸ Sorted.mem_of_get? c.functionPlaced.stored
  refine Store.findTracedFunction_eq_some_iff.2 ⟨⟨hfunction, ?_,
    c.functionFound.qualified hpath⟩, fun z hz hid hfqn => ?_⟩
  · exact Store.mem_tracedFunctionIds.2 ⟨c.result, hmem, congrArg Prod.fst hkey, rfl⟩
  -- a function that a span calls is that of the span of the fact, or has been called before
  obtain ⟨p, hp, htoken, hcalls⟩ := Store.mem_tracedFunctionIds.1 hid
  by_cases hsame : p.key = f.spanKey
  · obtain rfl := hs'.keyed.spans p hp c.result hmem (hsame.trans hkey.symm)
    rw [show c.function.id = z.id from Option.some.inj hcalls]
    exact UInt64.le_refl _
  · rcases c.takenIn.old_or_blank hs'.keyed hp hsame with hold | hblank
    · rw [← c.spansPlaced] at hold
      rw [c.functions] at hz
      exact c.functionFound.first hpath z hz
        (Store.mem_tracedFunctionIds.2 ⟨p, hold, htoken, hcalls⟩) hfqn
    · rw [hblank] at hcalls
      cases hcalls

/-- A fact that has been taken in has been told. -/
theorem toldAlready (c : f.Course owner s s') :
    ∃ a, f.Told s' a c.function c.joined c.result := by
  obtain ⟨m, hs'⟩ := c.soundAfter
  have htaken := c.takenIn
  obtain ⟨hmem, hkey⟩ := htaken.mem_spans
  obtain ⟨a, happ, ha, hname⟩ := htaken.application
  obtain ⟨a', ha', htoken⟩ := (hs'.fitting.spans c.result hmem).application a.id happ
  obtain rfl := Option.some.inj (ha.symm.trans ha')
  have hatoken : a.token = f.landscapeToken := htoken.trans (congrArg Prod.fst hkey)
  refine ⟨a, {
    accepted := c.accepted
    application :=
      hs'.keyed.applications.find?_eq_some_iff.2 ⟨Sorted.mem_of_get? ha, hatoken, hname⟩
    function := c.functions ▸ Sorted.mem_of_get? c.functionPlaced.stored
    inFile := fun hpath => ?_
    detached := c.findTracedFunction
    trace := htaken.found
    span := htaken.told.found
    startTime := rfl
    endTime := rfl
    caller := fun q hq => ?_
    calls := rfl
    runsIn := happ
    joined := (htaken.spans c.result.id).2 (.inl rfl)
    bounds := htaken.encloses.boundsOf }⟩
  · -- what the fact means does not depend on spans
    have hsame : s'.functionMeant f = c.placed.functionMeant f :=
      c.besidePlaced.congr fun s => s.functionMeant f
    rw [hsame]
    exact c.functionFound.inFile hpath
  · rcases htaken.told.caller with ⟨hnone, -⟩ | ⟨q', x, hq', hfound, hcaller⟩
    · rw [hq] at hnone
      cases hnone
    · obtain rfl := Option.some.inj (hq.symm.trans hq')
      exact ⟨x, hfound, hcaller⟩

end SpanFact.Course

/-! ## Edits that find what is there -/

namespace Edit.Idle

variable {owner : NodeId → String} {n : Nat} {s : Store}

theorem applicationNamed {token name : String} {a : Application}
    (h : s.findApplication token name = some a) : Idle (applicationNamed token name) s a := by
  unfold Edit.applicationNamed
  refine store_bind fun id => ?_
  rw [show Store.findApplication { s with nextId := id } _ _ = some a from h]
  exact pure

/-- An id is handed out, the trace is found, and the edit goes on. -/
theorem traceNamed {α : Type} {e : Trace → Edit α} {b : α} {token traceId : String}
    {startTime endTime : Int64} {x : Trace} (h : s.findTrace token traceId = some x)
    (he : Idle (e x) s b) :
    Idle
      (do
        let id ← allocate
        let x ← Edit.step fun s => s.mergeTrace { id, token, traceId, startTime, endTime }
        e x) s b :=
  allocate_bind fun _ => bind (step fun _ => Store.mergeTrace_of_some h) he

/-- An id is handed out, and the span is found. -/
theorem spanNamed {token spanId : String} {p : Span} (h : s.findSpan token spanId = some p) :
    Idle (spanNamed token spanId) s p :=
  allocate_bind fun _ => step fun _ => Store.mergeSpan_of_some h

theorem callerOf {token : String} {parentSpanId : Option String} {caller : Option NodeId}
    (hnone : nonEmpty parentSpanId = none → caller = none)
    (hsome : ∀ q, nonEmpty parentSpanId = some q →
      ∃ c, s.findSpan token q = some c ∧ caller = some c.id) :
    Idle (callerOf token parentSpanId) s caller := by
  unfold Edit.callerOf
  cases hq : nonEmpty parentSpanId with
  | none =>
    rw [hnone hq]
    exact pure
  | some q =>
    obtain ⟨c, hc, rfl⟩ := hsome q hq
    exact bind (spanNamed hc) pure

/-- A file that is at its place is found there. -/
theorem tracedFile (hs : s.Sound owner n) {root : Directory} (hroot : root ∈ s.directories)
    {path : List String} (hne : path ≠ []) {token : String} {hash : Option String}
    {file : FileRevision} (hfile : file ∈ s.files)
    (h : s.tracedFileAt token root.id path hash = some file.id) :
    Idle (tracedFile root.id path token hash) s file := by
  obtain ⟨o, ho, hat, heq⟩ := fileInCommit_apply hs hroot hne token hash
  unfold Store.tracedFileAt at h
  rw [← hat] at h
  unfold Edit.tracedFile
  refine bind (of_eq heq) ?_
  cases o with
  | some f =>
    obtain rfl := Sorted.eq_of_key_eq (ho f rfl).1 hfile (Option.some.inj h)
    exact pure
  | none =>
    obtain ⟨r, hr, hfound, hat⟩ := hs.resolve_fileAt hroot hne
      (show s.allowedIn .everywhere = .ok _ from rfl)
    rw [Option.map_none, Option.none_or] at h
    rw [h] at hat
    cases hfound with
    | directory => cases hat
    | @file before name e f hpath leads mem =>
      obtain ⟨hf, -⟩ := hs.of_filesNamed (Store.mem_of_leads hroot leads) mem
      obtain rfl := Sorted.eq_of_key_eq hf hfile (Option.some.inj hat).symm
      unfold Edit.resolveOrGrow
      refine store_bind fun id => ?_
      have hresolve : ({ s with nextId := id } : Store).resolve = s.resolve :=
        Store.resolve_congr rfl rfl rfl
      rw [hresolve, hr]
      exact pure

/-- An edit that changes nothing does not fail. -/
theorem ifPlaceable {α : Type} {e : Edit α} {a : α} (h : Idle e s a) :
    Idle (ifPlaceable e) s (some a) := by
  intro id
  obtain ⟨next, issued, heq⟩ := bind h (f := fun a => Pure.pure (some a)) pure id
  exact ⟨next, issued, (orElse_of_ok heq).trans heq⟩

theorem functionInFile {file : FileRevision} (hfile : file ∈ s.files) {g : FunctionNode}
    (hg : g ∈ s.functions) {name : String} (fqn : String)
    (h : s.functionNamed file.id name = some g.id) : Idle (functionInFile file name fqn) s g := by
  have hlookup : (s.functionsByName file.functions).lookup name = some g.id := by
    rw [s.lookup_functionsByName, ← Store.functionNamed_eq (Sorted.get?_key hfile), h]
  unfold Edit.functionInFile
  refine store_bind fun id => ?_
  rw [show Store.functionsByName { s with nextId := id } _ = s.functionsByName _ from rfl, hlookup,
    Option.bind_some, Sorted.get?_key hg]
  exact pure

theorem detachedFunction {token name fqn : String} {g : FunctionNode}
    (h : s.findTracedFunction token fqn = some g) : Idle (detachedFunction token name fqn) s g := by
  unfold Edit.detachedFunction
  refine store_bind fun id => ?_
  rw [show Store.findTracedFunction { s with nextId := id } _ _ = some g from h]
  exact pure

end Edit.Idle

/-! ## The second run -/

namespace SpanFact.Told

open Edit

variable {owner : NodeId → String} {n : Nat} {s : Store} {f : SpanFact} {a : Application}
  {g : FunctionNode} {x : Trace} {p : Span}

theorem idle_placeFunction (h : f.Told s a g x p) (hs : s.Sound owner n) :
    Idle (placeFunction a.rootDirectory f) s g := by
  have hlast := List.getLast?_eq_some_getLast (refusal_eq_none_iff.1 h.accepted).2
  unfold placeFunction
  simp only [hlast]
  by_cases hpath : f.path = []
  · have hnil : (splitName f.functionFqn).dropLast.isEmpty = true := List.isEmpty_iff.2 hpath
    simp only [hnil, if_true]
    exact .bind .pure (.detachedFunction (h.detached hpath))
  · have hcons : (splitName f.functionFqn).dropLast.isEmpty = false :=
      Bool.eq_false_iff.2 fun hnil => hpath (List.isEmpty_iff.1 hnil)
    simp only [hcons, Bool.false_eq_true, if_false]
    -- the fact means the function, so it means the file in which the function is
    have hmeant := h.inFile hpath
    unfold Store.functionMeant at hmeant
    rw [h.application, Option.bind_some, hlast] at hmeant
    obtain ⟨id, htraced, hnamed⟩ := Option.bind_eq_some_iff.1 hmeant
    obtain ⟨file, hfile, rfl, -⟩ := Store.mem_of_tracedFileAt htraced
    obtain ⟨root, hroot, hid⟩ := hs.exists_root h.application
    rw [← hid] at htraced ⊢
    exact .bind (.ifPlaceable (.tracedFile hs hroot hpath hfile htraced))
      (.functionInFile hfile h.function _ hnamed)

/-- The caller is found, and telling the span leaves it as it is. -/
theorem exists_caller (h : f.Told s a g x p) : ∃ caller,
    Idle (callerOf f.landscapeToken f.parentSpanId) s caller ∧ p.tell f caller g.id a.id = p := by
  have htell : ∀ caller, caller.or p.parentSpan = p.parentSpan →
      p.tell f caller g.id a.id = p := by
    intro caller hcaller
    unfold Span.tell
    rw [hcaller, ← h.startTime, ← h.endTime, ← h.calls, ← h.runsIn]
  cases hq : nonEmpty f.parentSpanId with
  | none =>
    refine ⟨none, .callerOf (fun _ => rfl) fun q hq' => ?_, htell none rfl⟩
    rw [hq] at hq'
    cases hq'
  | some q =>
    obtain ⟨c, hc, hcaller⟩ := h.caller q hq
    refine ⟨some c.id, .callerOf (fun hnone => ?_) fun q' hq' => ?_, htell _ hcaller.symm⟩
    · rw [hq] at hnone
      cases hnone
    · obtain rfl := Option.some.inj (hq.symm.trans hq')
      exact ⟨c, hc, rfl⟩

theorem idle_refreshBounds (h : f.Told s a g x p) :
    Idle (change fun s => s.refreshBounds f.landscapeToken f.traceId) s () := by
  refine .change fun id => ?_
  unfold Store.refreshBounds
  rw [show Store.findTrace { s with nextId := id } _ _ = some x from h.trace]
  simp only
  rw [show Store.boundsOf { s with nextId := id } _ = some _ from h.bounds]
  exact if_pos rfl

/-- Taking in a fact that has been told yields its span and changes nothing. -/
theorem idle (h : f.Told s a g x p) (hs : s.Sound owner n) : Idle (ingestSpan f) s p := by
  have hkeys : ¬(f.traceId.isEmpty ∨ f.spanId.isEmpty) := by
    simpa [String.isEmpty_iff] using (refusal_eq_none_iff.1 h.accepted).1
  obtain ⟨hx, -⟩ := Sorted.mem_of_find?_pair h.trace
  obtain ⟨hp, -⟩ := Sorted.mem_of_find?_pair h.span
  have hedge : s.HasEdge .traceSpan x.id p.id := Sorted.mem_edgesAt hx h.joined
  have hhas : s.Has .span p.id := Sorted.isSome_get? hp
  obtain ⟨caller, hcaller, htell⟩ := h.exists_caller
  have hsave : Idle (change fun s => s.saveSpan (p.tell f caller g.id a.id)) s () := by
    refine .change fun id => ?_
    rw [htell]
    unfold Store.saveSpan
    rw [Sorted.insert_eq_self hp]
  unfold ingestSpan
  rw [if_neg hkeys]
  refine .bind (.applicationNamed h.application) (.bind (h.idle_placeFunction hs) ?_)
  refine .traceNamed h.trace (.bind hcaller (.bind (.spanNamed h.span) (.bind hsave ?_)))
  have htold : Idle (pure (p.tell f caller g.id a.id)) s p := by
    rw [htell]
    exact .pure
  exact .bind (.mergeEdge hedge hhas (by decide)) (.bind h.idle_refreshBounds htold)

end SpanFact.Told

/-- A qualified name of one part with a dot too many, and a span that calls itself, in a commit that
is not known. -/
def SpanFact.sampleTwisted : SpanFact :=
  { landscapeToken := "t", applicationName := "app", traceId := "x", spanId := "z"
    parentSpanId := some "z", functionFqn := ".run.", startTime := 7, endTime := 3
    commitId := some "c9" }

namespace Store

/-- A span fact that is taken in may be told again at once: the answer is the same, and nothing but
the next id changes. As everywhere, the ids must not have run out. -/
theorem span_again (calls : List Ingestion) (f : SpanFact) (p : Span)
    (hids : (∅ : Store).idsIssued (calls ++ [.span f]) < 2 ^ 64)
    (hok : (Edit.ingestSpan f ((∅ : Store).after calls)).result = .ok p) :
    ∃ next issued, Edit.ingestSpan f (Edit.ingestSpan f ((∅ : Store).after calls)).store =
      { result := .ok p
        store := { (Edit.ingestSpan f ((∅ : Store).after calls)).store with nextId := next }
        issued } := by
  obtain ⟨owner, n, hready, hn⟩ := ready_after_empty calls (.span f) hids
  rw [(Ingestion.effect_span _ f).2] at hn
  obtain ⟨hsteps, hpost, -⟩ := Edit.runs_ingestSpan_course hready hn
  obtain ⟨hs', -⟩ := hsteps.sound_and_grows hready.sound hn
  obtain ⟨c, rfl⟩ := hpost p hok
  obtain ⟨a, told⟩ := c.toldAlready
  exact told.idle hs' _

theorem span_again_sample :
    ∃ p next issued,
      (∅ : Store).idsIssued (Ingestion.sample ++ [.span .sampleTwisted]) < 2 ^ 64 ∧
      (Edit.ingestSpan .sampleTwisted ((∅ : Store).after Ingestion.sample)).result = .ok p ∧
      Edit.ingestSpan .sampleTwisted
          (Edit.ingestSpan .sampleTwisted ((∅ : Store).after Ingestion.sample)).store =
        { result := .ok p
          store := { (Edit.ingestSpan .sampleTwisted
            ((∅ : Store).after Ingestion.sample)).store with nextId := next }
          issued } := by
  have hids : (∅ : Store).idsIssued (Ingestion.sample ++ [.span .sampleTwisted])
      < 2 ^ 64 := by decide +kernel
  have hok : (Edit.ingestSpan .sampleTwisted
      ((∅ : Store).after Ingestion.sample)).result.isOk = true := by decide +kernel
  rcases hp : (Edit.ingestSpan .sampleTwisted
      ((∅ : Store).after Ingestion.sample)).result with x | p
  · rw [hp] at hok
    cases hok
  · obtain ⟨next, issued, heq⟩ := span_again Ingestion.sample .sampleTwisted p hids hp
    exact ⟨p, next, issued, hids, rfl, heq⟩

end Store

end Cityscape
