import Cityscape.Fact.Codec
import Cityscape.Landscape.Codec
import Cityscape.Proofs.Codecs
import Cityscape.Query.Answer

/-!
# `WireForms`: facts, landscapes and answers as JSON

What is told to the store and what it answers is read back from its JSON form, as long as the dates
and doubles in it are read back from their own texts (`WireForm.round_trip`). Classes are nested in
classes, so their codec is put together anew for each depth: a codec for deeper classes writes the
same (`ClassFact.encode_codecTo`), and what it writes is nested so deeply that the codec with which
it is read is deep enough (`ClassFact.depth_le_depth_encode`).
-/

namespace Cityscape

open Codec

variable {d : Nat}

/-! ## Facts -/

/-- The doubles of a function are read back from their texts. -/
def FunctionFact.ReadBack (f : FunctionFact) : Prop := ∀ m ∈ f.metrics, m.2.ReadBack

/-- The doubles of a class, of its functions and of its inner classes are read back from their
texts. -/
inductive ClassFact.ReadBack : ClassFact → Prop where
  | intro {c : ClassFact} (metrics : ∀ m ∈ c.metrics, m.2.ReadBack)
    (functions : ∀ f ∈ c.functions, f.ReadBack) (inner : ∀ i ∈ c.innerClasses, ReadBack i) :
    ReadBack c

/-- The doubles of a file are read back from their texts. -/
structure FileFact.ReadBack (f : FileFact) : Prop where
  metrics : ∀ m ∈ f.metrics, m.2.ReadBack
  classes : ∀ c ∈ f.classes, c.ReadBack
  functions : ∀ g ∈ f.functions, g.ReadBack

/-- The dates of a commit are read back from their texts. -/
structure CommitFact.ReadBack (f : CommitFact) : Prop where
  authorDate : ∀ t, f.authorDate = some t → t.ReadBack
  commitDate : ∀ t, f.commitDate = some t → t.ReadBack

theorem Codec.textList_keeps (l : List String) : text.list.Keeps (d + 1) l :=
  .list fun s _ => text_keeps s

theorem Codec.typedNameFact_keeps (v : Variable) : typedNameFact.Keeps (d + 2) v := by
  refine .iso (Record.keeps (by decide) ?_) rfl
  exact ⟨text_keeps _, text_keeps _, textList_keeps _, trivial⟩

theorem RepositoryFact.codec_keeps (f : RepositoryFact) : codec.Keeps (d + 2) f := by
  refine .iso (Record.keeps (by decide) ?_) rfl
  exact ⟨text_keeps _, text_keeps _, text_keeps _, .map fun p _ => text_keeps p.2, trivial⟩

theorem RepositoryReply.codec_keeps (r : RepositoryReply) : codec.Keeps (d + 1) r := by
  refine .iso (Record.keeps (by decide) ?_) rfl
  exact ⟨text_keeps _, text_keeps _, trivial⟩

theorem FileIdentifier.codec_keeps (f : FileIdentifier) : codec.Keeps (d + 1) f := by
  refine .iso (Record.keeps (by decide) ?_) rfl
  exact ⟨text_keeps _, text_keeps _, trivial⟩

theorem CommitFact.codec_keeps {f : CommitFact} (h : f.ReadBack) : codec.Keeps (d + 3) f := by
  have hfiles : ∀ l : List FileIdentifier, FileIdentifier.codec.list.Keeps (d + 2) l :=
    fun l => .list fun x _ => x.codec_keeps
  refine .iso (Record.keeps (by decide) ?_) rfl
  exact ⟨text_keeps _, text_keeps _, text_keeps _, text_keeps _, text_option_keeps _,
    text_option_keeps _, instant_option_keeps h.authorDate, instant_option_keeps h.commitDate,
    textList_keeps _, hfiles _, hfiles _, hfiles _, trivial⟩

theorem FunctionFact.codec_keeps {f : FunctionFact} (h : f.ReadBack) : codec.Keeps (d + 4) f := by
  refine .iso (Record.keeps (by decide) ?_) rfl
  exact ⟨text_keeps _, text_option_keeps _, bool_keeps _, textList_keeps _, textList_keeps _,
    textList_keeps _, .list fun v _ => typedNameFact_keeps v, uint32_keeps _, uint32_keeps _,
    metrics_keeps h, trivial⟩

theorem SpanFact.codec_keeps (f : SpanFact) : codec.Keeps (d + 1) f := by
  refine .iso (Record.keeps (by decide) ?_) rfl
  exact ⟨text_keeps _, text_keeps _, text_keeps _, text_keeps _, text_option_keeps _, text_keeps _,
    int64_keeps _, int64_keeps _, text_option_keeps _, trivial⟩

/-! ### Nested classes -/

theorem Json.depth_le_depthMembers {p : String × Json} {ms : List (String × Json)} (h : p ∈ ms) :
    p.2.depth ≤ Json.depthMembers ms := by
  induction ms with
  | nil => cases h
  | cons m ms ih =>
    rcases List.mem_cons.1 h with rfl | h
    · exact Nat.le_max_left _ _
    · exact Nat.le_trans (ih h) (Nat.le_max_right _ _)

namespace ClassFact

theorem depth_eq (c : ClassFact) : c.depth = depthAll c.innerClasses + 1 := by
  cases c
  rw [depth]

theorem not_depth_le_zero {c : ClassFact} : ¬c.depth ≤ 0 := by
  rw [c.depth_eq]
  exact Nat.not_succ_le_zero _

theorem depth_le_depthAll {c : ClassFact} {cs : List ClassFact} (h : c ∈ cs) :
    c.depth ≤ depthAll cs := by
  induction cs with
  | nil => cases h
  | cons x cs ih =>
    rw [depthAll]
    rcases List.mem_cons.1 h with rfl | h
    · exact Nat.le_max_left _ _
    · exact Nat.le_trans (ih h) (Nat.le_max_right _ _)

theorem depth_le_of_inner {c i : ClassFact} {fuel : Nat} (h : c.depth ≤ fuel + 1)
    (hi : i ∈ c.innerClasses) : i.depth ≤ fuel := by
  rw [c.depth_eq] at h
  exact Nat.le_trans (depth_le_depthAll hi) (Nat.le_of_succ_le_succ h)

theorem nodup_names (inner : Codec ClassFact) : (record inner).names.Nodup := by
  have hnames : (record inner).names = ["name", "type", "modifiers", "implementedInterfaces",
    "annotations", "enumValues", "superClasses", "fields", "innerClasses", "functions",
    "metrics"] := rfl
  rw [hnames]
  decide

/-- A codec for deeper classes writes the same. -/
theorem encode_codecTo {c : ClassFact} {fuel more : Nat} (h : c.depth ≤ fuel)
    (hmore : fuel ≤ more) : (codecTo more).encode c = (codecTo fuel).encode c := by
  induction fuel generalizing c more with
  | zero => exact absurd h not_depth_le_zero
  | succ fuel ih =>
    cases more with
    | zero => exact absurd hmore (Nat.not_succ_le_zero _)
    | succ more =>
      have hinner : c.innerClasses.map (codecTo more).encode
          = c.innerClasses.map (codecTo fuel).encode :=
        List.map_congr_left fun i hi =>
          ih (depth_le_of_inner h hi) (Nat.le_of_succ_le_succ hmore)
      simp only [codecTo, Codec.iso, Record.codec, record, Record.encodeMembers,
        Field.withDefault, Codec.list, hinner]

/-- Classes are written as deep as they are nested, and deeper. -/
theorem depth_le_depth_encode {c : ClassFact} {fuel : Nat} (h : c.depth ≤ fuel) :
    c.depth ≤ ((codecTo fuel).encode c).depth := by
  induction fuel generalizing c with
  | zero => exact absurd h not_depth_le_zero
  | succ fuel ih =>
    have hitems : ∀ cs : List ClassFact, (∀ i ∈ cs, i.depth ≤ fuel) →
        depthAll cs ≤ Json.depthItems (cs.map (codecTo fuel).encode) := by
      intro cs hcs
      induction cs with
      | nil =>
        rw [depthAll]
        exact Nat.zero_le _
      | cons i cs ihcs =>
        rw [depthAll]
        have hi := ih (hcs i List.mem_cons_self)
        have hrest := ihcs fun j hj => hcs j (List.mem_cons_of_mem i hj)
        exact Nat.max_le.2 ⟨Nat.le_trans hi (Nat.le_max_left _ _),
          Nat.le_trans hrest (Nat.le_max_right _ _)⟩
    have hinner := hitems c.innerClasses fun i hi => depth_le_of_inner h hi
    have hlist : depthAll c.innerClasses ≤ ((codecTo fuel).list.encode c.innerClasses).depth :=
      Nat.le_succ_of_le hinner
    -- the inner classes are one of the members
    rw [c.depth_eq]
    refine Nat.succ_le_succ (Nat.le_trans hlist ?_)
    refine Json.depth_le_depthMembers (p := ("innerClasses", (codecTo fuel).list.encode _)) ?_
    simp [record, Record.encodeMembers, Field.withDefault]

theorem codecTo_keeps {c : ClassFact} {fuel : Nat} (h : c.depth ≤ fuel) (hread : c.ReadBack) :
    (codecTo fuel).Keeps (2 * fuel + 4) c := by
  induction fuel generalizing c with
  | zero => exact absurd h not_depth_le_zero
  | succ fuel ih =>
    obtain ⟨hmetrics, hfunctions, hinner⟩ := hread
    have hclasses : (codecTo fuel).list.Keeps (2 * fuel + 5) c.innerClasses :=
      .list fun i hi => ih (depth_le_of_inner h hi) (hinner i hi)
    refine .iso (Record.keeps (nodup_names _) ?_) (by cases c; rfl)
    exact ⟨text_keeps _, classKind_keeps _, textList_keeps _, textList_keeps _, textList_keeps _,
      textList_keeps _, textList_keeps _, .list fun v _ => typedNameFact_keeps v, hclasses,
      .list fun f hf => FunctionFact.codec_keeps (hfunctions f hf), metrics_keeps hmetrics, trivial⟩

theorem codec_keeps {c : ClassFact} (h : c.ReadBack) : codec.Keeps (2 * c.depth + 4) c := by
  have hkeeps := codecTo_keeps (Nat.le_refl c.depth) h
  refine ⟨?_, hkeeps.printable, hkeeps.depth⟩
  -- the fuel for reading is enough
  have hdeep := depth_le_depth_encode (Nat.le_refl c.depth)
  have henough : c.depth ≤ ((codecTo c.depth).encode c).depth + 1 := Nat.le_succ_of_le hdeep
  have hread := (codecTo_keeps henough h).readsBack
  unfold ReadsBack at hread ⊢
  rw [encode_codecTo (Nat.le_refl _) henough] at hread
  exact hread

end ClassFact

theorem Codec.Keeps.mono {α : Type} {c : Codec α} {d d' : Nat} {a : α} (h : c.Keeps d a)
    (hd : d ≤ d') : c.Keeps d' a := ⟨h.readsBack, h.printable, Nat.le_trans h.depth hd⟩

theorem FileFact.codec_keeps {f : FileFact} (h : f.ReadBack) :
    codec.Keeps (2 * ClassFact.depthAll f.classes + 6) f := by
  have hclasses : ClassFact.codec.list.Keeps (2 * ClassFact.depthAll f.classes + 5) f.classes := by
    refine .list fun c hc => (ClassFact.codec_keeps (h.classes c hc)).mono ?_
    have := ClassFact.depth_le_depthAll hc
    omega
  refine .iso (Record.keeps (by decide) ?_) rfl
  exact ⟨text_keeps _, text_keeps _, text_keeps _, language_keeps _, text_option_keeps _,
    textList_keeps _, metrics_keeps h.metrics, text_option_keeps _, uint32_keeps _, uint32_keeps _,
    uint32_keeps _, hclasses, .list fun g hg => FunctionFact.codec_keeps (h.functions g hg),
    trivial⟩

/-! ## Landscapes -/

/-- The doubles of a landscape are read back from their texts. -/
structure Landscape.ReadBack (l : Landscape) : Prop where
  buildings : ∀ b ∈ l.buildings, ∀ m ∈ b.2.metrics, m.2.ReadBack
  classes : ∀ c ∈ l.classes, ∀ m ∈ c.2.metrics, m.2.ReadBack
  functions : ∀ f ∈ l.functions, ∀ m ∈ f.2.metrics, m.2.ReadBack

theorem City.codec_keeps (c : City) : codec.Keeps (d + 2) c := by
  refine .iso (Record.keeps (by decide) ?_) rfl
  exact ⟨text_keeps _, text_keeps _, textList_keeps _, textList_keeps _, textList_keeps _, trivial⟩

theorem District.codec_keeps (x : District) : codec.Keeps (d + 2) x := by
  refine .iso (Record.keeps (by decide) ?_) rfl
  exact ⟨text_keeps _, text_keeps _, text_keeps _, text_keeps _, text_option_keeps _,
    textList_keeps _, textList_keeps _, trivial⟩

theorem Building.codec_keeps {b : Building} (h : ∀ m ∈ b.metrics, m.2.ReadBack) :
    codec.Keeps (d + 2) b := by
  refine .iso (Record.keeps (by decide) ?_) rfl
  exact ⟨text_keeps _, text_keeps _, text_keeps _, text_keeps _, text_keeps _, language_keeps _,
    textList_keeps _, textList_keeps _, metrics_keeps h, trivial⟩

theorem ClassView.codec_keeps {c : ClassView} (h : ∀ m ∈ c.metrics, m.2.ReadBack) :
    codec.Keeps (d + 2) c := by
  refine .iso (Record.keeps (by decide) ?_) rfl
  exact ⟨text_keeps _, text_keeps _, text_keeps _, text_keeps _, textList_keeps _, metrics_keeps h,
    trivial⟩

theorem FunctionView.codec_keeps {f : FunctionView} (h : ∀ m ∈ f.metrics, m.2.ReadBack) :
    codec.Keeps (d + 2) f := by
  refine .iso (Record.keeps (by decide) ?_) rfl
  exact ⟨text_keeps _, text_keeps _, text_keeps _, text_keeps _, metrics_keeps h, trivial⟩

theorem Landscape.codec_keeps {l : Landscape} (h : l.ReadBack) : codec.Keeps (d + 4) l := by
  refine .iso (Record.keeps (by decide) ?_) rfl
  exact ⟨text_keeps _, .map fun c _ => c.2.codec_keeps, .map fun x _ => x.2.codec_keeps,
    .map fun b hb => Building.codec_keeps (h.buildings b hb),
    .map fun c hc => ClassView.codec_keeps (h.classes c hc),
    .map fun f hf => FunctionView.codec_keeps (h.functions f hf), trivial⟩

/-! ## Answers -/

theorem BranchPoint.codec_keeps (p : BranchPoint) : codec.Keeps (d + 1) p := by
  refine .iso (Record.keeps (by decide) ?_) rfl
  exact ⟨text_keeps _, text_keeps _, trivial⟩

theorem BranchView.codec_keeps (b : BranchView) : codec.Keeps (d + 2) b := by
  refine .iso (Record.keeps (by decide) ?_) rfl
  exact ⟨text_keeps _, textList_keeps _, b.branchPoint.codec_keeps, trivial⟩

theorem CommitTree.codec_keeps (t : CommitTree) : codec.Keeps (d + 4) t := by
  refine .iso (Record.keeps (by decide) ?_) rfl
  exact ⟨text_keeps _, .list fun b _ => b.codec_keeps, trivial⟩

theorem TraceTime.codec_keeps (t : TraceTime) : codec.Keeps (d + 1) t := by
  refine .iso (Record.keeps (by decide) ?_) rfl
  exact ⟨int64_keeps _, uint64_keeps _, trivial⟩

theorem CommitSummary.codec_keeps {c : CommitSummary}
    (h : ∀ t, c.commitDate = some t → t.ReadBack) : codec.Keeps (d + 2) c := by
  refine .iso (Record.keeps (by decide) ?_) rfl
  exact ⟨text_keeps _, text_keeps _, text_keeps _, text_option_keeps _, instant_option_keeps h,
    uint64_keeps _, textList_keeps _, trivial⟩

theorem FileMetrics.codec_keeps (m : FileMetrics) : codec.Keeps (d + 1) m := by
  refine .iso (Record.keeps (by decide) ?_) rfl
  exact ⟨text_keeps _, text_keeps _, trivial⟩

theorem ClassMetrics.codec_keeps (m : ClassMetrics) : codec.Keeps (d + 1) m := by
  refine .iso (Record.keeps (by decide) ?_) rfl
  exact ⟨text_keeps _, text_keeps _, text_keeps _, text_keeps _, trivial⟩

theorem MethodMetrics.codec_keeps (m : MethodMetrics) : codec.Keeps (d + 1) m := by
  refine .iso (Record.keeps (by decide) ?_) rfl
  exact ⟨text_keeps _, text_keeps _, text_keeps _, trivial⟩

theorem CodeMetrics.codec_keeps (m : CodeMetrics) : codec.Keeps (d + 3) m := by
  refine .iso (Record.keeps (by decide) ?_) rfl
  exact ⟨.map fun p _ => p.2.codec_keeps, .map fun p _ => p.2.codec_keeps,
    .map fun p _ => p.2.codec_keeps, trivial⟩

/-! ## All types -/

/-- The types of facts, of landscapes and of what queries are answered with, each with its codec and
with what has to be read back from its own text. -/
inductive WireForm : (α : Type) → Codec α → (α → Prop) → Prop where
  | language : WireForm Language .language fun _ => True
  | classKind : WireForm ClassKind .classKind fun _ => True
  | typedName : WireForm Variable .typedNameFact fun _ => True
  | repositoryFact : WireForm RepositoryFact RepositoryFact.codec fun _ => True
  | repositoryReply : WireForm RepositoryReply RepositoryReply.codec fun _ => True
  | fileIdentifier : WireForm FileIdentifier FileIdentifier.codec fun _ => True
  | commitFact : WireForm CommitFact CommitFact.codec CommitFact.ReadBack
  | functionFact : WireForm FunctionFact FunctionFact.codec FunctionFact.ReadBack
  | classFact : WireForm ClassFact ClassFact.codec ClassFact.ReadBack
  | fileFact : WireForm FileFact FileFact.codec FileFact.ReadBack
  | spanFact : WireForm SpanFact SpanFact.codec fun _ => True
  | city : WireForm City City.codec fun _ => True
  | district : WireForm District District.codec fun _ => True
  | building : WireForm Building Building.codec fun b => ∀ m ∈ b.metrics, m.2.ReadBack
  | classView : WireForm ClassView ClassView.codec fun c => ∀ m ∈ c.metrics, m.2.ReadBack
  | functionView : WireForm FunctionView FunctionView.codec fun f => ∀ m ∈ f.metrics, m.2.ReadBack
  | landscape : WireForm Landscape Landscape.codec Landscape.ReadBack
  | branchPoint : WireForm BranchPoint BranchPoint.codec fun _ => True
  | branchView : WireForm BranchView BranchView.codec fun _ => True
  | commitTree : WireForm CommitTree CommitTree.codec fun _ => True
  | traceTime : WireForm TraceTime TraceTime.codec fun _ => True
  | commitSummary : WireForm CommitSummary CommitSummary.codec
      fun c => ∀ t, c.commitDate = some t → t.ReadBack
  | fileMetrics : WireForm FileMetrics FileMetrics.codec fun _ => True
  | classMetrics : WireForm ClassMetrics ClassMetrics.codec fun _ => True
  | methodMetrics : WireForm MethodMetrics MethodMetrics.codec fun _ => True
  | codeMetrics : WireForm CodeMetrics CodeMetrics.codec fun _ => True

namespace WireForm

variable {α : Type} {c : Codec α} {readBack : α → Prop}

theorem keeps (h : WireForm α c readBack) {a : α} (ha : readBack a) : ∃ d, c.Keeps d a := by
  cases h with
  | language => exact ⟨0, language_keeps a⟩
  | classKind => exact ⟨0, classKind_keeps a⟩
  | typedName => exact ⟨2, typedNameFact_keeps a⟩
  | repositoryFact => exact ⟨2, a.codec_keeps⟩
  | repositoryReply => exact ⟨1, a.codec_keeps⟩
  | fileIdentifier => exact ⟨1, a.codec_keeps⟩
  | commitFact => exact ⟨3, CommitFact.codec_keeps ha⟩
  | functionFact => exact ⟨4, FunctionFact.codec_keeps ha⟩
  | classFact => exact ⟨_, ClassFact.codec_keeps ha⟩
  | fileFact => exact ⟨_, FileFact.codec_keeps ha⟩
  | spanFact => exact ⟨1, a.codec_keeps⟩
  | city => exact ⟨2, a.codec_keeps⟩
  | district => exact ⟨2, a.codec_keeps⟩
  | building => exact ⟨2, Building.codec_keeps ha⟩
  | classView => exact ⟨2, ClassView.codec_keeps ha⟩
  | functionView => exact ⟨2, FunctionView.codec_keeps ha⟩
  | landscape => exact ⟨4, Landscape.codec_keeps ha⟩
  | branchPoint => exact ⟨1, a.codec_keeps⟩
  | branchView => exact ⟨2, a.codec_keeps⟩
  | commitTree => exact ⟨4, a.codec_keeps⟩
  | traceTime => exact ⟨1, a.codec_keeps⟩
  | commitSummary => exact ⟨2, CommitSummary.codec_keeps ha⟩
  | fileMetrics => exact ⟨1, a.codec_keeps⟩
  | classMetrics => exact ⟨1, a.codec_keeps⟩
  | methodMetrics => exact ⟨1, a.codec_keeps⟩
  | codeMetrics => exact ⟨3, a.codec_keeps⟩

/-- What is written is read back, also as a text if it is not nested too deeply. What is read, in
whatever form it has been, is written in a form that is read as the same. -/
theorem round_trip (h : WireForm α c readBack) :
    (∀ a, readBack a → c.decode (c.encode a) = .ok a ∧
      ((c.encode a).depth ≤ Json.maxDepth →
        Json.Document.ofText (c.encode a).render = ⟨c.encode a, true⟩)) ∧
      ∀ j a, c.decode j = .ok a → readBack a → c.decode (c.encode a) = .ok a := by
  have hkeeps : ∀ a, readBack a → ∃ d, c.Keeps d a := fun a ha => h.keeps ha
  refine ⟨fun a ha => ?_, fun j a _ ha => ?_⟩
  · obtain ⟨d, hd⟩ := hkeeps a ha
    exact ⟨hd.readsBack, hd.printable.ofText_render⟩
  · obtain ⟨d, hd⟩ := hkeeps a ha
    exact hd.readsBack

/-- A file as it may be told: with a short name for the language, a member that is no field, a class
that is an array, and one inside it that is an object with its fields in another order. -/
def sampleTold : Json :=
  .obj [("fileHash", .str "h1"), ("language", .str "UNSPECIFIED"), ("checksum", .null),
    ("metrics", .obj [("loc", .int 12)]),
    ("classes", .arr [.arr [.str "a.Outer", .str "ENUM", .arr [], .arr [], .arr [], .arr [.str "X"],
      .arr [], .arr [.arr [.str "x"]],
      .arr [.obj [("type", .str "CLASS"), ("name", .str "a.Outer.Inner")]]]])]

/-- The file that is told. -/
def sampleFile : FileFact :=
  { fileHash := "h1", metrics := Sorted.ofList [("loc", .ofInt 12)]
    classes := [
      { name := "a.Outer", kind := .enum, enumValues := ["X"], fields := [⟨"x", "", []⟩]
        innerClasses := [{ name := "a.Outer.Inner", kind := .concreteClass }] }] }

theorem readBack_sampleFile : sampleFile.ReadBack where
  metrics := by
    show ∀ m ∈ sampleFile.metrics.toList, m.2.ReadBack
    decide +kernel
  classes := by
    refine List.forall_mem_singleton.2 (.intro nofun nofun ?_)
    exact List.forall_mem_singleton.2 (.intro nofun nofun nofun)
  functions := nofun

theorem round_trip_sample :
    WireForm FileFact FileFact.codec FileFact.ReadBack ∧
      FileFact.codec.decode sampleTold = .ok sampleFile ∧ sampleFile.ReadBack ∧
      FileFact.codec.decode (FileFact.codec.encode sampleFile) = .ok sampleFile :=
  have hread : FileFact.codec.decode sampleTold = .ok sampleFile := by rfl
  ⟨.fileFact, hread, readBack_sampleFile,
    (round_trip .fileFact).2 sampleTold sampleFile hread readBack_sampleFile⟩

end WireForm

end Cityscape
