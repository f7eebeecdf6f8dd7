import Cityscape.Graph.Snapshot
import Cityscape.Proofs.JsonText
import Cityscape.Proofs.Sorted

/-!
# `Codecs`: what codecs write has a text and is read back

A codec keeps a value if what it writes is read back as that value, has a text, and is not nested
too deeply (`Codec.Keeps`). The codecs that others are put together from keep what their parts keep,
and so do the records of the graph, as long as the dates and doubles in them are read back from
their own texts.
-/

namespace Cityscape

/-! ## Doubles and dates -/

/-- The double is read back from its text. -/
def Binary64.ReadBack (x : Binary64) : Prop :=
  Json.Document.ofText (x.text .json) = ⟨.float x, true⟩

/-- Whether the double and nothing else has been read. -/
def Json.Document.holds (d : Document) (x : Binary64) : Bool :=
  match d.value with
  | .float y => y = x ∧ d.complete
  | _ => false

theorem Json.Document.holds_iff {d : Document} {x : Binary64} :
    d.holds x = true ↔ d = ⟨.float x, true⟩ := by
  obtain ⟨j, complete⟩ := d
  cases j <;> simp [holds]

instance (x : Binary64) : Decidable x.ReadBack := decidable_of_iff _ Json.Document.holds_iff

/-- The instant is read back from its text. -/
def Instant.ReadBack (t : Instant) : Prop := Instant.ofText? t.text = some t

instance (t : Instant) : Decidable t.ReadBack := inferInstanceAs (Decidable (_ = _))

/-! ## Codecs -/

namespace Codec

/-- What the codec writes for `a` is read back, has a text, and is at most `d` deep. -/
structure Keeps {α : Type} (c : Codec α) (d : Nat) (a : α) : Prop where
  readsBack : c.ReadsBack a
  printable : (c.encode a).Printable
  depth : (c.encode a).depth ≤ d

variable {α β : Type} {c : Codec α} {d : Nat}

theorem Keeps.iso {f : α → β} {g : β → α} {b : β} (h : c.Keeps d (g b)) (hfg : f (g b) = b) :
    (c.iso f g).Keeps d b := ⟨h.readsBack.iso hfg, h.printable, h.depth⟩

/-! ## Scalars -/

theorem text_keeps (s : String) : text.Keeps d s := ⟨text_readsBack s, trivial, Nat.zero_le d⟩

theorem bool_keeps (b : Bool) : bool.Keeps d b := ⟨bool_readsBack b, trivial, Nat.zero_le d⟩

theorem printable_natCast {n : Nat} (h : n < 0x10000000000000000) : (Json.int n).Printable :=
  ⟨by omega, by omega⟩

theorem uint32_keeps (n : UInt32) : uint32.Keeps d n :=
  ⟨uint32_readsBack n, printable_natCast (by have := n.toNat_lt; omega), Nat.zero_le d⟩

theorem uint64_keeps (n : UInt64) : uint64.Keeps d n :=
  ⟨uint64_readsBack n, printable_natCast n.toNat_lt, Nat.zero_le d⟩

theorem int64_keeps (n : Int64) : int64.Keeps d n :=
  ⟨int64_readsBack n, ⟨n.le_toInt, by have := n.toInt_lt; omega⟩, Nat.zero_le d⟩

theorem double_keeps {x : Binary64} (h : x.ReadBack) : double.Keeps d x :=
  ⟨double_readsBack x, h, Nat.zero_le d⟩

theorem nodeId_keeps (id : NodeId) : nodeId.Keeps d id := (uint64_keeps id.val).iso rfl

theorem instant_keeps {t : Instant} (h : t.ReadBack) : instant.Keeps d t := by
  refine ⟨?_, trivial, Nat.zero_le d⟩
  change Instant.ofText? t.text = some t at h
  unfold ReadsBack instant
  simp only [h]

theorem choice_keeps {encode : α → String} {names : List (String × α)} {a : α}
    (h : chosen names (encode a) = .ok a) : (choice encode names).Keeps d a :=
  ⟨choice_readsBack h, trivial, Nat.zero_le d⟩

theorem language_keeps (l : Language) : language.Keeps d l := choice_keeps (by cases l <;> decide)

theorem classKind_keeps (k : ClassKind) : classKind.Keeps d k :=
  choice_keeps (by cases k <;> decide)

/-! ## Options, lists, sets and maps -/

theorem Keeps.option {o : Option α} (h : ∀ a, o = some a → c.Keeps d a ∧ c.encode a ≠ .null) :
    c.option.Keeps d o := by
  refine ⟨.option fun a ha => (h a ha).imp_left Keeps.readsBack, ?_, ?_⟩
  · cases o with
    | none => exact trivial
    | some a => exact (h a rfl).1.printable
  · cases o with
    | none => exact Nat.zero_le d
    | some a => exact (h a rfl).1.depth

theorem text_option_keeps (o : Option String) : text.option.Keeps d o :=
  .option fun s _ => ⟨text_keeps s, nofun⟩

theorem nodeId_option_keeps (o : Option NodeId) : nodeId.option.Keeps d o :=
  .option fun id _ => ⟨nodeId_keeps id, nofun⟩

theorem instant_option_keeps {o : Option Instant} (h : ∀ t, o = some t → t.ReadBack) :
    instant.option.Keeps d o := .option fun t ht => ⟨instant_keeps (h t ht), nofun⟩

theorem Keeps.list {as : List α} (h : ∀ a ∈ as, c.Keeps d a) : c.list.Keeps (d + 1) as := by
  refine ⟨.list fun a ha => (h a ha).readsBack, ?_, Nat.succ_le_succ ?_⟩
  · induction as with
    | nil => exact trivial
    | cons a as ih =>
      exact ⟨(h a List.mem_cons_self).printable, ih fun b hb => h b (List.mem_cons_of_mem a hb)⟩
  · induction as with
    | nil => exact Nat.zero_le d
    | cons a as ih =>
      exact Nat.max_le.2 ⟨(h a List.mem_cons_self).depth,
        ih fun b hb => h b (List.mem_cons_of_mem a hb)⟩

theorem Keeps.set [Ord α] [Std.TransOrd α] [Std.LawfulEqOrd α] [DecidableEq α] {s : SortedSet α}
    (h : ∀ a ∈ s, c.Keeps d a) : c.set.Keeps (d + 1) s :=
  (Keeps.list h).iso (Sorted.ofList_toList s)

theorem nodeIds_keeps (s : SortedSet NodeId) : nodeIds.Keeps (d + 1) s :=
  .set fun id _ => nodeId_keeps id

theorem texts_keeps (s : SortedSet String) : texts.Keeps (d + 1) s := .set fun t _ => text_keeps t

theorem decodeMembers_map {ps : List (String × α)} (h : ∀ p ∈ ps, c.Keeps d p.2) :
    decodeMembers c (ps.map fun p => (p.1, c.encode p.2)) = .ok ps := by
  induction ps with
  | nil => rfl
  | cons p ps ih =>
    have hp : c.decode (c.encode p.2) = .ok p.2 := (h p List.mem_cons_self).readsBack
    have hps := ih fun q hq => h q (List.mem_cons_of_mem p hq)
    simp only [List.map_cons, decodeMembers, hp, hps]
    rfl

theorem members_keep {ps : List (String × α)} (h : ∀ p ∈ ps, c.Keeps d p.2) :
    Json.PrintableMembers (ps.map fun p => (p.1, c.encode p.2)) ∧
      Json.depthMembers (ps.map fun p => (p.1, c.encode p.2)) ≤ d := by
  induction ps with
  | nil => exact ⟨trivial, Nat.zero_le d⟩
  | cons p ps ih =>
    have hp := h p List.mem_cons_self
    obtain ⟨hprint, hdepth⟩ := ih fun q hq => h q (List.mem_cons_of_mem p hq)
    exact ⟨⟨hp.printable, hprint⟩, Nat.max_le.2 ⟨hp.depth, hdepth⟩⟩

theorem Keeps.map {m : SortedMap String α} (h : ∀ p ∈ m, c.Keeps d p.2) :
    c.map.Keeps (d + 1) m := by
  have hdecode : decodeMembers c (m.toList.map fun p => (p.1, c.encode p.2)) = .ok m.toList :=
    decodeMembers_map h
  obtain ⟨hprint, hdepth⟩ := members_keep h
  refine ⟨?_, hprint, Nat.succ_le_succ hdepth⟩
  unfold ReadsBack Codec.map
  simp only [hdecode]
  exact congrArg Except.ok (Sorted.ofList_toList m)

theorem metrics_keeps {m : Metrics} (h : ∀ p ∈ m, p.2.ReadBack) : metrics.Keeps (d + 1) m :=
  .map fun p hp => double_keeps (h p hp)

end Codec

/-! ## Records -/

namespace Record

/-- The codecs of all fields keep the values of `b`. -/
def FieldsKeep (d : Nat) {β σ : Type} : Record β σ → β → Prop
  | .done, () => True
  | .field f rest, (a, b) => f.codec.Keeps d a ∧ rest.FieldsKeep d b

variable {β σ : Type} {r : Record β σ} {b : β} {d : Nat}

theorem FieldsKeep.readBack (h : r.FieldsKeep d b) : r.FieldsReadBack b := by
  induction r with
  | done => exact trivial
  | field f rest ih => exact ⟨h.1.readsBack, ih h.2⟩

theorem FieldsKeep.members (h : r.FieldsKeep d b) :
    Json.PrintableMembers (r.encodeMembers b) ∧ Json.depthMembers (r.encodeMembers b) ≤ d := by
  induction r with
  | done => exact ⟨trivial, Nat.zero_le d⟩
  | field f rest ih =>
    obtain ⟨hprint, hdepth⟩ := ih h.2
    exact ⟨⟨h.1.printable, hprint⟩, Nat.max_le.2 ⟨h.1.depth, hdepth⟩⟩

/-- A record is kept if its fields are. -/
theorem keeps (hn : r.names.Nodup) (h : r.FieldsKeep d b) : r.codec.Keeps (d + 1) b :=
  ⟨readsBack hn h.readBack, h.members.1, Nat.succ_le_succ h.members.2⟩

end Record

/-! ## Nodes -/

section Nodes

open Codec

variable {d : Nat}

theorem Codec.typedName_keeps (v : Variable) : typedName.Keeps (d + 2) v := by
  refine .iso (Record.keeps (by decide) ?_) rfl
  exact ⟨text_keeps _, text_keeps _, .list fun m _ => text_keeps m, trivial⟩

theorem Codec.typedNames_keeps (s : SortedSet Variable) : typedName.set.Keeps (d + 3) s :=
  .set fun v _ => typedName_keeps v

theorem Repository.codec_keeps (r : Repository) : codec.Keeps (d + 2) r := by
  refine .iso (Record.keeps (by decide) ?_) rfl
  exact ⟨nodeId_keeps _, text_keeps _, text_keeps _, nodeId_keeps _, nodeIds_keeps _,
    nodeIds_keeps _, trivial⟩

theorem Branch.codec_keeps (b : Branch) : codec.Keeps (d + 1) b := by
  refine .iso (Record.keeps (by decide) ?_) rfl
  exact ⟨nodeId_keeps _, text_keeps _, nodeId_keeps _, trivial⟩

theorem Commit.codec_keeps {c : Commit} (ha : ∀ t, c.authorDate = some t → t.ReadBack)
    (hc : ∀ t, c.commitDate = some t → t.ReadBack) : codec.Keeps (d + 2) c := by
  refine .iso (Record.keeps (by decide) ?_) rfl
  exact ⟨nodeId_keeps _, text_keeps _, text_keeps _, text_option_keeps _, instant_option_keeps ha,
    instant_option_keeps hc, nodeId_option_keeps _, nodeIds_keeps _, nodeIds_keeps _,
    nodeIds_keeps _, trivial⟩

theorem Tag.codec_keeps (t : Tag) : codec.Keeps (d + 1) t := by
  refine .iso (Record.keeps (by decide) ?_) rfl
  exact ⟨nodeId_keeps _, text_keeps _, trivial⟩

theorem Directory.codec_keeps (x : Directory) : codec.Keeps (d + 2) x := by
  refine .iso (Record.keeps (by decide) ?_) rfl
  exact ⟨nodeId_keeps _, text_keeps _, nodeIds_keeps _, nodeIds_keeps _, nodeId_option_keeps _,
    trivial⟩

theorem FileRevision.codec_keeps {f : FileRevision} (h : ∀ m ∈ f.metrics, m.2.ReadBack) :
    codec.Keeps (d + 2) f := by
  refine .iso (Record.keeps (by decide) ?_) rfl
  exact ⟨nodeId_keeps _, text_option_keeps _, text_keeps _, bool_keeps _, language_keeps _,
    text_option_keeps _, texts_keeps _, metrics_keeps h, text_option_keeps _, uint32_keeps _,
    uint32_keeps _, uint32_keeps _, nodeIds_keeps _, nodeIds_keeps _, nodeId_option_keeps _,
    trivial⟩

theorem ClassNode.codec_keeps {c : ClassNode} (h : ∀ m ∈ c.metrics, m.2.ReadBack) :
    codec.Keeps (d + 4) c := by
  refine .iso (Record.keeps (by decide) ?_) rfl
  exact ⟨nodeId_keeps _, text_keeps _, classKind_keeps _, texts_keeps _, texts_keeps _,
    texts_keeps _, texts_keeps _, metrics_keeps h, nodeIds_keeps _, typedNames_keeps _,
    nodeIds_keeps _, nodeIds_keeps _, trivial⟩

theorem FunctionNode.codec_keeps {f : FunctionNode} (h : ∀ m ∈ f.metrics, m.2.ReadBack) :
    codec.Keeps (d + 4) f := by
  refine .iso (Record.keeps (by decide) ?_) rfl
  exact ⟨nodeId_keeps _, text_keeps _, text_option_keeps _, text_option_keeps _, bool_keeps _,
    texts_keeps _, texts_keeps _, texts_keeps _, metrics_keeps h, uint32_keeps _, uint32_keeps _,
    typedNames_keeps _, trivial⟩

theorem Application.codec_keeps (a : Application) : codec.Keeps (d + 1) a := by
  refine .iso (Record.keeps (by decide) ?_) rfl
  exact ⟨nodeId_keeps _, text_keeps _, text_keeps _, nodeId_keeps _, nodeId_option_keeps _,
    trivial⟩

theorem Trace.codec_keeps (t : Trace) : codec.Keeps (d + 2) t := by
  refine .iso (Record.keeps (by decide) ?_) rfl
  exact ⟨nodeId_keeps _, text_keeps _, text_keeps _, int64_keeps _, int64_keeps _,
    nodeIds_keeps _, trivial⟩

theorem Span.codec_keeps (p : Span) : codec.Keeps (d + 1) p := by
  refine .iso (Record.keeps (by decide) ?_) rfl
  exact ⟨nodeId_keeps _, text_keeps _, text_keeps _, int64_keeps _, int64_keeps _,
    nodeId_option_keeps _, nodeId_option_keeps _, nodeId_option_keeps _, trivial⟩

end Nodes

/-! ## Snapshots -/

namespace Snapshot

/-- All dates and doubles of a snapshot are read back from their texts. -/
structure ReadBack (n : Snapshot) : Prop where
  authorDates : ∀ c ∈ n.commits, ∀ t ∈ c.authorDate, t.ReadBack
  commitDates : ∀ c ∈ n.commits, ∀ t ∈ c.commitDate, t.ReadBack
  files : ∀ f ∈ n.files, ∀ m ∈ f.metrics.toList, m.2.ReadBack
  classes : ∀ c ∈ n.classes, ∀ m ∈ c.metrics.toList, m.2.ReadBack
  functions : ∀ f ∈ n.functions, ∀ m ∈ f.metrics.toList, m.2.ReadBack

variable {n : Snapshot}

instance (n : Snapshot) : Decidable n.ReadBack :=
  decidable_of_iff
    ((∀ c ∈ n.commits, ∀ t ∈ c.authorDate, t.ReadBack) ∧
      (∀ c ∈ n.commits, ∀ t ∈ c.commitDate, t.ReadBack) ∧
      (∀ f ∈ n.files, ∀ m ∈ f.metrics.toList, m.2.ReadBack) ∧
      (∀ c ∈ n.classes, ∀ m ∈ c.metrics.toList, m.2.ReadBack) ∧
      ∀ f ∈ n.functions, ∀ m ∈ f.metrics.toList, m.2.ReadBack)
    ⟨fun ⟨ha, hc, hf, hk, hg⟩ => ⟨ha, hc, hf, hk, hg⟩,
      fun h => ⟨h.authorDates, h.commitDates, h.files, h.classes, h.functions⟩⟩

theorem codec_keeps (h : n.ReadBack) : codec.Keeps 6 n := by
  refine .iso (Record.keeps (by decide) ?_) rfl
  exact ⟨Codec.uint64_keeps _, .list fun r _ => r.codec_keeps, .list fun b _ => b.codec_keeps,
    .list fun c hc => Commit.codec_keeps (h.authorDates c hc) (h.commitDates c hc),
    .list fun t _ => t.codec_keeps, .list fun x _ => x.codec_keeps,
    .list fun f hf => FileRevision.codec_keeps (h.files f hf),
    .list fun c hc => ClassNode.codec_keeps (h.classes c hc),
    .list fun f hf => FunctionNode.codec_keeps (h.functions f hf),
    .list fun a _ => a.codec_keeps, .list fun t _ => t.codec_keeps,
    .list fun p _ => p.codec_keeps, trivial⟩

/-- A snapshot is read back from its text. -/
theorem ofText?_text (h : n.ReadBack) : ofText? n.text = some n := by
  have hkeeps := codec_keeps h
  have hdecode : codec.decode (codec.encode n) = .ok n := hkeeps.readsBack
  have htext : Json.Document.ofText n.text = ⟨codec.encode n, true⟩ :=
    hkeeps.printable.ofText_render (Nat.le_trans hkeeps.depth (by decide))
  unfold ofText?
  simp only [htext, hdecode, if_true]

end Snapshot

end Cityscape
