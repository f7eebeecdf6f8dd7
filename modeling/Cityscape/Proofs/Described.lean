import Cityscape.Proofs.Branches
import Cityscape.Proofs.Delivery
import Cityscape.Proofs.Edges
import Cityscape.Proofs.Refusals
import Cityscape.Proofs.Repetition
import Cityscape.Proofs.Telling

/-!
# `Described`: which commits are complete

A revision is described from the first file fact on that succeeds at a time when the revision has
the content hash of the fact and is in a commit of its repository. Only file facts describe
anything, and one that succeeds describes exactly the revisions that are found by its hash
(`Edit.describes_ingestFile`): all other parts of the call leave that alone. The latest complete
commit of a branch is read off what is described (`Store.latestComplete_eq_some_iff`), so it is
told by the calls as well.
-/

namespace Cityscape

/-- Whether static analysis has described the revision with the given id. -/
def Store.isDescribed (s : Store) (id : NodeId) : Bool :=
  (s.files.get? id).any FileRevision.hasFileData

namespace Store

variable {s : Store} {id : NodeId}

theorem isDescribed_of_mem {f : FileRevision} (h : f ∈ s.files) :
    s.isDescribed f.id = f.hasFileData := by
  unfold isDescribed
  rw [Sorted.get?_key h]
  rfl

theorem isDescribed_withEdge (relation : Relation) (a b : NodeId) :
    (s.withEdge relation a b).isDescribed id = s.isDescribed id := by
  -- an edge may change a file, but not whether it is described
  have hmodify : ∀ (k : NodeId) (f : FileRevision → FileRevision), (∀ x, (f x).id = x.id) →
      (∀ x, (f x).hasFileData = x.hasFileData) →
      ((s.files.modify k f).get? id).any FileRevision.hasFileData
        = (s.files.get? id).any FileRevision.hasFileData := by
    intro k f hid hdata
    rw [Sorted.get?_modify hid]
    by_cases h : id = k
    · rw [if_pos h, h]
      cases s.files.get? k with
      | none => rfl
      | some x => exact hdata x
    · rw [if_neg h]
  cases relation with
  | directoryFile => exact hmodify b _ (fun _ => rfl) fun _ => rfl
  | fileClass => exact hmodify a _ (fun _ => rfl) fun _ => rfl
  | fileFunction => exact hmodify a _ (fun _ => rfl) fun _ => rfl
  | _ => rfl

/-- Saving a revision as described does so whatever is stored of it. -/
theorem isDescribed_saveFile {f : FileRevision} (h : f.hasFileData = true) :
    (s.saveFile f).isDescribed id = (s.isDescribed id || decide (id = f.id)) := by
  obtain ⟨next, hsave, hid, hdata⟩ : ∃ next : FileRevision,
      s.saveFile f = { s with files := s.files.insert next } ∧ next.id = f.id ∧
        next.hasFileData = true := by
    unfold saveFile
    cases s.files.get? f.id with
    | none => exact ⟨f, rfl, rfl, h⟩
    | some old => exact ⟨_, rfl, rfl, h⟩
  unfold isDescribed
  rw [hsave, Sorted.get?_insert, hid]
  by_cases he : id = f.id
  · rw [if_pos he, decide_eq_true he, Bool.or_true]
    exact hdata
  · rw [if_neg he, decide_eq_false he, Bool.or_false]

end Store

/-! ## What a file fact describes -/

/-- If the edit succeeds, it has described the revisions with the given ids and no others. -/
def Edit.Describes {α : Type} (e : Edit α) (ids : List NodeId) : Prop :=
  ∀ s a, (e s).result = .ok a → ∀ id,
    (e s).store.isDescribed id = (s.isDescribed id || decide (id ∈ ids))

namespace Edit.Describes

variable {α β : Type} {e : Edit α} {f : α → Edit β} {ids ids' : List NodeId}

theorem of_same (h : ∀ s id, (e s).store.isDescribed id = s.isDescribed id) : Describes e [] := by
  intro s a _ id
  simp [h s id]

theorem pure {a : α} : Describes (pure a) [] := of_same fun _ _ => rfl

theorem allocate : Describes allocate [] := of_same fun _ _ => rfl

theorem change {g : Store → Store} (h : ∀ s, (g s).files = s.files) : Describes (change g) [] := by
  refine of_same fun s id => ?_
  show (g s).isDescribed id = _
  unfold Store.isDescribed
  rw [h s]

/-- One edit after another describes what either of them does. -/
theorem append (he : Describes e ids) (hf : ∀ a, Describes (f a) ids') :
    Describes (e >>= f) (ids ++ ids') := by
  intro s b hb id
  rcases ho : e s with ⟨x | a, s', j⟩
  · rw [bind_of_error ho] at hb
    cases hb
  · rw [bind_of_ok ho] at hb ⊢
    have hfirst := he s a (by rw [ho]) id
    rw [ho] at hfirst
    show (f a s').store.isDescribed id = _
    rw [hf a s' b hb id, hfirst, Bool.or_assoc]
    simp only [List.mem_append, Bool.decide_or]

/-- What comes first describes nothing. -/
theorem bind (he : Describes e []) (hf : ∀ a, Describes (f a) ids) : Describes (e >>= f) ids :=
  append he hf

theorem store_bind {f : Store → Edit β} (h : ∀ s, Describes (f s) ids) :
    Describes (store >>= f) ids := by
  intro s b hb
  rw [Edit.store_bind] at hb ⊢
  exact h s s b hb

theorem mergeEdge {relation : Relation} {a b : NodeId} :
    Describes (mergeEdge relation a b) [] := by
  refine of_same fun s id => ?_
  by_cases hlink : s.Linkable relation a b
  · rw [Store.mergeEdge_of_linkable hlink]
    exact Store.isDescribed_withEdge relation a b
  · obtain ⟨e, he⟩ := Store.mergeEdge_of_not_linkable hlink
    rw [he]

end Edit.Describes

namespace Edit

theorem describes_createFunction (f : FunctionFact) : Describes (createFunction f) [] :=
  .bind .allocate fun _ => .bind (.change fun _ => rfl) fun _ => .pure

theorem describes_createMethods {class_ : NodeId} (fs : List FunctionFact) :
    Describes (createMethods class_ fs) [] := by
  induction fs with
  | nil => exact .pure
  | cons f rest ih =>
    exact .bind (describes_createFunction f) fun _ => .bind .mergeEdge fun _ => ih

mutual

theorem describes_createClass (c : ClassFact) : Describes (createClass c) [] := by
  match c with
  | ⟨name, kind, modifiers, interfaces, annotations, enumValues, superClasses, fields,
      innerClasses, functions, metrics⟩ =>
    rw [createClass]
    refine .bind .allocate fun _ => .bind (.change fun s => ?_) fun _ => ?_
    · rfl
    · exact .bind (describes_createMethods functions) fun _ =>
        .bind (describes_createInnerClasses innerClasses) fun _ => .pure

theorem describes_createInnerClasses {outer : NodeId} (cs : List ClassFact) :
    Describes (createInnerClasses outer cs) [] := by
  match cs with
  | [] =>
    rw [createInnerClasses]
    exact .pure
  | c :: rest =>
    rw [createInnerClasses]
    exact .bind (describes_createClass c) fun _ => .bind .mergeEdge fun _ =>
      describes_createInnerClasses rest

end

theorem describes_attachClasses {file : NodeId} {existing : NamedIds} (cs : List ClassFact) :
    ∀ ids created, Describes (attachClasses file existing cs ids created) [] := by
  induction cs with
  | nil => exact fun _ _ => .pure
  | cons c rest ih =>
    intro ids created
    rw [attachClasses]
    cases (existing.lookup c.name).or (created.lookup c.name) with
    | some id => exact .bind .mergeEdge fun _ => ih _ _
    | none =>
      exact .bind (describes_createClass c) fun _ => .bind .mergeEdge fun _ => ih _ _

theorem describes_linkSuperClasses {ids : NamedIds} {class_ : NodeId} (names : List String) :
    Describes (linkSuperClasses ids class_ names) [] := by
  induction names with
  | nil => exact .pure
  | cons name rest ih =>
    rw [linkSuperClasses]
    cases ids.lookup name with
    | none => exact ih
    | some super =>
      by_cases hne : super ≠ class_
      · simp only [hne, ne_eq, not_false_eq_true, if_true]
        exact .bind .mergeEdge fun _ => ih
      · simp only [hne, if_false]
        exact ih

theorem describes_linkAllSuperClasses {ids : NamedIds} (cs : List ClassFact) :
    Describes (linkAllSuperClasses ids cs) [] := by
  induction cs with
  | nil => exact .pure
  | cons c rest ih =>
    rw [linkAllSuperClasses]
    cases ids.lookup c.name with
    | none => exact ih
    | some id => exact .bind (describes_linkSuperClasses _) fun _ => ih

theorem describes_attachFunctions {file : NodeId} {existing : NamedIds} (fs : List FunctionFact) :
    ∀ created, Describes (attachFunctions file existing fs created) [] := by
  induction fs with
  | nil => exact fun _ => .pure
  | cons f rest ih =>
    intro created
    rw [attachFunctions]
    cases (existing.lookup f.name).or (created.lookup f.name) with
    | some id => exact .bind .mergeEdge fun _ => ih _
    | none => exact .bind (describes_createFunction f) fun _ => .bind .mergeEdge fun _ => ih _

/-- Each of the revisions is described, whatever the copy of it says that was read before. -/
theorem describes_describeFiles {fact : FileFact} (files : List FileRevision) :
    ∀ classes functions,
      Describes (describeFiles fact files classes functions) (files.map FileRevision.id) := by
  induction files with
  | nil => exact fun _ _ => .pure
  | cons file rest ih =>
    intro classes functions
    rw [describeFiles]
    refine .store_bind fun _ => .bind (describes_attachClasses _ _ _) fun _ => ?_
    refine .bind (describes_linkAllSuperClasses _) fun _ => .store_bind fun _ => ?_
    refine .bind (describes_attachFunctions _ _) fun _ => ?_
    have hsave : Describes (change fun s => s.saveFile (described fact file)) [file.id] := by
      intro s _ _ id
      simp only [List.mem_singleton]
      exact Store.isDescribed_saveFile rfl
    exact .append hsave fun _ => ih _ _

/-- A file fact that succeeds describes the revisions that are found by its hash. -/
theorem describes_ingestFile {s : Store} {f : FileFact} {count : Nat}
    (h : (ingestFile f s).result = .ok count) :
    ∃ r, s.findRepository f.landscapeToken (displayName f.repositoryName) = some r ∧ ∀ id,
      (ingestFile f s).store.isDescribed id
        = (s.isDescribed id
            || decide (id ∈ (s.filesByHash r.id f.fileHash).map FileRevision.id)) := by
  unfold ingestFile at h ⊢
  cases hr : s.findRepository f.landscapeToken (displayName f.repositoryName) with
  | none =>
    rw [bind_of_error (announcedRepository_of_none hr)] at h
    cases h
  | some r =>
    rw [bind_of_ok (announcedRepository_of_some hr), store_bind] at h ⊢
    by_cases hempty : (s.filesByHash r.id f.fileHash).isEmpty = true
    · rw [if_pos hempty] at h
      cases h
    · rw [if_neg hempty] at h ⊢
      refine ⟨r, rfl, fun id => ?_⟩
      have hall : Describes (do
          describeFiles f (s.filesByHash r.id f.fileHash) [] []
          return (s.filesByHash r.id f.fileHash).length)
          ((s.filesByHash r.id f.fileHash).map FileRevision.id ++ []) :=
        .append (describes_describeFiles _ _ _) fun _ => .pure
      rw [List.append_nil] at hall
      exact hall s count h id

end Edit

/-! ## What calls describe -/

section Calls

variable {owner : NodeId → String} {t : String} {k : Topic} {n j : Nat} {s s' : Store}

/-- Only calls about files describe anything. -/
theorem Step.isDescribed (h : Step owner t k j s s') (hs : s.Numbered n) (hn : n + j < 2 ^ 64)
    (hk : k ≠ .file) (id : NodeId) : s'.isDescribed id = s.isDescribed id := by
  cases h with
  | newFile topic mem ownParent own =>
    unfold Store.isDescribed Store.withFile
    rw [Sorted.get?_insert]
    by_cases he : id = ⟨s.nextId⟩
    · rw [if_pos he, he, hs.get?_next hn hs.files]
      rfl
    · rw [if_neg he]
  | @file _ _ f f' topic mem own kept fits described =>
    unfold Store.isDescribed
    rw [Sorted.get?_insert, kept.id]
    by_cases he : id = f.id
    · rw [if_pos he, he, Sorted.get?_key mem]
      exact described hk
    · rw [if_neg he]
  | newClass => exact absurd rfl hk
  | classNode => exact absurd rfl hk
  | _ => rfl

theorem Steps.isDescribed (h : Steps owner t k j s s') (hs : s.Sound owner n)
    (hn : n + j < 2 ^ 64) (hk : k ≠ .file) (id : NodeId) :
    s'.isDescribed id = s.isDescribed id := by
  induction h with
  | refl => rfl
  | tail first last ih =>
    have hmid := (first.sound_and_grows hs (by omega)).1
    exact (last.isDescribed hmid.numbered (by omega) hk id).trans (ih hs (by omega))

/-- The call tells of the revision with the given id: it is a file fact that succeeds, and the
revision has the content hash of the fact and is in a commit of its repository. -/
def Ingestion.TellsOf (i : Ingestion) (s : Store) (id : NodeId) : Prop :=
  ∃ f : FileFact, i = .file f ∧ i.succeeds s = true ∧
    ∃ file ∈ s.files, file.id = id ∧ file.hash = some f.fileHash ∧
      ∃ r ∈ s.repositories, r.token = f.landscapeToken ∧ r.name = displayName f.repositoryName ∧
        ∃ c ∈ s.commits, c.id ∈ r.commits ∧ id ∈ c.fileRevisions

/-- The revisions that are found by the hash of a fact are those that it tells of. -/
theorem FileFact.tellsOf_iff {f : FileFact} {r : Repository} (hs : s.Keyed)
    (hr : s.findRepository f.landscapeToken (displayName f.repositoryName) = some r)
    (hok : (Ingestion.file f).succeeds s = true) {id : NodeId} :
    id ∈ (s.filesByHash r.id f.fileHash).map FileRevision.id ↔ (Ingestion.file f).TellsOf s id := by
  simp only [List.mem_map, ← FileFact.means_iff hs hr]
  constructor
  · rintro ⟨file, ⟨hfile, hhash, hin⟩, rfl⟩
    exact ⟨f, rfl, hok, file, hfile, rfl, hhash, hin⟩
  · rintro ⟨_, he, -, file, hfile, rfl, hhash, hin⟩
    cases he
    exact ⟨file, ⟨hfile, hhash, hin⟩, rfl⟩

/-- A call adds to what is described the revisions that it tells of. -/
theorem Ingestion.isDescribed_edit (i : Ingestion) (h : Ready owner i.token n s)
    (hn : n + (i.edit s).issued < 2 ^ 64) (id : NodeId) :
    (i.edit s).store.isDescribed id = true ↔ s.isDescribed id = true ∨ i.TellsOf s id := by
  have other : i.topic ≠ .file →
      ((i.edit s).store.isDescribed id = true ↔ s.isDescribed id = true ∨ i.TellsOf s id) := by
    intro hk
    rw [(i.runs h hn).1.isDescribed h.sound hn hk id, or_iff_left]
    rintro ⟨f, rfl, -⟩
    exact hk rfl
  cases i with
  | repository f => exact other nofun
  | commit f => exact other nofun
  | span f => exact other nofun
  | file f =>
    cases hresult : ((Ingestion.file f).edit s).result with
    | error x =>
      have hrefusal := ((Ingestion.file f).runs_refusal h hn).2.2 x hresult
      have hkind : x.kind = .failedPrecondition := by
        cases h.sound.keyed.refused_iff.2 hrefusal <;> rfl
      rw [Ingestion.store_of_failedPrecondition hrefusal hkind, or_iff_left]
      rintro ⟨_, -, hok, -⟩
      unfold Ingestion.succeeds at hok
      rw [hresult] at hok
      cases hok
    | ok u =>
      have hok : (Ingestion.file f).succeeds s = true := by
        unfold Ingestion.succeeds
        rw [hresult]
        rfl
      obtain ⟨count, hcount, -⟩ := Edit.exists_ok_of_bind hresult
      obtain ⟨r, hr, hdescribed⟩ := Edit.describes_ingestFile hcount
      rw [(Ingestion.effect_file s f).1, hdescribed, Bool.or_eq_true, decide_eq_true_eq,
        FileFact.tellsOf_iff h.sound.keyed hr hok]

end Calls

/-- One of the calls told of the revision when its turn came. -/
def Ingestion.ToldOf (calls : List Ingestion) (id : NodeId) : Prop :=
  ∃ before i rest, calls = before ++ i :: rest ∧ i.TellsOf ((∅ : Store).after before) id

theorem Ingestion.toldOf_concat {calls : List Ingestion} {i : Ingestion} {id : NodeId} :
    ToldOf (calls ++ [i]) id ↔ ToldOf calls id ∨ i.TellsOf ((∅ : Store).after calls) id := by
  constructor
  · rintro ⟨before, j, rest, he, htells⟩
    rcases List.eq_nil_or_concat rest with rfl | ⟨rest, k, rfl⟩
    · obtain ⟨rfl, hj⟩ := List.append_inj' he rfl
      cases hj
      exact .inr htells
    · rw [List.concat_eq_append, ← List.cons_append, ← List.append_assoc] at he
      obtain ⟨rfl, -⟩ := List.append_inj' he rfl
      exact .inl ⟨before, j, rest, rfl, htells⟩
  · rintro (⟨before, j, rest, rfl, htells⟩ | htells)
    · exact ⟨before, j, rest ++ [i], by rw [List.append_assoc, List.cons_append], htells⟩
    · exact ⟨calls, i, [], rfl, htells⟩

namespace Store

/-- A revision is described if and only if one of the calls told of it. -/
theorem isDescribed_after_iff (calls : List Ingestion) (hn : (∅ : Store).idsIssued calls < 2 ^ 64)
    (id : NodeId) :
    ((∅ : Store).after calls).isDescribed id = true ↔ Ingestion.ToldOf calls id := by
  refine call_induction
    (P := fun calls s => s.isDescribed id = true ↔ Ingestion.ToldOf calls id) ?_ ?_ calls hn
  · refine iff_of_false nofun ?_
    rintro ⟨before, i, rest, he, -⟩
    cases before <;> cases he
  · intro owner n calls i hready hn ih
    rw [i.isDescribed_edit hready hn id, ih, Ingestion.toldOf_concat]

/-! ## The latest complete commit -/

/-- The commit is in the repository and on its branch, has a file, and all its files are
described. -/
structure CompleteOn (s : Store) (repository token branch : String) (c : Commit) : Prop where
  mem : c ∈ s.commits
  onBranch : ∃ r ∈ s.repositories, r.token = token ∧ r.name = repository ∧ c.id ∈ r.commits ∧
    ∃ b ∈ s.branches, b.repository = r.id ∧ b.name = branch ∧ c.branch = some b.id
  file : ∃ id, id ∈ c.fileRevisions
  described : ∀ id ∈ c.fileRevisions, s.isDescribed id = true

variable {owner : NodeId → String} {n : Nat} {s : Store} {repository token branch : String}
  {c : Commit}

theorem allFilesHaveData_iff :
    s.allFilesHaveData c = true ↔ ∀ id ∈ c.fileRevisions, s.isDescribed id = true := by
  unfold allFilesHaveData isDescribed
  rw [List.all_eq_true]
  refine forall₂_congr fun id _ => ?_
  cases s.files.get? id <;> rfl

theorem isCompleteOn_iff {id : NodeId} :
    s.isCompleteOn id c = true ↔ c.branch = some id ∧ (∃ i, i ∈ c.fileRevisions) ∧
      ∀ i ∈ c.fileRevisions, s.isDescribed i = true := by
  have hfiles : ¬c.fileRevisions.isEmpty = true ↔ ∃ i, i ∈ c.fileRevisions := by
    unfold Sorted.isEmpty
    rw [List.isEmpty_iff, List.eq_nil_iff_forall_not_mem]
    push Not
    rfl
  unfold isCompleteOn
  rw [decide_eq_true_eq, hfiles, allFilesHaveData_iff]

/-- The commits that are looked through for the latest complete one. -/
theorem Keyed.mem_complete_iff (hs : s.Keyed) {r : Repository}
    (hr : s.findRepository token repository = some r) {b : Branch}
    (hb : s.findBranch r.id branch = some b) :
    c ∈ (s.commitsOf r).filter (s.isCompleteOn b.id) ↔ s.CompleteOn repository token branch c := by
  obtain ⟨hrmem, htoken, hname⟩ := findRepository_spec hr
  obtain ⟨hbmem, hbr, hbname⟩ := Sorted.mem_of_find?_pair hb
  rw [List.mem_filter, mem_commitsOf_iff, isCompleteOn_iff]
  constructor
  · rintro ⟨⟨hc, hin⟩, hbranch, hfile, hdescribed⟩
    exact ⟨hc, ⟨r, hrmem, htoken, hname, hin, b, hbmem, hbr, hbname, hbranch⟩, hfile, hdescribed⟩
  · rintro ⟨hc, ⟨r', hr', htoken', hname', hin, b', hb', hbr', hbname', hbranch⟩, hfile, hdescribed⟩
    obtain rfl : r' = r :=
      Option.some.inj ((hs.findRepository_eq_some_iff.2 ⟨hr', htoken', hname'⟩).symm.trans hr)
    obtain rfl : b' = b := Option.some.inj ((hs.findBranch_eq_some hb' hbr' hbname').symm.trans hb)
    exact ⟨⟨hc, hin⟩, hbranch, hfile, hdescribed⟩

/-- The latest complete commit is picked from all complete ones. -/
theorem Keyed.latestComplete_eq_least (hs : s.Keyed) (repository token branch : String) :
    ∃ l, s.latestComplete repository token branch = Commit.least? Commit.byDate l ∧
      ∀ c, c ∈ l ↔ s.CompleteOn repository token branch c := by
  unfold latestComplete
  cases hr : s.findRepository token repository with
  | none =>
    refine ⟨[], rfl, fun c => iff_of_false List.not_mem_nil fun hc => ?_⟩
    obtain ⟨r, hrmem, htoken, hname, -⟩ := hc.onBranch
    rw [hs.findRepository_eq_some_iff.2 ⟨hrmem, htoken, hname⟩] at hr
    cases hr
  | some r =>
    cases hb : s.findBranch r.id branch with
    | none =>
      refine ⟨[], by simp [hb, Commit.least?], fun c => iff_of_false List.not_mem_nil fun hc => ?_⟩
      obtain ⟨r', hr', htoken, hname, -, b, hbmem, hbr, hbname, -⟩ := hc.onBranch
      obtain rfl : r' = r :=
        Option.some.inj ((hs.findRepository_eq_some_iff.2 ⟨hr', htoken, hname⟩).symm.trans hr)
      rw [hs.findBranch_eq_some hbmem hbr hbname] at hb
      cases hb
    | some b =>
      refine ⟨_, ?_, fun c => hs.mem_complete_iff hr hb⟩
      rw [Option.bind_eq_bind, Option.bind_some, hb]
      rfl

/-- There is a latest complete commit as soon as there is a complete one. -/
theorem Keyed.isSome_latestComplete (hs : s.Keyed) :
    (s.latestComplete repository token branch).isSome ↔
      ∃ c, s.CompleteOn repository token branch c := by
  obtain ⟨l, heq, hmem⟩ := hs.latestComplete_eq_least repository token branch
  rw [heq, Option.isSome_iff_ne_none, ne_eq, Commit.least?_eq_none_iff,
    List.eq_nil_iff_forall_not_mem]
  push Not
  exact exists_congr hmem

/-- Complete commits of one branch have different hashes, so the order tells them apart. -/
theorem Sound.eq_of_byDate (hs : s.Sound owner n) {c d : Commit}
    (hc : s.CompleteOn repository token branch c) (hd : s.CompleteOn repository token branch d)
    (heq : Commit.byDate c d = .eq) : c = d := by
  have htoken : ∀ {x}, s.CompleteOn repository token branch x → x.token = token := by
    rintro x ⟨hx, ⟨r, hr, htoken, -, hxr, -⟩, -⟩
    obtain ⟨x', hx', hxtoken⟩ := (hs.fitting.repositories r hr).commits x.id hxr
    rw [Sorted.get?_key hx] at hx'
    cases hx'
    exact hxtoken.trans htoken
  exact hs.keyed.eq_of_hash hc.mem hd.mem ((htoken hc).trans (htoken hd).symm)
    (Commit.hash_eq_of_byDate heq)

/-- The latest complete commit is the first one by date and hash of those that are complete. -/
theorem Sound.latestComplete_eq_some_iff (hs : s.Sound owner n) :
    s.latestComplete repository token branch = some c ↔
      s.CompleteOn repository token branch c ∧
        ∀ d, s.CompleteOn repository token branch d → d ≠ c → Commit.byDate c d = .lt := by
  obtain ⟨l, heq, hmem⟩ := hs.keyed.latestComplete_eq_least repository token branch
  rw [heq, Commit.least?_eq_some_iff fun x hx y hy =>
    hs.eq_of_byDate ((hmem x).1 hx) ((hmem y).1 hy)]
  simp only [hmem]

end Store

/-! ## Answers -/

namespace Edit

/-- What the last of some edits makes sure of holds after all of them. -/
theorem last_of_bind {α β : Type} {e : Edit α} {f : α → Edit β} (P : β → Store → Prop)
    (hf : ∀ a s b, (f a s).result = .ok b → P b (f a s).store) :
    ∀ s b, ((e >>= f) s).result = .ok b → P b ((e >>= f) s).store := by
  intro s b h
  rcases ho : e s with ⟨x | a, s', j⟩
  · rw [bind_of_error ho] at h
    cases h
  · rw [bind_of_ok ho] at h ⊢
    exact hf a s' b h

/-- The reply to a repository fact names the latest complete commit of its branch, if there is
one. -/
theorem commitId_of_ingestRepository {s : Store} {f : RepositoryFact} {reply : RepositoryReply}
    (h : (ingestRepository f s).result = .ok reply) :
    reply.branchName = branchMeant f.branchName ∧
      reply.commitId = (((ingestRepository f s).store.latestComplete (displayName f.repositoryName)
        f.landscapeToken reply.branchName).map Commit.hash).getD "" := by
  unfold ingestRepository at h ⊢
  by_cases hname : (displayName f.repositoryName).isEmpty = true
  · simp only [hname, if_true] at h
    cases h
  · simp only [hname, Bool.false_eq_true, if_false] at h ⊢
    let P : RepositoryReply → Store → Prop := fun reply s =>
      reply.branchName = branchMeant f.branchName ∧
        reply.commitId = ((s.latestComplete (displayName f.repositoryName) f.landscapeToken
          reply.branchName).map Commit.hash).getD ""
    refine last_of_bind P (fun r => last_of_bind P fun _ => last_of_bind P fun _ s reply h => ?_)
      s reply h
    -- the reply is made of the store that is left
    rw [store_bind] at h ⊢
    cases h
    exact ⟨rfl, rfl⟩

end Edit

/-- What static analysis has to say of the two files that the commits of `sample` have. -/
def Ingestion.sampleFiles : List Ingestion :=
  [.file { landscapeToken := "t", repositoryName := "shop", fileHash := "h1" },
    .file { landscapeToken := "t", repositoryName := "org/shop", fileHash := "h2" }]

namespace Store

/-- The calls that describe revisions decide which commits are complete. -/
structure Completeness (calls : List Ingestion) (s : Store) : Prop where
  /-- A revision is described if and only if one of the calls told of it. -/
  described : ∀ f ∈ s.files, f.hasFileData = true ↔ Ingestion.ToldOf calls f.id
  /-- It stays so whatever is called later. -/
  forever : ∀ more, (∅ : Store).idsIssued (calls ++ more) < 2 ^ 64 →
    ∀ f ∈ s.files, f.hasFileData = true →
      ∃ f' ∈ (s.after more).files, f'.id = f.id ∧ f'.hasFileData = true
  isSome : ∀ repository token branch, (s.latestComplete repository token branch).isSome ↔
    ∃ c, s.CompleteOn repository token branch c
  least : ∀ repository token branch c, s.latestComplete repository token branch = some c ↔
    s.CompleteOn repository token branch c ∧
      ∀ d, s.CompleteOn repository token branch d → d ≠ c → Commit.byDate c d = .lt
  /-- The query for the latest commit answers with that commit, or fails if there is none. -/
  query : ∀ repository token branch,
    (∀ c, s.latestComplete repository token branch = some c →
      s.latestCommit token repository branch = .ok (s.summary repository branch c)) ∧
    (s.latestComplete repository token branch = none →
      s.latestCommit token repository branch = .error (.noCompleteCommit repository branch))
  /-- So does the reply to a repository fact, of the store that the fact leaves. -/
  reply : ∀ f reply, (Edit.ingestRepository f s).result = .ok reply →
    reply.branchName = branchMeant f.branchName ∧
      reply.commitId = (((s.after [.repository f]).latestComplete (displayName f.repositoryName)
        f.landscapeToken reply.branchName).map Commit.hash).getD ""

/-- Wherever ingestion has led to, a commit is complete if its revisions were told of, each by
some call at a time when it could be found, and the first complete one of a branch is the latest. -/
theorem completeness (calls : List Ingestion) (hids : (∅ : Store).idsIssued calls < 2 ^ 64) :
    ((∅ : Store).after calls).Completeness calls := by
  obtain ⟨owner, hs⟩ := sound_after_empty calls hids
  exact {
    described := fun f hf => by
      rw [← isDescribed_of_mem hf]
      exact isDescribed_after_iff calls hids f.id
    forever := fun more hmore f hf hdata => by
      rw [idsIssued_append] at hmore
      obtain ⟨f', hf', hk⟩ := (hs.after hmore).2.files.mem hf
      exact ⟨f', hf', hk.id, hk.described hdata⟩
    isSome := fun _ _ _ => hs.keyed.isSome_latestComplete
    least := fun _ _ _ _ => hs.latestComplete_eq_some_iff
    query := fun repository token branch => by
      unfold latestCommit
      constructor
      · intro c hc
        rw [hc]
      · intro hnone
        rw [hnone]
    reply := fun f reply h => by
      have hafter : ((∅ : Store).after calls).after [.repository f]
          = (Edit.ingestRepository f ((∅ : Store).after calls)).store := (Edit.forget_apply _ _).1
      rw [hafter]
      exact Edit.commitId_of_ingestRepository h }

/-- A commit with two files is complete when both have been told of, and not before that. -/
theorem completeness_sample :
    (∅ : Store).idsIssued (Ingestion.sample ++ Ingestion.sampleFiles) < 2 ^ 64 ∧
      (((∅ : Store).after (Ingestion.sample ++ Ingestion.sampleFiles.take 1)).latestComplete
        "shop" "t" "main").isNone = true ∧
      ((((∅ : Store).after (Ingestion.sample ++ Ingestion.sampleFiles)).latestComplete
        "shop" "t" "main").map Commit.hash) = some "c2" ∧
      ((∅ : Store).after (Ingestion.sample ++ Ingestion.sampleFiles)).Completeness
        (Ingestion.sample ++ Ingestion.sampleFiles) :=
  ⟨by decide +kernel, by decide +kernel, by decide +kernel,
    completeness (Ingestion.sample ++ Ingestion.sampleFiles) (by decide +kernel)⟩

end Store

end Cityscape
