import Cityscape.Proofs.Calls

/-!
# `Apart`: what belongs to another token

A call touches only what belongs to its own token. Under every other token all nodes stay exactly
as they are; tags belong to no token, and those that there are stay.
-/

namespace Cityscape

/-- Under ids that meet a condition the same is found. -/
def Sorted.SameOn {α : Type} {key : α → NodeId} (P : NodeId → Prop) (t t' : Sorted key) : Prop :=
  ∀ id, P id → t'.get? id = t.get? id

namespace Sorted.SameOn

variable {α : Type} {key : α → NodeId} {P : NodeId → Prop} {t t' t'' : Sorted key}

theorem rfl : t.SameOn P t := fun _ _ => .refl _

theorem trans (h : t.SameOn P t') (h' : t'.SameOn P t'') : t.SameOn P t'' := fun id hid =>
  (h' id hid).trans (h id hid)

/-- What comes in under another id does not matter. -/
theorem insert {x : α} (hx : ¬P (key x)) : t.SameOn P (t.insert x) := by
  intro id hid
  rw [Sorted.get?_insert, if_neg]
  intro he
  exact hx (he ▸ hid)

theorem mem_iff (h : t.SameOn P t') {x : α} (hx : P (key x)) : x ∈ t' ↔ x ∈ t := by
  have ht := @Sorted.get?_eq_some_iff _ _ _ _ _ _ t (key x) x
  have ht' := @Sorted.get?_eq_some_iff _ _ _ _ _ _ t' (key x) x
  rw [h _ hx] at ht'
  simpa using ht'.symm.trans ht

/-- Looking up ids that meet the condition finds the same. -/
theorem filterMap_eq (h : t.SameOn P t') {ids : List NodeId} (hids : ∀ id ∈ ids, P id) :
    ids.filterMap t'.get? = ids.filterMap t.get? :=
  List.filterMap_congr fun id hid => h id (hids id hid)

/-- Elements are filtered out alike if only elements whose ids meet the condition pass. -/
theorem filter_eq (h : t.SameOn P t') {Q : α → Bool} (hQ : ∀ x ∈ t, Q x = true → P (key x))
    (hQ' : ∀ x ∈ t', Q x = true → P (key x)) : t'.toList.filter Q = t.toList.filter Q :=
  Sorted.filter_eq fun x hx =>
    ⟨fun hmem => (h.mem_iff (hQ' x hmem hx)).1 hmem, fun hmem => (h.mem_iff (hQ x hmem hx)).2 hmem⟩

theorem find?_eq (h : t.SameOn P t') {Q : α → Bool} (hQ : ∀ x ∈ t, Q x = true → P (key x))
    (hQ' : ∀ x ∈ t', Q x = true → P (key x)) : t'.toList.find? Q = t.toList.find? Q := by
  rw [← List.head?_filter, ← List.head?_filter, h.filter_eq hQ hQ']

end Sorted.SameOn

namespace Store

/-- What belongs to a token is the same, and no tag is lost. -/
structure SameUnder (owner : NodeId → String) (b : String) (s s' : Store) : Prop where
  repositories : s.repositories.SameOn (fun id => owner id = b) s'.repositories
  branches : s.branches.SameOn (fun id => owner id = b) s'.branches
  commits : s.commits.SameOn (fun id => owner id = b) s'.commits
  tags : s.tags.Grows Eq s'.tags
  directories : s.directories.SameOn (fun id => owner id = b) s'.directories
  files : s.files.SameOn (fun id => owner id = b) s'.files
  classes : s.classes.SameOn (fun id => owner id = b) s'.classes
  functions : s.functions.SameOn (fun id => owner id = b) s'.functions
  applications : s.applications.SameOn (fun id => owner id = b) s'.applications
  traces : s.traces.SameOn (fun id => owner id = b) s'.traces
  spans : s.spans.SameOn (fun id => owner id = b) s'.spans

namespace SameUnder

variable {owner : NodeId → String} {b : String} {s s' s'' : Store}

theorem rfl : s.SameUnder owner b s where
  repositories := .rfl
  branches := .rfl
  commits := .rfl
  tags := .of_eq .refl (.refl _)
  directories := .rfl
  files := .rfl
  classes := .rfl
  functions := .rfl
  applications := .rfl
  traces := .rfl
  spans := .rfl

theorem trans (h : s.SameUnder owner b s') (h' : s'.SameUnder owner b s'') :
    s.SameUnder owner b s'' where
  repositories := h.repositories.trans h'.repositories
  branches := h.branches.trans h'.branches
  commits := h.commits.trans h'.commits
  tags := h.tags.trans (fun _ _ _ => .trans) h'.tags
  directories := h.directories.trans h'.directories
  files := h.files.trans h'.files
  classes := h.classes.trans h'.classes
  functions := h.functions.trans h'.functions
  applications := h.applications.trans h'.applications
  traces := h.traces.trans h'.traces
  spans := h.spans.trans h'.spans

end SameUnder

end Store

open Store

variable {owner : NodeId → String} {t b : String} {k : Topic} {n j : Nat} {s s' : Store}

/-- A step changes nothing under another token than its own. -/
theorem Step.sameUnder (h : Step owner t k j s s') (hs : s.Sound owner n) (hn : n + j < 2 ^ 64)
    (hb : b ≠ t) : s.SameUnder owner b s' := by
  -- whatever comes in has an id of the step's own token
  have off : ∀ {id : NodeId}, owner id = t → ¬owner id = b := fun h h' => hb (h'.symm.trans h)
  cases h with
  | skip => exact { SameUnder.rfl (s := s) with }
  | newRepository fresh own own' =>
    exact { SameUnder.rfl (s := s) with
      directories := .insert (off own)
      repositories := .insert (off own') }
  | newBranch topic mem token fresh own =>
    exact { SameUnder.rfl (s := s) with
      branches := .insert (off own)
      repositories := .insert (off ((hs.fitting.repositories _ mem).own.trans token)) }
  | contain mem token memCommit tokenCommit =>
    exact { SameUnder.rfl (s := s) with
      repositories := .insert (off ((hs.fitting.repositories _ mem).own.trans token)) }
  | newCommit named fresh own =>
    exact { SameUnder.rfl (s := s) with commits := .insert (off own) }
  | commit mem token kept fits =>
    exact { SameUnder.rfl (s := s) with
      commits := .insert (off (fits.own.trans (kept.token.trans token))) }
  | newTag fresh =>
    exact { SameUnder.rfl (s := s) with
      tags := .insert_new .refl (hs.numbered.get?_next hn hs.numbered.tags) }
  | newDirectory topic mem ownParent fresh own =>
    exact { SameUnder.rfl (s := s) with
      directories := (Sorted.SameOn.insert (off ownParent)).trans (.insert (off own)) }
  | newFile topic mem ownParent own =>
    exact { SameUnder.rfl (s := s) with
      directories := .insert (off ownParent)
      files := .insert (off own) }
  | file topic mem own kept fits =>
    exact { SameUnder.rfl (s := s) with files := .insert (off (kept.id ▸ own)) }
  | newClass id own fits =>
    exact { SameUnder.rfl (s := s) with classes := .insert (off (id ▸ own)) }
  | classNode mem own kept fits =>
    exact { SameUnder.rfl (s := s) with classes := .insert (off (kept.id ▸ own)) }
  | newFunction topic id own =>
    exact { SameUnder.rfl (s := s) with functions := .insert (off (id ▸ own)) }
  | newTracedApplication fresh own own' =>
    exact { SameUnder.rfl (s := s) with
      directories := .insert (off own)
      applications := .insert (off own') }
  | newApplication id token fresh fits =>
    exact { SameUnder.rfl (s := s) with applications := .insert (off (fits.own.trans token)) }
  | application mem token kept fits =>
    exact { SameUnder.rfl (s := s) with
      applications := .insert (off (fits.own.trans (kept.token.trans token))) }
  | newTrace id token fresh fits =>
    exact { SameUnder.rfl (s := s) with traces := .insert (off (fits.own.trans token)) }
  | trace mem token kept fits =>
    exact { SameUnder.rfl (s := s) with
      traces := .insert (off (fits.own.trans (kept.token.trans token))) }
  | newSpan id token fresh fits =>
    exact { SameUnder.rfl (s := s) with spans := .insert (off (fits.own.trans token)) }
  | span mem token kept fits =>
    exact { SameUnder.rfl (s := s) with
      spans := .insert (off (fits.own.trans (kept.token.trans token))) }

/-- A call changes nothing under another token than its own. -/
theorem Steps.sameUnder (h : Steps owner t k j s s') (hs : s.Sound owner n) (hn : n + j < 2 ^ 64)
    (hb : b ≠ t) : s.SameUnder owner b s' := by
  induction h with
  | refl => exact .rfl
  | tail first last ih =>
    obtain ⟨hmid, -⟩ := first.sound_and_grows hs (by omega)
    exact (ih hs (by omega)).trans (last.sameUnder hmid (by omega) hb)

end Cityscape
