import Cityscape.Proofs.Step

/-!
# `Untouched`: what a call leaves as it is

Read off the list of steps: a call changes no commit but the one it is about, and the only other
commit that it may add is the parent that is named, of which nothing is known.
-/

namespace Cityscape

namespace Store

/-- A commit stays as it is, and no repository comes to contain it. -/
structure SameCommit (id : NodeId) (s s' : Store) : Prop where
  commit : s'.commits.get? id = s.commits.get? id
  holders : ∀ r' ∈ s'.repositories, id ∈ r'.commits →
    ∃ r ∈ s.repositories, r.id = r'.id ∧ id ∈ r.commits

namespace SameCommit

variable {id : NodeId} {s s' s'' : Store}

theorem of_eq (hc : s'.commits = s.commits) (hr : s'.repositories = s.repositories) :
    SameCommit id s s' where
  commit := by rw [hc]
  holders r' hr' hid := ⟨r', hr ▸ hr', .refl _, hid⟩

theorem rfl : SameCommit id s s := of_eq (.refl _) (.refl _)

theorem mem {c : Commit} (h : SameCommit c.id s s') (hc : c ∈ s.commits) : c ∈ s'.commits :=
  Sorted.mem_of_get? (h.commit.trans (Sorted.get?_key hc))

theorem trans (h : SameCommit id s s') (h' : SameCommit id s' s'') : SameCommit id s s'' where
  commit := h'.commit.trans h.commit
  holders r'' hr'' hid := by
    obtain ⟨r', hr', hid', hmem'⟩ := h'.holders r'' hr'' hid
    obtain ⟨r, hr, hid'', hmem⟩ := h.holders r' hr' hmem'
    exact ⟨r, hr, hid''.trans hid', hmem⟩

end SameCommit

/-- All commits stay as they are. -/
def SameCommits (s s' : Store) : Prop := ∀ id, SameCommit id s s'

namespace SameCommits

theorem rfl {s : Store} : s.SameCommits s := fun _ => .rfl

theorem trans {s s' s'' : Store} (h : s.SameCommits s') (h' : s'.SameCommits s'') :
    s.SameCommits s'' := fun id => (h id).trans (h' id)

end SameCommits

end Store

variable {owner : NodeId → String} {t : String} {k : Topic} {n j : Nat} {s s' : Store}

/-- The call is about another commit, or about none. -/
def Topic.Spares (k : Topic) (t : String) (c : Commit) : Prop :=
  ∀ hash parent, k = .commit hash parent → (c.token, c.hash) ≠ (t, hash)

namespace Step

/-- A step leaves all commits as they are but the one that the call is about. -/
theorem sameCommit (h : Step owner t k j s s') (hs : s.Numbered n) (hn : n + j < 2 ^ 64)
    {c : Commit} (hc : c ∈ s.commits) (spared : k.Spares t c) : s.SameCommit c.id s' := by
  have same : ∀ {s' : Store}, s'.commits = s.commits → s'.repositories = s.repositories →
      s.SameCommit c.id s' := fun hc hr => .of_eq hc hr
  cases h with
  | newRepository fresh own own' =>
    refine ⟨.refl _, fun r hr hid => ?_⟩
    rcases Sorted.mem_insert.1 hr with rfl | ⟨hr, -⟩
    · exact absurd hid (Sorted.not_mem_empty c.id)
    · exact ⟨r, hr, .refl _, hid⟩
  | newBranch topic mem token fresh own =>
    refine ⟨.refl _, fun r hr hid => ?_⟩
    rcases Sorted.mem_insert.1 hr with rfl | ⟨hr, -⟩
    · exact ⟨_, mem, .refl _, hid⟩
    · exact ⟨r, hr, .refl _, hid⟩
  | @contain _ _ _ x mem token memCommit tokenCommit =>
    -- the repository comes to contain the commit of the call, which is another one
    have hne : c.id ≠ x.id := by
      intro he
      obtain rfl := Sorted.eq_of_key_eq hc memCommit he
      exact spared _ _ rfl (Prod.ext tokenCommit rfl)
    refine ⟨.refl _, fun r hr hid => ?_⟩
    rcases Sorted.mem_insert.1 hr with rfl | ⟨hr, -⟩
    · exact ⟨_, mem, .refl _, (SortedSet.mem_insert.1 hid).resolve_left hne⟩
    · exact ⟨r, hr, .refl _, hid⟩
  | newCommit named fresh own =>
    have hne : c.id ≠ ⟨s.nextId⟩ := hs.ne_next hn (hs.commits c hc)
    refine ⟨?_, fun r hr hid => ⟨r, hr, .refl _, hid⟩⟩
    show (s.commits.insert _).get? c.id = s.commits.get? c.id
    rw [Sorted.get?_insert, if_neg hne]
  | @commit _ _ x x' mem token kept fits =>
    -- the commit that changes is that of the call
    have hne : c.id ≠ x'.id := by
      intro he
      obtain rfl := Sorted.eq_of_key_eq hc mem (he.trans kept.id)
      exact spared _ _ rfl (Prod.ext token rfl)
    exact ⟨Sorted.get?_insert_of_ne hne _, fun r hr hid => ⟨r, hr, .refl _, hid⟩⟩
  | skip => exact same rfl rfl
  | newTag => exact same rfl rfl
  | newDirectory => exact same rfl rfl
  | newFile => exact same rfl rfl
  | file => exact same rfl rfl
  | newClass => exact same rfl rfl
  | classNode => exact same rfl rfl
  | newFunction => exact same rfl rfl
  | newTracedApplication => exact same rfl rfl
  | newApplication => exact same rfl rfl
  | application => exact same rfl rfl
  | newTrace => exact same rfl rfl
  | trace => exact same rfl rfl
  | newSpan => exact same rfl rfl
  | span => exact same rfl rfl

/-- A commit that a step adds is one that the fact names, and nothing is known of it. -/
theorem commit_origin (h : Step owner t k j s s') {c' : Commit} (hc : c' ∈ s'.commits) :
    (∃ c ∈ s.commits, c.Kept c') ∨
      (∃ hash parent, k = .commit hash parent ∧ (c'.hash = hash ∨ parent = some c'.hash)) ∧
        c' = { id := ⟨s.nextId⟩, token := t, hash := c'.hash } ∧
        s'.repositories = s.repositories ∧ j = 1 := by
  have old : s'.commits = s.commits → ∃ c ∈ s.commits, c.Kept c' :=
    fun he => ⟨c', he ▸ hc, .rfl⟩
  cases h with
  | newCommit named fresh own =>
    rcases Sorted.mem_insert.1 hc with rfl | ⟨hc, -⟩
    · exact .inr ⟨⟨_, _, rfl, named⟩, rfl, rfl, rfl⟩
    · exact .inl ⟨c', hc, .rfl⟩
  | commit mem token kept fits =>
    rcases Sorted.mem_insert.1 hc with rfl | ⟨hc, -⟩
    · exact .inl ⟨_, mem, kept⟩
    · exact .inl ⟨c', hc, .rfl⟩
  | newRepository => exact .inl (old rfl)
  | newBranch => exact .inl (old rfl)
  | contain => exact .inl (old rfl)
  | skip => exact .inl (old rfl)
  | newTag => exact .inl (old rfl)
  | newDirectory => exact .inl (old rfl)
  | newFile => exact .inl (old rfl)
  | file => exact .inl (old rfl)
  | newClass => exact .inl (old rfl)
  | classNode => exact .inl (old rfl)
  | newFunction => exact .inl (old rfl)
  | newTracedApplication => exact .inl (old rfl)
  | newApplication => exact .inl (old rfl)
  | application => exact .inl (old rfl)
  | newTrace => exact .inl (old rfl)
  | trace => exact .inl (old rfl)
  | newSpan => exact .inl (old rfl)
  | span => exact .inl (old rfl)

end Step

namespace Steps

/-- A call leaves all commits as they are but the one it is about. -/
theorem sameCommit (h : Steps owner t k j s s') (hs : s.Sound owner n) (hn : n + j < 2 ^ 64)
    {c : Commit} (hc : c ∈ s.commits) (spared : k.Spares t c) : s.SameCommit c.id s' := by
  induction h with
  | refl => exact .rfl
  | tail first last ih =>
    have same := ih hs (by omega) hc
    obtain ⟨hmid, -⟩ := first.sound_and_grows hs (by omega)
    exact same.trans (last.sameCommit hmid.numbered (by omega) (same.mem hc) spared)

/-- A commit that a call adds is one that the fact names. If the call is not about it, nothing is
known of it and no repository contains it. -/
theorem commit_origin (h : Steps owner t k j s s') (hs : s.Sound owner n) (hn : n + j < 2 ^ 64)
    {c' : Commit} (hc : c' ∈ s'.commits) (spared : k.Spares t c') :
    (c' ∈ s.commits ∧ s.SameCommit c'.id s') ∨
      (∃ hash, k = .commit hash (some c'.hash)) ∧
        c' = { id := c'.id, token := t, hash := c'.hash } ∧
        ∀ r ∈ s'.repositories, c'.id ∉ r.commits := by
  induction h generalizing c' with
  | refl => exact .inl ⟨hc, .rfl⟩
  | @tail _ _ s s₁ s' first last ih =>
    obtain ⟨hmid, -⟩ := first.sound_and_grows hs (by omega)
    rcases last.commit_origin hc with
      ⟨c, hc₁, hk⟩ | ⟨⟨hash, parent, rfl, named⟩, hblank, hrepos, rfl⟩
    · have spared₁ : k.Spares t c := by
        intro hash parent he
        rw [← hk.token, ← hk.hash]
        exact spared hash parent he
      have same := last.sameCommit hmid.numbered (by omega) hc₁ spared₁
      obtain rfl := Sorted.eq_of_key_eq hc (same.mem hc₁) hk.id
      rcases ih hs (by omega) hc₁ spared with ⟨hc₀, same₀⟩ | ⟨hnamed, hblank, hfree⟩
      · exact .inl ⟨hc₀, same₀.trans same⟩
      · refine .inr ⟨hnamed, hblank, fun r hr hmem => ?_⟩
        obtain ⟨r₁, hr₁, -, hmem₁⟩ := same.holders r hr hmem
        exact hfree r₁ hr₁ hmem₁
    · have htoken : c'.token = t := by rw [hblank]
      have hother : c'.hash ≠ hash := fun he => spared hash parent rfl (Prod.ext htoken he)
      obtain rfl := named.resolve_left hother
      refine .inr ⟨⟨hash, rfl⟩, ?_, fun r hr hmem => ?_⟩
      · rw [hblank]
      · -- what a repository contains had been there before the commit was added
        rw [hrepos] at hr
        obtain ⟨x, hx, -⟩ := (hmid.fitting.repositories r hr).commits c'.id hmem
        have hid : c'.id = ⟨s₁.nextId⟩ := by rw [hblank]
        rw [hid, hmid.numbered.get?_next (by omega) hmid.numbered.commits] at hx
        cases hx

end Steps

end Cityscape
