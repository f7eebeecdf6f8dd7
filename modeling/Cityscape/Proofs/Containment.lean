import Cityscape.Proofs.Edges
import Mathlib.Logic.Relation

/-!
# `Containment`: when directories stay trees

A directory may be hung below another one if it has no other parent and is not that directory
itself. These checks look at the two directories only. So a directory can be hung below one that
lies in it, and the two then lie in each other for good (`Store.lies_in_itself`).

That is all that can go wrong. As long as no call does so, no directory comes to lie in itself and
each way up ends, and once a call has done so this is never so again (`Store.rooted_iff`).
-/

namespace Cityscape

/-! ## Ways up -/

section WaysUp

variable {up up' : NodeId → Option NodeId} {a b i j top : NodeId}

/-- The second id is that of the parent of the first one. -/
def StepsTo (up : NodeId → Option NodeId) (i j : NodeId) : Prop := up i = some j

/-- A way that ends does not come back. -/
theorem not_transGen_of_ends (h : Relation.ReflTransGen (StepsTo up) i top) (htop : up top = none) :
    ¬Relation.TransGen (StepsTo up) i i := by
  induction h using Relation.ReflTransGen.head_induction_on with
  | refl =>
    intro hcycle
    obtain ⟨j, hj, -⟩ := Relation.TransGen.head'_iff.1 hcycle
    cases htop.symm.trans hj
  | @head i k hstep _ ih =>
    intro hcycle
    obtain ⟨j, hj, hback⟩ := Relation.TransGen.head'_iff.1 hcycle
    obtain rfl : k = j := Option.some.inj (hstep.symm.trans hj)
    exact ih (.tail' hback hstep)

/-- The way up from an id ends at one of a kind. -/
def EndsAt (kind : NodeId → Prop) (up : NodeId → Option NodeId) (i : NodeId) : Prop :=
  ∃ top, kind top ∧ Relation.ReflTransGen (StepsTo up) i top ∧ up top = none

/-- If a directory without a parent is hung below one that does not lie in it, ways up end as
before, or go on there and end. -/
theorem EndsAt.of_hang {kind : NodeId → Prop} (hi : EndsAt kind up i) (ha : EndsAt kind up a)
    (hb : up b = none) (hb' : up' b = some a) (hother : ∀ i, i ≠ b → up' i = up i)
    (hfree : ¬Relation.ReflTransGen (StepsTo up) a b) : EndsAt kind up' i := by
  have hgrow : ∀ i j, StepsTo up i j → StepsTo up' i j := by
    intro i j h
    have hne : i ≠ b := by
      rintro rfl
      cases hb.symm.trans h
    exact (hother i hne).trans h
  obtain ⟨top, hkind, hway, htop⟩ := hi
  obtain ⟨top', hkind', hway', htop'⟩ := ha
  by_cases hcase : top = b
  · have hne : top' ≠ b := by
      rintro rfl
      exact hfree hway'
    have hi' : Relation.ReflTransGen (StepsTo up') i b :=
      hcase ▸ Relation.ReflTransGen.mono hgrow i top hway
    have ha' := Relation.ReflTransGen.mono hgrow a top' hway'
    exact ⟨top', hkind', (hi'.tail hb').trans ha', (hother top' hne).trans htop'⟩
  · exact ⟨top, hkind, Relation.ReflTransGen.mono hgrow i top hway, (hother top hcase).trans htop⟩

end WaysUp

namespace Store

/-! ## Hanging directories below others -/

/-- The second directory is the parent of the first one. -/
def LiesIn (s : Store) : NodeId → NodeId → Prop := StepsTo (s.parentOf .directory)

/-- No directory has a parent. -/
def Loose (s : Store) : Prop := ∀ d ∈ s.directories, d.parent = none

/-- No directory lies in itself, and the way up from each one ends at one without a parent. -/
structure Rooted (s : Store) : Prop where
  acyclic : ∀ id, ¬Relation.TransGen s.LiesIn id id
  ends : ∀ id, s.Has .directory id → EndsAt (s.Has .directory) (s.parentOf .directory) id

/-- The store after it has been asked to hang directory `b` below directory `a`. -/
def hang (s : Store) (a b : NodeId) : Store := (Edit.mergeEdge .directorySubdirectory a b s).store

/-- The store after it has been asked for all that, one after another. -/
def hangAll (s : Store) (edges : List (NodeId × NodeId)) : Store :=
  edges.foldl (fun s e => s.hang e.1 e.2) s

/-- Directory `b` may be hung below directory `a`, though `a` lies in it. -/
def Closes (s : Store) (a b : NodeId) : Prop :=
  (∃ isNew, (Edit.mergeEdge .directorySubdirectory a b s).result = .ok isNew) ∧
    Relation.TransGen s.LiesIn a b

/-- None of the calls hangs a directory below one that lies in it. -/
def NeverCloses (s : Store) : List (NodeId × NodeId) → Prop
  | [] => True
  | e :: edges => ¬s.Closes e.1 e.2 ∧ (s.hang e.1 e.2).NeverCloses edges

variable {s s' : Store} {a b i j : NodeId}

/-- A call is refused and changes nothing, or the edge is there afterwards. -/
theorem hang_cases (s : Store) (a b : NodeId) :
    (s.hang a b = s ∧
        ¬∃ isNew, (Edit.mergeEdge .directorySubdirectory a b s).result = .ok isNew) ∨
      s.Linkable .directorySubdirectory a b ∧
        s.hang a b = s.withEdge .directorySubdirectory a b ∧
        ∃ isNew, (Edit.mergeEdge .directorySubdirectory a b s).result = .ok isNew := by
  unfold hang
  by_cases hlink : s.Linkable .directorySubdirectory a b
  · rw [mergeEdge_of_linkable hlink]
    exact .inr ⟨hlink, rfl, _, rfl⟩
  · obtain ⟨e, he⟩ := mergeEdge_of_not_linkable hlink
    rw [he]
    refine .inl ⟨rfl, ?_⟩
    rintro ⟨_, h⟩
    cases h

theorem liesIn_withEdge (h : s.Linkable .directorySubdirectory a b) :
    (s.withEdge .directorySubdirectory a b).LiesIn b a :=
  parentOf_withEdge (.inl rfl) h.target

theorem parentOf_withEdge_directory (h : i ≠ b) :
    (s.withEdge .directorySubdirectory a b).parentOf .directory i = s.parentOf .directory i :=
  parentOf_withEdge_of_ne fun _ he => h (Prod.ext_iff.1 he).2

/-- Directories keep their parents. -/
theorem liesIn_hang (h : s.LiesIn i j) (a b : NodeId) : (s.hang a b).LiesIn i j := by
  rcases s.hang_cases a b with ⟨heq, -⟩ | ⟨hlink, heq, -⟩
  · rwa [heq]
  · rw [heq]
    by_cases hi : i = b
    · have hparent : s.parentOf .directory b = some j := hi ▸ h
      obtain rfl : j = a := by
        rcases hlink.parent (.inl rfl) with hnone | hsome
        · cases hparent.symm.trans hnone
        · exact Option.some.inj (hparent.symm.trans hsome)
      rw [hi]
      exact liesIn_withEdge hlink
    · exact (parentOf_withEdge_directory hi).trans h

theorem liesIn_hangAll (h : s.LiesIn i j) (edges : List (NodeId × NodeId)) :
    (s.hangAll edges).LiesIn i j := by
  induction edges generalizing s with
  | nil => exact h
  | cons e edges ih => exact ih (liesIn_hang h e.1 e.2)

theorem has_hang (s : Store) (a b id : NodeId) :
    (s.hang a b).Has .directory id ↔ s.Has .directory id := by
  rcases s.hang_cases a b with ⟨heq, -⟩ | ⟨-, heq, -⟩
  · rw [heq]
  · rw [heq]
    exact has_withEdge .directory

/-- If all ways up end, no directory lies in itself. -/
theorem rooted_of_ends (hlies : ∀ i j, s.LiesIn i j → s.Has .directory i)
    (hends : ∀ id, s.Has .directory id → EndsAt (s.Has .directory) (s.parentOf .directory) id) :
    s.Rooted where
  acyclic id hcycle := by
    obtain ⟨j, hj, -⟩ := Relation.TransGen.head'_iff.1 hcycle
    obtain ⟨top, -, hway, htop⟩ := hends id (hlies id j hj)
    exact not_transGen_of_ends hway htop hcycle
  ends := hends

theorem has_of_liesIn (h : s.LiesIn i j) : s.Has .directory i := by
  obtain ⟨d, hd, -⟩ := Option.bind_eq_some_iff.1 h
  exact Option.isSome_iff_exists.2 ⟨d, hd⟩

theorem Loose.rooted (h : s.Loose) : s.Rooted := by
  refine rooted_of_ends (fun _ _ => has_of_liesIn) fun id hid => ⟨id, hid, .refl, ?_⟩
  obtain ⟨d, hd⟩ := Option.isSome_iff_exists.1 hid
  exact Option.bind_eq_none_iff.2 fun e he =>
    Option.some.inj (hd.symm.trans he) ▸ h d (Sorted.mem_of_get? hd)

/-- One call that does not hang a directory below one that lies in it. -/
theorem Rooted.hang (h : s.Rooted) (hfree : ¬s.Closes a b) : (s.hang a b).Rooted := by
  rcases s.hang_cases a b with ⟨heq, -⟩ | ⟨hlink, heq, haccept⟩
  · rwa [heq]
  have hnot : ¬Relation.TransGen s.LiesIn a b := fun hway => hfree ⟨haccept, hway⟩
  have hother : ∀ i, i ≠ b → (s.hang a b).parentOf .directory i = s.parentOf .directory i := by
    intro i hi
    rw [heq]
    exact parentOf_withEdge_directory hi
  have hb' : (s.hang a b).parentOf .directory b = some a := by
    rw [heq]
    exact liesIn_withEdge hlink
  refine rooted_of_ends (fun _ _ => has_of_liesIn) fun id hid => ?_
  rw [show (s.hang a b).Has .directory = s.Has .directory from
    funext fun id => propext (has_hang s a b id)] at hid ⊢
  have hid := h.ends id hid
  rcases hlink.parent (.inl rfl) with hnone | hsome
  · refine hid.of_hang (h.ends a hlink.source) hnone hb' hother fun hway => ?_
    rcases Relation.reflTransGen_iff_eq_or_transGen.1 hway with hba | hway
    · exact hlink.proper rfl hba.symm
    · exact hnot hway
  · -- the directory hangs there already
    have hsame : (s.hang a b).parentOf .directory = s.parentOf .directory := by
      funext i
      by_cases hi : i = b
      · rw [hi, hb']
        exact hsome.symm
      · exact hother i hi
    rwa [hsame]

theorem not_closes_of_refused
    (h : (Edit.mergeEdge .directorySubdirectory a b s).result.toOption = none) :
    ¬s.Closes a b := by
  rintro ⟨⟨isNew, haccept⟩, -⟩
  rw [haccept] at h
  cases h

/-- A circle that is closed stays. -/
theorem Closes.not_rooted (h : s.Closes a b) (edges : List (NodeId × NodeId)) :
    ¬((s.hang a b).hangAll edges).Rooted := by
  obtain ⟨haccept, hway⟩ := h
  intro hrooted
  have hgrow : ∀ i j, s.LiesIn i j → ((s.hang a b).hangAll edges).LiesIn i j :=
    fun i j hij => liesIn_hangAll (liesIn_hang hij a b) edges
  have hb : ((s.hang a b).hangAll edges).LiesIn b a := by
    rcases s.hang_cases a b with ⟨-, hrefused⟩ | ⟨hlink, heq, -⟩
    · exact absurd haccept hrefused
    · refine liesIn_hangAll ?_ edges
      rw [heq]
      exact liesIn_withEdge hlink
  exact hrooted.acyclic b (.head hb (Relation.TransGen.mono hgrow a b hway))

theorem Rooted.hangAll_iff (h : s.Rooted) (edges : List (NodeId × NodeId)) :
    (s.hangAll edges).Rooted ↔ s.NeverCloses edges := by
  induction edges generalizing s with
  | nil => exact ⟨fun _ => trivial, fun _ => h⟩
  | cons e edges ih =>
    by_cases hcloses : s.Closes e.1 e.2
    · exact ⟨fun hrooted => absurd hrooted (hcloses.not_rooted edges),
        fun hn => absurd hcloses hn.1⟩
    · exact (ih (h.hang hcloses)).trans ⟨fun hn => ⟨hcloses, hn⟩, And.right⟩

/-- No directory is hung below itself. -/
theorem not_liesIn_self_hang (h : ∀ id, ¬s.LiesIn id id) (a b id : NodeId) :
    ¬(s.hang a b).LiesIn id id := by
  intro hself
  rcases s.hang_cases a b with ⟨heq, -⟩ | ⟨hlink, heq, -⟩
  · exact h id (heq ▸ hself)
  · rw [heq] at hself
    by_cases hid : id = b
    · have hb := liesIn_withEdge hlink
      rw [hid] at hself
      exact hlink.proper rfl (Option.some.inj (hb.symm.trans hself))
    · exact h id ((parentOf_withEdge_directory hid).symm.trans hself)

theorem not_liesIn_self_hangAll (h : ∀ id, ¬s.LiesIn id id) (edges : List (NodeId × NodeId)) :
    ∀ id, ¬(s.hangAll edges).LiesIn id id := by
  induction edges generalizing s with
  | nil => exact h
  | cons e edges ih => exact ih (not_liesIn_self_hang h e.1 e.2)

/-- After any calls that hang directories without edges below others, no directory is its own
parent. No directory lies in itself and all ways up end just if none of the calls that were accepted
hung a directory below one that lay in it. -/
theorem rooted_iff (s : Store) (edges : List (NodeId × NodeId)) (hloose : s.Loose) :
    (∀ id, ¬(s.hangAll edges).LiesIn id id) ∧
      ((s.hangAll edges).Rooted ↔ s.NeverCloses edges) := by
  have hself : ∀ id, ¬s.LiesIn id id := fun id h => hloose.rooted.acyclic id (.single h)
  exact ⟨not_liesIn_self_hangAll hself edges, hloose.rooted.hangAll_iff edges⟩

/-- Two directories that have just been saved. -/
def sampleSaved : Store :=
  ((∅ : Store).saveDirectory { id := 1, name := "a" }).saveDirectory { id := 2, name := "b" }

theorem loose_sampleSaved : sampleSaved.Loose := by
  unfold Loose
  decide +kernel

/-- One directory is hung below the other one; then one call is refused as it would hang a directory
below itself, and another one as there is no such directory. -/
theorem rooted_iff_sample :
    sampleSaved.Loose ∧ (sampleSaved.hangAll [(1, 2), (2, 2), (9, 1)]).Rooted ∧
      (sampleSaved.hangAll [(1, 2), (2, 2), (9, 1)]).LiesIn 2 1 := by
  have hfirst : ¬sampleSaved.Closes 1 2 := by
    rintro ⟨-, hway⟩
    obtain ⟨j, hj, -⟩ := Relation.TransGen.head'_iff.1 hway
    have hnone : sampleSaved.parentOf .directory 1 = none := by decide +kernel
    cases hnone.symm.trans hj
  have hsecond : ¬(sampleSaved.hang 1 2).Closes 2 2 := not_closes_of_refused (by decide +kernel)
  have hthird : ¬((sampleSaved.hang 1 2).hang 2 2).Closes 9 1 :=
    not_closes_of_refused (by decide +kernel)
  have hrooted := rooted_iff sampleSaved [(1, 2), (2, 2), (9, 1)] loose_sampleSaved
  refine ⟨loose_sampleSaved, hrooted.2.2 ⟨hfirst, hsecond, hthird, trivial⟩, ?_⟩
  show Store.parentOf _ _ _ = _
  decide +kernel

/-- Each of two directories can be hung below the other one. Then both lie in themselves, and the
way up from them does not end. -/
theorem lies_in_itself :
    sampleSaved.Loose ∧ Relation.TransGen (sampleSaved.hangAll [(1, 2), (2, 1)]).LiesIn 1 1 ∧
      ∀ id, Relation.ReflTransGen (sampleSaved.hangAll [(1, 2), (2, 1)]).LiesIn 1 id →
        (sampleSaved.hangAll [(1, 2), (2, 1)]).parentOf .directory id ≠ none := by
  have hfirst : (sampleSaved.hangAll [(1, 2), (2, 1)]).LiesIn 1 2 := by
    show Store.parentOf _ _ _ = _
    decide +kernel
  have hsecond : (sampleSaved.hangAll [(1, 2), (2, 1)]).LiesIn 2 1 := by
    show Store.parentOf _ _ _ = _
    decide +kernel
  generalize sampleSaved.hangAll [(1, 2), (2, 1)] = s at hfirst hsecond ⊢
  refine ⟨loose_sampleSaved, .head hfirst (.single hsecond), fun id hway => ?_⟩
  -- from each of the two the way goes on to the other one
  have hone : id = 1 ∨ id = 2 := by
    induction hway with
    | refl => exact .inl rfl
    | tail _ hstep ih =>
      rcases ih with rfl | rfl
      · exact .inr (Option.some.inj (hstep.symm.trans hfirst))
      · exact .inl (Option.some.inj (hstep.symm.trans hsecond))
  rcases hone with rfl | rfl
  · exact fun h => nomatch hfirst.symm.trans h
  · exact fun h => nomatch hsecond.symm.trans h

end Store

end Cityscape
