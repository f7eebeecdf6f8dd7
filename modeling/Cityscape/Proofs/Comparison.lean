import Cityscape.Proofs.Owners

/-!
# `Comparison`: the landscape of two commits

The landscape of two commits is their union, and what both have is shown as the first one has
it (`Landscape.UnionOf`). So the order of the commits matters only where they show something
under one id in different ways: comparing them in either order gives the same, up to the order
of lists, if and only if there is no such thing (`Store.union_of_compare`). A renamed file is
one, since its id is the hash of its content (`Store.renamed_building`).
-/

namespace Cityscape

namespace Landscape

variable {l l' a b : Landscape}

/-- Both landscapes show the same, and list it in another order at most. -/
structure SameUpToOrder (l l' : Landscape) : Prop where
  token : l.landscapeToken = l'.landscapeToken
  entity : ∀ κ k, l.entity? κ k = l'.entity? κ k
  list : ∀ link k, (l.list link k).Perm (l'.list link k)

/-- What both landscapes have is alike in them. -/
def Compatible (a b : Landscape) : Prop :=
  ∀ κ k e e', a.entity? κ k = some e → b.entity? κ k = some e' → e = e'

/-- The landscape has what `a` or `b` have, and shows what both have as `a` does. A district is
listed where it says; everything else where `a` or `b` list it. -/
structure UnionOf (l a b : Landscape) : Prop where
  token : l.landscapeToken = a.landscapeToken ∧ l.landscapeToken = b.landscapeToken
  entity : ∀ κ k, l.entity? κ k = (a.entity? κ k).or (b.entity? κ k)
  list : ∀ link k x, link.child ≠ .district →
    (x ∈ l.list link k ↔ x ∈ a.list link k ∨ x ∈ b.list link k)
  districts : ∀ link k x, link.child = .district →
    (x ∈ l.list link k ↔ ∃ e, l.entity? .district x = some e ∧ e.parent link = some k)
  nodup : ∀ link k, (l.list link k).Nodup

/-- In a well-formed landscape a district is listed where it says. -/
theorem WellFormed.mem_districts (hl : l.WellFormed) {link : Link} (hlink : link.child = .district)
    (k x : String) :
    x ∈ l.list link k ↔ ∃ e, l.entity? .district x = some e ∧ e.parent link = some k := by
  constructor
  · intro hx
    obtain ⟨e, he⟩ := has_iff.1 (hlink ▸ hl.listed link k x hx)
    exact ⟨e, he, (hl.districts link k x e hlink he).1 hx⟩
  · rintro ⟨e, he, hp⟩
    exact (hl.districts link k x e hlink he).2 hp

/-- A union does not see the order of its parts if and only if these are compatible. -/
theorem UnionOf.sameUpToOrder_iff (h : l.UnionOf a b) (h' : l'.UnionOf b a) :
    l.SameUpToOrder l' ↔ a.Compatible b := by
  constructor
  case mp =>
    intro hsame κ k e e' he he'
    have hboth := hsame.entity κ k
    rw [h.entity, h'.entity, he, he'] at hboth
    exact Option.some.inj hboth
  case mpr =>
    intro hcompatible
    have hentity : ∀ κ k, l.entity? κ k = l'.entity? κ k := by
      intro κ k
      rw [h.entity, h'.entity]
      cases ha : a.entity? κ k with
      | none => rw [Option.none_or, Option.or_none]
      | some e =>
        cases hb : b.entity? κ k with
        | none => rfl
        | some e' => exact congrArg some (hcompatible κ k e e' ha hb)
    refine ⟨h.token.1.trans h'.token.2.symm, hentity, fun link k => ?_⟩
    refine (List.perm_ext_iff_of_nodup (h.nodup link k) (h'.nodup link k)).2 fun x => ?_
    by_cases hlink : link.child = .district
    · rw [h.districts link k x hlink, h'.districts link k x hlink]
      simp only [hentity]
    · rw [h.list link k x hlink, h'.list link k x hlink, or_comm]

end Landscape

/-- A file that a second commit has under another name. -/
def Ingestion.sampleRenamed : List Ingestion :=
  [.repository { landscapeToken := "t", repositoryName := "r", branchName := "main" },
    .commit
      { landscapeToken := "t", repositoryName := "r", branchName := "main", commitHash := "a"
        addedFiles := [⟨"h", "old.rs"⟩] },
    .commit
      { landscapeToken := "t", repositoryName := "r", branchName := "main", commitHash := "b"
        parentCommitHash := some "a", addedFiles := [⟨"h", "new.rs"⟩] }]

namespace Store

variable {owner : NodeId → String} {n : Nat} {s : Store} {token : String}

/-- The landscape of two commits of a sound store is the union of their landscapes. -/
theorem Sound.unionOf_ofCommits (hs : s.Sound owner n) (token : String) (c d : Commit) :
    (Landscape.ofCommits token [s.drawn c, s.drawn d]).UnionOf
      (Landscape.ofCommits token [s.drawn c]) (Landscape.ofCommits token [s.drawn d]) := by
  obtain ⟨newc, -, htells, hmc⟩ := Landscape.uniform_drawCommit hs (s.cityName c.id) c
  obtain ⟨newd, -, -, hmd⟩ := Landscape.uniform_drawCommit hs (s.cityName d.id) d
  have hnone := faithful_ofToken s token
  -- `d` brings the same onto the landscape of `c` as onto the empty one
  have hc := hmc (Landscape.ofToken token) hnone fun _ _ => False.elim
  have hcd := hmd _ (hc.faithful hnone htells) fun _ _ => False.elim
  have hd := hmd (Landscape.ofToken token) hnone fun _ _ => False.elim
  have hl := (Landscape.wellFormed_ofCommits token [s.drawn c, s.drawn d]).1
  constructor
  case token => exact ⟨hcd.token, (hcd.token.trans hc.token).trans hd.token.symm⟩
  case entity =>
    intro κ k
    have hempty : (Landscape.ofToken token).entity? κ k = none := by cases κ <;> rfl
    have hdnew := hd.entity κ k
    rw [hempty, Option.none_or] at hdnew
    exact (hcd.entity κ k).trans (congrArg _ hdnew.symm)
  case list =>
    intro link k x hlink
    have hempty : x ∉ (Landscape.ofToken token).list link k := by
      cases link <;> exact List.not_mem_nil
    have hdplaced := hd.list link k x hlink
    rw [or_iff_right hempty] at hdplaced
    exact (hcd.list link k x hlink).trans (or_congr_right hdplaced.symm)
  case districts => exact fun link k x hlink => hl.mem_districts hlink k x
  case nodup => exact hl.nodup

/-- The landscape of one commit is the union of itself and itself. -/
theorem unionOf_self (s : Store) (token : String) (c : Commit) :
    (Landscape.ofCommits token [s.drawn c]).UnionOf
      (Landscape.ofCommits token [s.drawn c]) (Landscape.ofCommits token [s.drawn c]) where
  token := ⟨rfl, rfl⟩
  entity _ _ := Option.or_self.symm
  list _ _ _ _ := (or_self _).to_iff.symm
  districts _ k x hlink := (Landscape.wellFormed_ofCommits token _).1.mem_districts hlink k x
  nodup := (Landscape.wellFormed_ofCommits token _).1.nodup

/-- Commits whose hashes are known are found. -/
theorem commitsNamed_eq_ok {hashes : List String} {commits : List Commit}
    (h : List.Forall₂ (fun hash c => s.findCommit token hash = some c) hashes commits) :
    s.commitsNamed token hashes = .ok commits := by
  induction h with
  | nil => rfl
  | cons hc _ ih =>
    unfold commitsNamed
    rw [hc, ih]
    rfl

/-- The commits that a selector names by hashes that are known. -/
theorem structureOf_eq_ok {selector : Selector} {commits : List Commit}
    (hlatest : selector ≠ .latest) (hne : commits ≠ [])
    (hknown : List.Forall₂ (fun hash c => s.findCommit token hash = some c)
      selector.hashes commits) :
    s.structureOf token selector = .ok (Landscape.ofCommits token (commits.map s.drawn)) := by
  have hselected : s.commitsSelected token selector = .ok commits := by
    cases selector with
    | latest => exact absurd rfl hlatest
    | commit => exact commitsNamed_eq_ok hknown
    | compare => exact commitsNamed_eq_ok hknown
  rw [structureOf_eq, hselected]
  exact if_neg hne

/-- After any calls, for two known commits: the landscape of both is the union of their
landscapes, in which the first one decides. So both orders give the same, up to the order of
lists, if and only if the two commits show alike what both show. -/
theorem union_of_compare (calls : List Ingestion) (token a b : String)
    (hids : (∅ : Store).idsIssued calls < 2 ^ 64)
    (ha : (((∅ : Store).after calls).findCommit token a).isSome)
    (hb : (((∅ : Store).after calls).findCommit token b).isSome) :
    ∃ la lb lab lba,
      ((∅ : Store).after calls).structureOf token (.commit a) = .ok la ∧
      ((∅ : Store).after calls).structureOf token (.commit b) = .ok lb ∧
      ((∅ : Store).after calls).structureOf token (.compare a b) = .ok lab ∧
      ((∅ : Store).after calls).structureOf token (.compare b a) = .ok lba ∧
      lab.UnionOf la lb ∧ lba.UnionOf lb la ∧ (lab.SameUpToOrder lba ↔ la.Compatible lb) := by
  obtain ⟨owner, hs⟩ := sound_after_empty calls hids
  generalize (∅ : Store).after calls = s at hs ha hb
  obtain ⟨c, hc⟩ := Option.isSome_iff_exists.1 ha
  obtain ⟨d, hd⟩ := Option.isSome_iff_exists.1 hb
  have hone : ∀ {selector : Selector} {hash : String} {c : Commit}, selector ≠ .latest →
      selector.hashes = [hash] → s.findCommit token hash = some c →
      s.structureOf token selector = .ok (Landscape.ofCommits token [s.drawn c]) := by
    intro selector hash c hlatest hhashes hc
    refine structureOf_eq_ok hlatest (List.cons_ne_nil c []) ?_
    rw [hhashes]
    exact .cons hc .nil
  have hla := hone (Selector.noConfusion : Selector.commit a ≠ .latest) rfl hc
  have hlb := hone (Selector.noConfusion : Selector.commit b ≠ .latest) rfl hd
  by_cases hab : a = b
  · subst hab
    obtain rfl := Option.some.inj (hc.symm.trans hd)
    have hboth := hone (Selector.noConfusion : Selector.compare a a ≠ .latest) (if_pos rfl) hc
    have hunion := s.unionOf_self token c
    exact ⟨_, _, _, _, hla, hlb, hboth, hboth, hunion, hunion, hunion.sameUpToOrder_iff hunion⟩
  · have htwo : ∀ {a b : String} {c d : Commit}, a ≠ b → s.findCommit token a = some c →
        s.findCommit token b = some d → s.structureOf token (.compare a b)
          = .ok (Landscape.ofCommits token [s.drawn c, s.drawn d]) := by
      intro a b c d hne hc hd
      have hhashes : (Selector.compare a b).hashes = [a, b] := if_neg hne
      refine structureOf_eq_ok Selector.noConfusion (List.cons_ne_nil c [d]) ?_
      rw [hhashes]
      exact .cons hc (.cons hd .nil)
    have hunion := hs.unionOf_ofCommits token c d
    have hunion' := hs.unionOf_ofCommits token d c
    exact ⟨_, _, _, _, hla, hlb, htwo hab hc hd, htwo (Ne.symm hab) hd hc, hunion, hunion',
      hunion.sameUpToOrder_iff hunion'⟩

theorem union_of_compare_sample :
    (∅ : Store).idsIssued Ingestion.sampleRenamed < 2 ^ 64 ∧
      ∃ la lb lab, ((∅ : Store).after Ingestion.sampleRenamed).structureOf "t" (.commit "a") = .ok la ∧
        ((∅ : Store).after Ingestion.sampleRenamed).structureOf "t" (.commit "b") = .ok lb ∧
        ((∅ : Store).after Ingestion.sampleRenamed).structureOf "t" (.compare "a" "b") = .ok lab ∧
        lab.UnionOf la lb := by
  have hids : (∅ : Store).idsIssued Ingestion.sampleRenamed < 2 ^ 64 := by decide +kernel
  obtain ⟨la, lb, lab, -, hla, hlb, hlab, -, hunion, -⟩ :=
    union_of_compare Ingestion.sampleRenamed "t" "a" "b" hids (by decide +kernel)
      (by decide +kernel)
  exact ⟨hids, la, lb, lab, hla, hlb, hlab, hunion⟩

/-- The name of the building with the content `h` in the landscape of a selector. -/
def sampleName (selector : Selector) : Option String :=
  match ((∅ : Store).after Ingestion.sampleRenamed).structureOf "t" selector with
  | .ok l => (l.entity? .building "h").map Entity.name
  | .error _ => none

/-- The renamed file has its old name or its new one, depending on the order of the commits. -/
theorem renamed_building : ∃ lab lba,
    ((∅ : Store).after Ingestion.sampleRenamed).structureOf "t" (.compare "a" "b") = .ok lab ∧
      ((∅ : Store).after Ingestion.sampleRenamed).structureOf "t" (.compare "b" "a") = .ok lba ∧
      (lab.entity? .building "h").map Entity.name = some "old.rs" ∧
      (lba.entity? .building "h").map Entity.name = some "new.rs" ∧ ¬lab.SameUpToOrder lba := by
  have hold : sampleName (.compare "a" "b") = some "old.rs" := by decide +kernel
  have hnew : sampleName (.compare "b" "a") = some "new.rs" := by decide +kernel
  unfold sampleName at hold hnew
  split at hold
  · rename_i lab hlab
    split at hnew
    · rename_i lba hlba
      refine ⟨lab, lba, hlab, hlba, hold, hnew, fun hsame => ?_⟩
      rw [hsame.entity, hnew] at hold
      exact absurd hold (by decide)
    · cases hnew
  · cases hold

end Store

end Cityscape
