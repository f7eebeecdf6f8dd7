import Cityscape.Proofs.Branches
import Cityscape.Proofs.Projection
import Cityscape.Proofs.Sound
import Cityscape.Query.Answer

/-!
# `Selection`: the commits behind a landscape

A query for a landscape first finds commits, then loads what is below them, then draws them one
after the other. The first part is `Store.commitsSelected`, which looks at nothing but
repositories and commits. The landscape is that of the commits found; there is none only if no
commit is found or a hash is not known (`Store.structureOf_eq`).
-/

namespace Cityscape

/-- A landscape with a city is not empty. -/
theorem Landscape.isEmpty_eq_false {l : Landscape} {k : String} (h : l.Has .city k) :
    l.isEmpty = false := by
  have hfind : (l.cities.find? k).isSome := Option.isSome_map.symm.trans h
  cases hcities : l.cities.toList with
  | nil =>
    have hnone : l.cities.find? k = none := by
      unfold SortedMap.find? Sorted.get?
      rw [hcities]
      rfl
    rw [hnone] at hfind
    cases hfind
  | cons c cs =>
    unfold isEmpty Sorted.isEmpty
    rw [hcities]
    rfl

namespace Store

variable {owner : NodeId → String} {s : Store} {token : String}

theorem mem_commitsOf_iff {r : Repository} {c : Commit} :
    c ∈ s.commitsOf r ↔ c ∈ s.commits ∧ c.id ∈ r.commits := by
  unfold commitsOf
  rw [List.mem_filterMap]
  constructor
  · rintro ⟨id, hid, hc⟩
    obtain rfl := Sorted.key_of_get? hc
    exact ⟨Sorted.mem_of_get? hc, hid⟩
  · rintro ⟨hc, hid⟩
    exact ⟨c.id, hid, Sorted.get?_key hc⟩

/-- The commits of a repository have its token. -/
theorem Fitting.mem_commitsOf (hs : s.Fitting owner s) {r : Repository} (hr : r ∈ s.repositories)
    {c : Commit} (hc : c ∈ s.commitsOf r) : c ∈ s.commits ∧ c.token = r.token := by
  obtain ⟨hmem, hid⟩ := mem_commitsOf_iff.1 hc
  obtain ⟨x, hx, htoken⟩ := (hs.repositories r hr).commits c.id hid
  rw [Sorted.get?_key hmem] at hx
  exact ⟨hmem, Option.some.inj hx ▸ htoken⟩

theorem mem_repositoriesOf_iff {r : Repository} :
    r ∈ s.repositoriesOf token ↔ r ∈ s.repositories ∧ r.token = token := by
  unfold repositoriesOf
  rw [List.mem_mergeSort, List.mem_filter, decide_eq_true_eq]
  rfl

/-- The commits with the given hashes; the first one that is not known is a fault. -/
def commitsNamed (s : Store) (token : String) : List String → Except Fault (List Commit)
  | [] => .ok []
  | hash :: rest =>
    match s.findCommit token hash with
    | some c => (s.commitsNamed token rest).map (c :: ·)
    | none => .error (.unknownCommit hash)

/-- The commits that a selector means. -/
def commitsSelected (s : Store) (token : String) : Selector → Except Fault (List Commit)
  | .latest => .ok ((s.repositoriesOf token).filterMap s.mostRecentCommit)
  | selector => s.commitsNamed token selector.hashes

/-- The city and the contents of a commit. -/
def drawn (s : Store) (c : Commit) : String × HydratedCommit := (s.cityName c.id, s.hydrate c)

theorem loadCommits_eq (s : Store) (token : String) (hashes : List String) :
    s.loadCommits token hashes = (s.commitsNamed token hashes).map (List.map s.hydrate) := by
  induction hashes with
  | nil => rfl
  | cons hash rest ih =>
    unfold loadCommits loadCommit commitsNamed
    rw [ih]
    cases s.findCommit token hash with
    | none => rfl
    | some c => cases s.commitsNamed token rest <;> rfl

theorem selected_eq (s : Store) (token : String) (selector : Selector) :
    s.selected token selector = (s.commitsSelected token selector).map (List.map s.hydrate) := by
  cases selector with
  | latest => rfl
  | commit hash => exact s.loadCommits_eq token _
  | compare first second => exact s.loadCommits_eq token _

theorem mem_of_commitsNamed {hashes : List String} {cs : List Commit}
    (h : s.commitsNamed token hashes = .ok cs) :
    ∀ c ∈ cs, c ∈ s.commits ∧ c.token = token := by
  induction hashes generalizing cs with
  | nil =>
    cases h
    exact fun c hc => absurd hc List.not_mem_nil
  | cons hash rest ih =>
    unfold commitsNamed at h
    cases hfind : s.findCommit token hash with
    | none =>
      rw [hfind] at h
      cases h
    | some d =>
      obtain ⟨hd, htoken, -⟩ := Sorted.mem_of_find?_pair hfind
      cases hrest : s.commitsNamed token rest with
      | error e =>
        rw [hfind, hrest] at h
        cases h
      | ok ds =>
        rw [hfind, hrest] at h
        cases h
        exact List.forall_mem_cons.2 ⟨⟨hd, htoken⟩, ih hrest⟩

/-- The selected commits are commits of the landscape. -/
theorem Fitting.mem_of_commitsSelected (hs : s.Fitting owner s) {selector : Selector}
    {cs : List Commit} (h : s.commitsSelected token selector = .ok cs) :
    ∀ c ∈ cs, c ∈ s.commits ∧ c.token = token := by
  cases selector with
  | latest =>
    cases h
    intro c hc
    obtain ⟨r, hr, hnewest⟩ := List.mem_filterMap.1 hc
    obtain ⟨hmem, hrt⟩ := mem_repositoriesOf_iff.1 hr
    obtain ⟨hcommit, hct⟩ := hs.mem_commitsOf hmem (Commit.mem_of_greatest? hnewest)
    exact ⟨hcommit, hct.trans hrt⟩
  | commit hash => exact mem_of_commitsNamed h
  | compare first second => exact mem_of_commitsNamed h

/-- A query for a landscape answers with that of the selected commits, if there are any. -/
theorem structureOf_eq (s : Store) (token : String) (selector : Selector) :
    s.structureOf token selector = (s.commitsSelected token selector).bind fun cs =>
      if cs = [] then .error (.noStructure token)
      else .ok (Landscape.ofCommits token (cs.map s.drawn)) := by
  unfold structureOf
  rw [selected_eq]
  cases s.commitsSelected token selector with
  | error e => rfl
  | ok cs =>
    have hproject : s.project token (cs.map s.hydrate)
        = Landscape.ofCommits token (cs.map s.drawn) := by
      rw [project_eq_ofCommits, List.map_map]
      rfl
    show (if (s.project token (cs.map s.hydrate)).isEmpty then _ else _) = _
    rw [hproject]
    cases cs with
    | nil => rfl
    | cons c cs =>
      -- each commit has a city
      have hcity : (Landscape.ofCommits token ((c :: cs).map s.drawn)).isEmpty = false :=
        Landscape.isEmpty_eq_false ((Landscape.has_ofCommits token _ .city _).2
          ⟨s.drawn c, List.mem_cons_self, rfl⟩)
      rw [hcity]
      rfl

end Store

end Cityscape
