import Cityscape.History.BranchView
import Cityscape.Proofs.Sorted
import Mathlib.Data.List.Nodup

/-!
# `Branches`: the order in which commits are listed does not matter

The branches of a history and the newest of some commits depend only on which commits there are:
commits are put in order by date and hash, and no two of them have the same hash. The order in
which they are listed, which is that of their ids, has no effect.
-/

namespace Cityscape

/-! ## Orders by date -/

instance : Std.TransCmp CommitRecord.byDate :=
  inferInstanceAs (Std.TransCmp
    (compareLex (compareOn CommitRecord.commitDate) (compareOn CommitRecord.hash)))

instance : Std.TransCmp Commit.byDate :=
  inferInstanceAs (Std.TransCmp (compareLex (compareOn Commit.commitDate) (compareOn Commit.hash)))

instance : Std.TransCmp Commit.byRecency :=
  have : Std.TransCmp fun a b : Commit => compareOn Commit.hash b a := Std.TransCmp.opposite
  inferInstanceAs (Std.TransCmp
    (compareLex (compareOn Commit.commitDate) fun a b => compareOn Commit.hash b a))

theorem CommitRecord.hash_eq_of_byDate {a b : CommitRecord} (h : byDate a b = .eq) :
    a.hash = b.hash := by
  obtain ⟨-, hhash⟩ := Ordering.then_eq_eq.1 h
  exact Std.LawfulEqCmp.eq_of_compare hhash

theorem Commit.hash_eq_of_byDate {a b : Commit} (h : byDate a b = .eq) : a.hash = b.hash := by
  obtain ⟨-, hhash⟩ := Ordering.then_eq_eq.1 h
  exact Std.LawfulEqCmp.eq_of_compare hhash

theorem Commit.hash_eq_of_byRecency {a b : Commit} (h : byRecency a b = .eq) :
    a.hash = b.hash := by
  obtain ⟨-, hhash⟩ := Ordering.then_eq_eq.1 h
  exact (Std.LawfulEqCmp.eq_of_compare hhash).symm

/-! ## The branches of a history -/

namespace CommitRecord

variable {records records' : List CommitRecord}

/-- Records that are listed in another order are put in the same order. -/
theorem sorted_congr (hperm : records.Perm records') (hhashes : (records.map hash).Nodup) :
    (records.mergeSort fun a b => (byDate a b).isLE)
      = records'.mergeSort fun a b => (byDate a b).isLE :=
  mergeSort_congr hperm fun _ ha _ hb heq =>
    List.inj_on_of_nodup_map hhashes ha hb (hash_eq_of_byDate heq)

/-- There is one record of a hash at most, so the order does not matter to which one counts. -/
theorem branchOf_congr (hperm : records.Perm records') (hhashes : (records.map hash).Nodup)
    (elsewhere : SortedMap String String) :
    branchOf records elsewhere = branchOf records' elsewhere := by
  funext h
  have hone : ∀ {l : List CommitRecord}, (l.map hash).Nodup →
      (l.filter fun c => c.hash = h).Pairwise fun _ _ => False := by
    intro l hl
    apply List.Pairwise.imp_of_mem _ ((List.pairwise_map.1 hl).filter _)
    intro a b ha hb hne
    have hah : a.hash = h := of_decide_eq_true (List.mem_filter.1 ha).2
    have hbh : b.hash = h := of_decide_eq_true (List.mem_filter.1 hb).2
    exact hne (hah.trans hbh.symm)
  have hfilter : (records.filter fun c => c.hash = h) = records'.filter fun c => c.hash = h :=
    List.Perm.eq_of_pairwise (fun _ _ _ _ => False.elim) (hone hhashes)
      (hone ((hperm.map hash).nodup_iff.1 hhashes)) (hperm.filter _)
  unfold branchOf
  rw [hfilter]

end CommitRecord

/-- The branches of a history do not depend on the order in which its commits are listed. -/
theorem BranchView.ofHistory_congr {records records' : List CommitRecord}
    (hperm : records.Perm records') (hhashes : (records.map CommitRecord.hash).Nodup)
    (elsewhere : SortedMap String String) :
    ofHistory records elsewhere = ofHistory records' elsewhere := by
  unfold ofHistory
  rw [CommitRecord.sorted_congr hperm hhashes, CommitRecord.branchOf_congr hperm hhashes]

/-! ## The newest commit -/

namespace Commit

theorem greatest?_eq_none_iff {order : Commit → Commit → Ordering} {l : List Commit} :
    greatest? order l = none ↔ l = [] := by
  cases l with
  | nil => exact ⟨fun _ => rfl, fun _ => rfl⟩
  | cons c l => exact ⟨nofun, nofun⟩

theorem least?_eq_none_iff {order : Commit → Commit → Ordering} {l : List Commit} :
    least? order l = none ↔ l = [] := by
  cases l with
  | nil => exact ⟨fun _ => rfl, fun _ => rfl⟩
  | cons c l => exact ⟨nofun, nofun⟩

theorem mem_of_greatest? {order : Commit → Commit → Ordering} {l : List Commit} {c : Commit}
    (h : greatest? order l = some c) : c ∈ l := by
  cases l with
  | nil => cases h
  | cons x l =>
    rw [← Option.some.inj h]
    apply mem_of_foldl_pick
    intro best y
    by_cases hlt : order y best = .lt
    · exact .inl (if_pos hlt)
    · exact .inr (if_neg hlt)

theorem mem_of_least? {order : Commit → Commit → Ordering} {l : List Commit} {c : Commit}
    (h : least? order l = some c) : c ∈ l := by
  cases l with
  | nil => cases h
  | cons x l =>
    rw [← Option.some.inj h]
    apply mem_of_foldl_pick
    intro best y
    by_cases hlt : order y best = .lt
    · exact .inr (if_pos hlt)
    · exact .inl (if_neg hlt)

/-- No commit comes after the greatest one. -/
theorem isLE_greatest? {order : Commit → Commit → Ordering} [Std.TransCmp order] {l : List Commit}
    {c : Commit} (h : greatest? order l = some c) : ∀ x ∈ l, (order x c).isLE := by
  cases l with
  | nil => cases h
  | cons x l =>
    rw [← Option.some.inj h]
    refine foldl_pick_least (r := fun a b => (order b a).isLE) (fun _ => Std.ReflCmp.isLE_rfl)
      (fun _ _ _ hab hbc => Std.TransCmp.isLE_trans hbc hab) (fun best y => ?_) l x
    by_cases hlt : order y best = .lt
    · rw [if_pos hlt]
      exact ⟨Std.ReflCmp.isLE_rfl, Ordering.isLE_of_eq_lt hlt⟩
    · rw [if_neg hlt]
      refine ⟨?_, Std.ReflCmp.isLE_rfl⟩
      by_contra hgt
      exact hlt (Std.OrientedCmp.lt_of_not_isLE hgt)

/-- No commit comes before the least one. -/
theorem isLE_least? {order : Commit → Commit → Ordering} [Std.TransCmp order] {l : List Commit}
    {c : Commit} (h : least? order l = some c) : ∀ x ∈ l, (order c x).isLE := by
  cases l with
  | nil => cases h
  | cons x l =>
    rw [← Option.some.inj h]
    refine foldl_pick_least (r := fun a b => (order a b).isLE) (fun _ => Std.ReflCmp.isLE_rfl)
      (fun _ _ _ => Std.TransCmp.isLE_trans) (fun best y => ?_) l x
    by_cases hlt : order y best = .lt
    · rw [if_pos hlt]
      exact ⟨Ordering.isLE_of_eq_lt hlt, Std.ReflCmp.isLE_rfl⟩
    · rw [if_neg hlt]
      refine ⟨Std.ReflCmp.isLE_rfl, ?_⟩
      by_contra hgt
      exact hlt (Std.OrientedCmp.lt_of_not_isLE hgt)

section First

variable {order : Commit → Commit → Ordering} [Std.TransCmp order] {l : List Commit} {c : Commit}

/-- The greatest commit is the one that all others come before. -/
theorem greatest?_eq_some_iff (heq : ∀ x ∈ l, ∀ y ∈ l, order x y = .eq → x = y) :
    greatest? order l = some c ↔ c ∈ l ∧ ∀ x ∈ l, x ≠ c → order x c = .lt := by
  have hspec : ∀ {d}, greatest? order l = some d → d ∈ l ∧ ∀ x ∈ l, x ≠ d → order x d = .lt := by
    intro d h
    have hd := mem_of_greatest? h
    refine ⟨hd, fun x hx hne => ?_⟩
    rcases Ordering.isLE_iff_eq_lt_or_eq_eq.1 (isLE_greatest? h x hx) with hlt | he
    · exact hlt
    · exact absurd (heq x hx d hd he) hne
  refine ⟨hspec, fun ⟨hc, hlast⟩ => ?_⟩
  cases hfound : greatest? order l with
  | none =>
    rw [greatest?_eq_none_iff.1 hfound] at hc
    exact absurd hc List.not_mem_nil
  | some d =>
    obtain ⟨hd, hlast'⟩ := hspec hfound
    rw [eq_of_first (r := fun a b => order b a = .lt) (fun _ _ => Std.OrientedCmp.not_lt_of_lt)
      hc hd hlast hlast']

/-- The least commit is the one that comes before all others. -/
theorem least?_eq_some_iff (heq : ∀ x ∈ l, ∀ y ∈ l, order x y = .eq → x = y) :
    least? order l = some c ↔ c ∈ l ∧ ∀ x ∈ l, x ≠ c → order c x = .lt := by
  have hspec : ∀ {d}, least? order l = some d → d ∈ l ∧ ∀ x ∈ l, x ≠ d → order d x = .lt := by
    intro d h
    have hd := mem_of_least? h
    refine ⟨hd, fun x hx hne => ?_⟩
    rcases Ordering.isLE_iff_eq_lt_or_eq_eq.1 (isLE_least? h x hx) with hlt | he
    · exact hlt
    · exact absurd (heq d hd x hx he).symm hne
  refine ⟨hspec, fun ⟨hc, hfirst⟩ => ?_⟩
  cases hfound : least? order l with
  | none =>
    rw [least?_eq_none_iff.1 hfound] at hc
    exact absurd hc List.not_mem_nil
  | some d =>
    obtain ⟨hd, hfirst'⟩ := hspec hfound
    rw [eq_of_first (r := fun a b => order a b = .lt) (fun _ _ => Std.OrientedCmp.not_lt_of_lt)
      hc hd hfirst hfirst']

end First

/-- Commits with the same dates and hashes have newest ones with the same hash. -/
theorem newest_congr {l l' : List Commit}
    (h : ∀ c ∈ l, ∃ c' ∈ l', c'.commitDate = c.commitDate ∧ c'.hash = c.hash)
    (h' : ∀ c' ∈ l', ∃ c ∈ l, c.commitDate = c'.commitDate ∧ c.hash = c'.hash) :
    (greatest? byRecency l).map hash = (greatest? byRecency l').map hash := by
  cases hg : greatest? byRecency l with
  | none =>
    have hnil : l' = [] := by
      rw [List.eq_nil_iff_forall_not_mem]
      intro c' hc'
      obtain ⟨c, hc, -⟩ := h' c' hc'
      rw [greatest?_eq_none_iff.1 hg] at hc
      exact List.not_mem_nil hc
    rw [hnil]
    rfl
  | some c =>
    have hc := mem_of_greatest? hg
    have hmax := isLE_greatest? hg
    cases hg' : greatest? byRecency l' with
    | none =>
      obtain ⟨x, hx, -⟩ := h c hc
      rw [greatest?_eq_none_iff.1 hg'] at hx
      exact absurd hx List.not_mem_nil
    | some c' =>
      have hc' := mem_of_greatest? hg'
      have hmax' := isLE_greatest? hg'
      obtain ⟨x, hx, hxdate, hxhash⟩ := h c hc
      obtain ⟨y, hy, hydate, hyhash⟩ := h' c' hc'
      -- the counterpart of the newest commit is not newer than the newest one on the other side
      have hle : (byRecency c c').isLE := by
        have hle := hmax' x hx
        unfold byRecency at hle ⊢
        rwa [hxdate, hxhash] at hle
      have hge : (byRecency c' c).isLE := by
        have hge := hmax y hy
        unfold byRecency at hge ⊢
        rwa [hydate, hyhash] at hge
      rw [Option.map_some, Option.map_some,
        hash_eq_of_byRecency (Std.OrientedCmp.isLE_antisymm hle hge)]

end Commit

end Cityscape
