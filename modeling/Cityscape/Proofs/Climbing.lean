import Cityscape.Tree.Ancestry

/-!
# `Climbing`: what is met on the way up

The way up from a file or a directory goes on while there are parents, and may come back. What is
met on it is told without a list of what has been met before: a directory is on the way (`Reach`),
or the way leads to one past some others (`LeadsUp`). A climb, which ends where it would come back,
misses nothing of that (`mem_climb_iff`, `leadsUp_iff_climb`).
-/

namespace Cityscape

/-! ## Climbing -/

theorem find?_others (ds : List Directory) (id q : NodeId) :
    (others ds id).find? (fun d => d.id = q)
      = if q = id then none else ds.find? fun d => d.id = q := by
  unfold others
  rw [List.find?_filter]
  by_cases hq : q = id
  · rw [if_pos hq, List.find?_eq_none]
    intro d _
    simp [hq]
  · rw [if_neg hq]
    congr 1
    funext d
    by_cases hd : d.id = q <;> simp [hd, hq]

theorem climb_of_find?_eq_none {ds : List Directory} {id : NodeId}
    (h : ds.find? (fun d => d.id = id) = none) : climb ds (some id) = [] := by
  rw [climb]
  simp only
  split
  · rfl
  · rename_i d hd
    cases h.symm.trans hd

theorem climb_of_find?_eq_some {ds : List Directory} {id : NodeId} {d : Directory}
    (h : ds.find? (fun d => d.id = id) = some d) :
    climb ds (some id) = d :: climb (others ds id) d.parent := by
  rw [climb]
  simp only
  split
  · rename_i hn
    cases h.symm.trans hn
  · rename_i e he
    obtain rfl : d = e := Option.some.inj (h.symm.trans he)
    rfl

/-- A climb depends only on the directories that it can meet: those in a set that contains the
parent of each of its members. -/
theorem climb_congr (S : NodeId → Prop) {ds ds' : List Directory} {next : Option NodeId}
    (hfind : ∀ id, S id → ds.find? (fun d => d.id = id) = ds'.find? fun d => d.id = id)
    (hclosed : ∀ id d p, S id → ds.find? (fun d => d.id = id) = some d → d.parent = some p → S p)
    (hnext : ∀ p, next = some p → S p) : climb ds next = climb ds' next := by
  induction ds, next using climb.induct generalizing ds' with
  | case1 ds => rw [climb, climb]
  | case2 ds id h =>
    have h' := (hfind id (hnext id rfl)).symm.trans h
    rw [climb_of_find?_eq_none h, climb_of_find?_eq_none h']
  | case3 ds id d h _ ih =>
    have hS := hnext id rfl
    have h' := (hfind id hS).symm.trans h
    -- leaving out what has been met keeps the two lists alike on the set
    have hrest : climb (others ds id) d.parent = climb (others ds' id) d.parent := by
      apply ih
      · intro q hq
        rw [find?_others, find?_others, hfind q hq]
      · intro q e p hq he hp
        rw [find?_others] at he
        split at he
        · cases he
        · exact hclosed q e p hq he hp
      · exact fun p hp => hclosed id d p hS h hp
    rw [climb_of_find?_eq_some h, climb_of_find?_eq_some h', hrest]

/-! ## Reaching a directory -/

/-- The directory is met on the way up from `next`, on which parents that are not in `ds` end
the way. -/
inductive Reach (ds : List Directory) : Option NodeId → Directory → Prop where
  | here {id : NodeId} {d : Directory} (h : ds.find? (fun d => d.id = id) = some d) :
      Reach ds (some id) d
  | up {id : NodeId} {d e : Directory} (h : ds.find? (fun d => d.id = id) = some d)
      (rest : Reach ds d.parent e) : Reach ds (some id) e

namespace Reach

variable {ds ds' : List Directory} {next : Option NodeId} {d e : Directory} {id : NodeId}

/-- What is met is what is found under its id. -/
theorem find? (h : Reach ds next e) : ds.find? (fun d => d.id = e.id) = some e := by
  induction h with
  | @here q e h =>
    obtain rfl : e.id = q := by simpa using List.find?_some h
    exact h
  | up _ _ ih => exact ih

/-- From where the way has led it leads on. -/
theorem trans (h : Reach ds next d) (h' : Reach ds d.parent e) : Reach ds next e := by
  induction h with
  | here h => exact .up h h'
  | up h _ ih => exact .up h (ih h')

theorem mono (hfind : ∀ q c, ds.find? (fun d => d.id = q) = some c →
    ds'.find? (fun d => d.id = q) = some c) (h : Reach ds next e) : Reach ds' next e := by
  induction h with
  | here h => exact .here (hfind _ _ h)
  | up h _ ih => exact .up (hfind _ _ h) ih

/-- A way to another directory need not come to `d`: it leads on from where it starts, or from
the parent of `d`. -/
theorem avoid (hd : ds.find? (fun d => d.id = id) = some d) (hne : e ≠ d)
    (h : Reach ds next e) : Reach (others ds id) next e ∨ Reach (others ds id) d.parent e := by
  induction h with
  | @here q e he =>
    have hq : q ≠ id := by
      rintro rfl
      exact hne (Option.some.inj (he.symm.trans hd))
    exact .inl (.here (by rw [find?_others, if_neg hq, he]))
  | @up q c e hc _ ih =>
    by_cases hq : q = id
    · obtain rfl : d = c := Option.some.inj (hd.symm.trans (hq ▸ hc))
      exact .inr (or_self_iff.1 (ih hne))
    · exact (ih hne).imp_left (.up (by rw [find?_others, if_neg hq, hc]))

end Reach

/-- A climb meets the directories on the way and no others. -/
theorem mem_climb_iff {ds : List Directory} {next : Option NodeId} {e : Directory} :
    e ∈ climb ds next ↔ Reach ds next e := by
  induction ds, next using climb.induct with
  | case1 ds =>
    rw [climb]
    exact ⟨fun h => absurd h List.not_mem_nil, fun h => by cases h⟩
  | case2 ds id h =>
    rw [climb_of_find?_eq_none h]
    refine ⟨fun he => absurd he List.not_mem_nil, fun he => ?_⟩
    cases he with
    | here h' => cases h.symm.trans h'
    | up h' => cases h.symm.trans h'
  | case3 ds id d h _ ih =>
    rw [climb_of_find?_eq_some h, List.mem_cons, ih]
    constructor
    case mp =>
      rintro (rfl | he)
      · exact .here h
      · refine .up h (he.mono fun q c hc => ?_)
        rw [find?_others] at hc
        split at hc
        · cases hc
        · exact hc
    case mpr =>
      intro he
      by_cases hne : e = d
      · exact .inl hne
      · cases he with
        | here h' => exact .inl (Option.some.inj (h'.symm.trans h))
        | @up _ d' _ h' he =>
          obtain rfl : d = d' := Option.some.inj (h.symm.trans h')
          exact .inr (or_self_iff.1 (he.avoid h hne))

/-! ## Ways to a directory -/

/-- The way up from `next` leads to `root`, past the given directories, the nearest first. -/
inductive LeadsUp (find : NodeId → Option Directory) (root : NodeId) :
    Option NodeId → List Directory → Prop where
  | here {d : Directory} (h : find root = some d) : LeadsUp find root (some root) []
  | up {id : NodeId} {d : Directory} {past : List Directory} (hne : id ≠ root)
      (h : find id = some d) (rest : LeadsUp find root d.parent past) :
      LeadsUp find root (some id) (d :: past)

namespace LeadsUp

variable {find more : NodeId → Option Directory} {root : NodeId} {next : Option NodeId}
  {past past' : List Directory}

theorem unique (h : LeadsUp find root next past) (h' : LeadsUp find root next past') :
    past = past' := by
  induction h generalizing past' with
  | here _ =>
    cases h' with
    | here _ => rfl
    | up hne _ _ => exact absurd rfl hne
  | @up id d past hne h _ ih =>
    cases h' with
    | here _ => exact absurd rfl hne
    | @up _ d' past' _ h'' rest' =>
      obtain rfl : d = d' := Option.some.inj (h.symm.trans h'')
      rw [ih rest']

/-- Only what is not further from the directory is asked for on the way. -/
theorem congr (h : LeadsUp find root next past)
    (hfind : ∀ q past', LeadsUp find root (some q) past' → past'.length ≤ past.length →
      more q = find q) : LeadsUp more root next past := by
  induction h with
  | here h => exact .here ((hfind root [] (.here h) (Nat.le_refl _)).trans h)
  | @up id d past hne h rest ih =>
    refine .up hne ((hfind id _ (.up hne h rest) (Nat.le_refl _)).trans h) (ih ?_)
    exact fun q past' hq hlength => hfind q past' hq (Nat.le_succ_of_le hlength)

end LeadsUp

/-- A way that leads on from a directory does not come back to it. -/
theorem leadsUp_others_iff {ds : List Directory} {root id : NodeId} {d : Directory}
    {past : List Directory} (hne : id ≠ root) (h : ds.find? (fun d => d.id = id) = some d) :
    LeadsUp (fun q => (others ds id).find? fun d => d.id = q) root d.parent past ↔
      LeadsUp (fun q => ds.find? fun d => d.id = q) root d.parent past := by
  constructor
  · intro hway
    refine hway.congr fun q past' hq _ => ?_
    -- what is asked for is found, so it is another directory
    have hother : q ≠ id := by
      rintro rfl
      cases hq with
      | here _ => exact hne rfl
      | up _ hfind _ =>
        rw [find?_others, if_pos rfl] at hfind
        cases hfind
    rw [find?_others, if_neg hother]
  · intro hway
    refine hway.congr fun q past' hq hlength => ?_
    have hother : q ≠ id := by
      rintro rfl
      have hsame := hq.unique (.up hne h hway)
      rw [hsame, List.length_cons] at hlength
      exact Nat.not_succ_le_self _ hlength
    rw [find?_others, if_neg hother]

/-- A way leads to a directory if a climb meets it for the first time after the others. -/
theorem leadsUp_iff_climb {ds : List Directory} {root : NodeId} {next : Option NodeId}
    {past : List Directory} :
    LeadsUp (fun q => ds.find? fun d => d.id = q) root next past ↔
      ∃ d rest, climb ds next = past ++ d :: rest ∧ d.id = root ∧ ∀ x ∈ past, x.id ≠ root := by
  induction ds, next using climb.induct generalizing past with
  | case1 ds =>
    rw [climb]
    constructor
    · exact fun h => nomatch h
    · rintro ⟨d, rest, h, -⟩
      exact absurd h.symm (by simp)
  | case2 ds id hnone =>
    rw [climb_of_find?_eq_none hnone]
    constructor
    · intro h
      cases h with
      | here h => cases hnone.symm.trans h
      | up _ h _ => cases hnone.symm.trans h
    · rintro ⟨d, rest, h, -⟩
      exact absurd h.symm (by simp)
  | case3 ds id d hfind _ ih =>
    rw [climb_of_find?_eq_some hfind]
    obtain rfl : d.id = id := by simpa using List.find?_some hfind
    constructor
    · intro h
      cases h with
      | here h => exact ⟨d, _, rfl, rfl, fun x hx => absurd hx List.not_mem_nil⟩
      | @up _ d' past hne h rest =>
        obtain rfl : d = d' := Option.some.inj (hfind.symm.trans h)
        obtain ⟨e, later, hclimb, he, hpast⟩ := ih.1 ((leadsUp_others_iff hne hfind).2 rest)
        refine ⟨e, later, by rw [hclimb, List.cons_append], he, ?_⟩
        exact List.forall_mem_cons.2 ⟨hne, hpast⟩
    · rintro ⟨e, later, hclimb, rfl, hpast⟩
      cases past with
      | nil =>
        obtain ⟨rfl, -⟩ := List.cons.inj hclimb
        exact .here hfind
      | cons x past =>
        obtain ⟨rfl, hrest⟩ := List.cons.inj hclimb
        obtain ⟨hne, hpast⟩ := List.forall_mem_cons.1 hpast
        have hway := ih.2 ⟨e, later, hrest, rfl, hpast⟩
        exact .up hne hfind ((leadsUp_others_iff hne hfind).1 hway)

end Cityscape
