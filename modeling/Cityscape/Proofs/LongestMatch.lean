import Cityscape.Proofs.Resolution
import Mathlib.Algebra.BigOperators.Group.List.Basic
import Mathlib.Algebra.GroupWithZero.Nat
import Mathlib.Logic.Relation

/-!
# `LongestMatch`: resolving a path finds its longest match

Whatever a store holds, be it a tree or not, resolving a path finds the deepest node to which
containment edges lead along the segments, and of several the one with the least id. It does not
matter in which order directories are looked into: any search that looks into what it has found,
one directory at a time, comes to an end, and it ends with this node (`Turn.invariant`,
`Turn.size_eq`).
-/

namespace Cityscape
namespace Store

variable {s : Store} {allowed : NodeId → Bool} {d : Directory} {segments : List String}
  {scope : Scope}

/-! ## What can be reached -/

/-- Containment edges lead from a directory down to another one that is stored, through
directories with the given names. -/
inductive Chain (s : Store) : Directory → List String → Directory → Prop where
  | nil (d : Directory) : Chain s d [] d
  | cons {d c e : Directory} {names : List String} (edge : c.id ∈ d.subdirectories)
    (stored : s.directories.get? c.id = some c) (below : Chain s c names e) :
    Chain s d (c.name :: names) e

/-- A file may be the end of a path. -/
def InScope (s : Store) : Scope → NodeId → Prop
  | .everywhere, _ => True
  | .commit id, f => ∃ c ∈ s.commits, c.id = id ∧ f ∈ c.fileRevisions

/-- A node is reached from a directory by so many of the segments: directories by all but the last
one, and files by the last one. -/
inductive Reaches (s : Store) (scope : Scope) (d : Directory) (segments : List String) :
    Nat → Resolved → Prop where
  | directory {depth : Nat} {e : Directory} (short : depth < segments.length)
    (chain : s.Chain d (segments.take depth) e) : Reaches s scope d segments depth (.directory e)
  | file {e : Directory} {f : FileRevision} (chain : s.Chain d segments.dropLast e)
    (edge : f.id ∈ e.fileRevisions) (stored : s.files.get? f.id = some f)
    (last : segments.getLast? = some f.name) (inScope : s.InScope scope f.id) :
    Reaches s scope d segments segments.length (.file f)

theorem chain_iff_leads {names : List String} {e : Directory} :
    s.Chain d names e ↔ s.Leads d names e := by
  constructor
  · intro h
    induction h with
    | nil d => rfl
    | cons edge stored _ ih => exact ⟨_, mem_childrenNamed.2 ⟨edge, stored, rfl⟩, ih⟩
  · intro h
    induction names generalizing d with
    | nil =>
      obtain rfl : e = d := h
      exact .nil e
    | cons name names ih =>
      obtain ⟨c, hc, h⟩ := h
      obtain ⟨edge, stored, rfl⟩ := mem_childrenNamed.1 hc
      exact .cons edge stored (ih h)

theorem Chain.stored {names : List String} {e : Directory} (h : s.Chain d names e)
    (hd : s.directories.get? d.id = some d) : s.directories.get? e.id = some e := by
  induction h with
  | nil d => exact hd
  | cons _ stored _ ih => exact ih stored

/-- Two nodes with one id that are reached at one depth are the same. -/
theorem Reaches.eq_of_id {depth : Nat} {node other : Resolved}
    (hd : s.directories.get? d.id = some d) (h : s.Reaches scope d segments depth node)
    (h' : s.Reaches scope d segments depth other) (hid : node.id = other.id) : node = other := by
  cases h with
  | @directory _ e short chain =>
    cases h' with
    | @directory _ e' _ chain' =>
      have he : e.id = e'.id := hid
      have hstored := chain.stored hd
      rw [he, chain'.stored hd] at hstored
      rw [Option.some.inj hstored]
    | file => exact absurd short (Nat.lt_irrefl _)
  | @file _ f _ _ stored =>
    cases h' with
    | directory short => exact absurd short (Nat.lt_irrefl _)
    | @file _ f' _ _ stored' =>
      have hf : f.id = f'.id := hid
      rw [hf, stored'] at stored
      rw [Option.some.inj stored]

/-- A scope that exists allows the files in it. -/
theorem allowedIn_inScope
    (hscope : ∀ id, scope = .commit id → ∃ c ∈ s.commits, c.id = id) :
    ∃ allowed, s.allowedIn scope = .ok allowed ∧ ∀ f, allowed f = true ↔ s.InScope scope f := by
  cases scope with
  | everywhere => exact ⟨_, rfl, fun _ => ⟨fun _ => trivial, fun _ => rfl⟩⟩
  | commit id =>
    obtain ⟨c, hc, rfl⟩ := hscope id rfl
    have hget := Sorted.get?_key hc
    refine ⟨_, allowedIn_commit hget, fun f => ?_⟩
    rw [SortedSet.contains_iff]
    refine ⟨fun hf => ⟨c, hc, rfl, hf⟩, ?_⟩
    rintro ⟨c', hc', hid, hf⟩
    rw [← hid, Sorted.get?_key hc'] at hget
    rwa [← Option.some.inj hget]

/-- The nodes that are listed are those that can be reached. -/
theorem reaches_iff (hne : segments ≠ []) (hallowed : ∀ f, allowed f = true ↔ s.InScope scope f)
    {depth : Nat} {node : Resolved} :
    s.Reaches scope d segments depth node ↔
      (depth, node) ∈ (0, .directory d) :: s.nodesOnPath allowed d segments := by
  rw [List.mem_cons, mem_nodesOnPath]
  constructor
  · intro h
    cases h with
    | @directory _ e short chain =>
      rw [chain_iff_leads] at chain
      have hlength : (segments.take depth).length = depth := by
        rw [List.length_take]
        omega
      cases depth with
      | zero =>
        rw [List.take_zero, Leads] at chain
        exact .inl (by rw [chain])
      | succ m =>
        have hon : OnPath s allowed d segments ((segments.take (m + 1)).length, .directory e) :=
          .directory _ (List.take_append_drop (m + 1) segments).symm
            (by rw [← List.length_pos_iff]; omega) (by simpa using short) chain
        rw [hlength] at hon
        exact .inr hon
    | @file e f chain edge stored last inScope =>
      have hpath := List.dropLast_append_getLast? f.name last
      have hon : OnPath s allowed d segments (segments.dropLast.length + 1, .file f) :=
        .file _ hpath.symm (chain_iff_leads.1 chain)
          (mem_filesNamed.2 ⟨edge, (hallowed f.id).2 inScope, stored, rfl⟩)
      rw [List.length_dropLast, Nat.sub_add_cancel (List.length_pos_iff.2 hne)] at hon
      exact .inr hon
  · rintro (h | h)
    · cases h
      exact .directory (List.length_pos_iff.2 hne) (.nil d)
    · cases h with
      | @directory before rest e path nonempty left leads =>
        subst path
        refine .directory ?_ ?_
        · rw [List.length_append]
          have := List.length_pos_iff.2 left
          omega
        · rw [List.take_left]
          exact chain_iff_leads.2 leads
      | @file before name e f path leads mem =>
        subst path
        obtain ⟨edge, hin, stored, rfl⟩ := mem_filesNamed.1 mem
        have hreaches : s.Reaches scope d (before ++ [f.name]) (before ++ [f.name]).length
            (.file f) :=
          .file (by rw [List.dropLast_concat]; exact chain_iff_leads.2 leads) edge stored
            List.getLast?_concat ((hallowed f.id).1 hin)
        rwa [List.length_append, List.length_singleton] at hreaches

/-! ## Searching in any order -/

/-- What lies on a path directly below a directory. -/
def nodesIn (s : Store) (allowed : NodeId → Bool) (d : Directory) : List String → List Resolved
  | [] => []
  | [name] => (s.filesNamed allowed d name).map .file
  | name :: _ => (s.childrenNamed d name).map .directory

/-- The directories among them. -/
def directoriesIn (s : Store) (d : Directory) : List String → List Directory
  | name :: _ :: _ => s.childrenNamed d name
  | _ => []

/-- How many directories a search below a directory looks into. -/
def visits (s : Store) (d : Directory) : List String → Nat
  | name :: next :: rest =>
    1 + ((s.childrenNamed d name).map fun c => visits s c (next :: rest)).sum
  | _ => 1

theorem visits_eq (s : Store) (d : Directory) (segments : List String) :
    s.visits d segments
      = 1 + ((s.directoriesIn d segments).map fun c => s.visits c segments.tail).sum := by
  match segments with
  | [] | [name] => rfl
  | name :: next :: rest => rfl

/-- The nodes on a path are those directly below the directory and those below its
subdirectories. -/
theorem mem_nodesOnPath_iff {m : Nat} {node : Resolved} :
    (m, node) ∈ s.nodesOnPath allowed d segments ↔
      (m = 1 ∧ node ∈ s.nodesIn allowed d segments) ∨
        ∃ c ∈ s.directoriesIn d segments, ∃ i, m = i + 1 ∧
          (i, node) ∈ s.nodesOnPath allowed c segments.tail := by
  match segments with
  | [] => simp [nodesOnPath, nodesIn, directoriesIn]
  | [name] => simp [nodesOnPath, nodesIn, directoriesIn, and_comm, and_assoc, eq_comm]
  | name :: next :: rest =>
    rw [nodesOnPath.eq_3 _ _ _ _ _ (List.cons_ne_nil next rest)]
    simp only [nodesIn, directoriesIn, List.tail_cons, List.mem_flatMap, List.mem_cons,
      List.mem_map, Prod.exists, Prod.mk.injEq]
    constructor
    · rintro ⟨c, hc, ⟨rfl, rfl⟩ | ⟨i, _, h, rfl, rfl⟩⟩
      · exact .inl ⟨rfl, c, hc, rfl⟩
      · exact .inr ⟨c, hc, i, rfl, h⟩
    · rintro (⟨rfl, c, hc, rfl⟩ | ⟨c, hc, i, rfl, h⟩)
      · exact ⟨c, hc, .inl ⟨rfl, rfl⟩⟩
      · exact ⟨c, hc, .inr ⟨i, node, h, rfl, rfl⟩⟩

/-- A search on its way: the directories that are still to be looked into, each with the number of
segments that lead to it, and the best node so far. -/
structure Search where
  pending : List (Nat × Directory)
  best : Nat × Resolved

/-- A search begins at a directory. -/
def Search.start (d : Directory) : Search := ⟨[(0, d)], (0, .directory d)⟩

/-- One turn of a search. Any of the pending directories is looked into, what is there is compared
with the best node so far in any order, and the directories among it become pending at any place. -/
inductive Turn (s : Store) (allowed : NodeId → Bool) (segments : List String) :
    Search → Search → Prop where
  | look {before after : Search} {depth : Nat} {d : Directory} {rest : List (Nat × Directory)}
    {found : List (Nat × Resolved)} (chosen : before.pending.Perm ((depth, d) :: rest))
    (there : found.Perm ((s.nodesIn allowed d (segments.drop depth)).map fun r => (depth + 1, r)))
    (compared : after.best = found.foldl deeper before.best)
    (added : after.pending.Perm
      (((s.directoriesIn d (segments.drop depth)).map fun c => (depth + 1, c)) ++ rest)) :
    Turn s allowed segments before after

/-- How many turns a search has still to take. -/
def Search.size (s : Store) (segments : List String) (search : Search) : Nat :=
  (search.pending.map fun (depth, d) => s.visits d (segments.drop depth)).sum

theorem Turn.size_eq {before after : Search} (h : s.Turn allowed segments before after) :
    before.size s segments = after.size s segments + 1 := by
  cases h with
  | @look depth d rest found chosen there compared added =>
    unfold Search.size
    rw [(chosen.map _).sum_eq, (added.map _).sum_eq, List.map_cons, List.sum_cons, List.map_append,
      List.sum_append, List.map_map]
    simp only
    rw [visits_eq, List.tail_drop]
    simp only [Function.comp_def]
    omega

/-- As long as a directory is pending, there is a turn to take. -/
theorem Turn.exists_of_pending {before : Search} (h : before.pending ≠ []) :
    ∃ after, s.Turn allowed segments before after := by
  obtain ⟨⟨depth, d⟩, rest, hpending⟩ := List.exists_cons_of_ne_nil h
  exact ⟨⟨_, _⟩, .look (.of_eq hpending) (.refl _) rfl (.refl _)⟩

theorem Turn.acc (search : Search) :
    Acc (fun after before => s.Turn allowed segments before after) search := by
  have hfewer : ∀ {after before : Search}, s.Turn allowed segments before after →
      InvImage (· < ·) (Search.size s segments) after before := by
    intro after before h
    show after.size s segments < before.size s segments
    rw [h.size_eq]
    exact Nat.lt_succ_self _
  exact Subrelation.accessible hfewer
    ((InvImage.wf (Search.size s segments) Nat.lt_wfRel.wf).apply search)

/-- What a search keeps while it turns: the best node is among those on the path, and every node on
the path is not better or lies below a pending directory. -/
structure Search.Invariant (s : Store) (allowed : NodeId → Bool) (root : Directory)
    (segments : List String) (search : Search) : Prop where
  best : search.best ∈ (0, .directory root) :: s.nodesOnPath allowed root segments
  sound : ∀ depth d, (depth, d) ∈ search.pending → ∀ i node,
    (i, node) ∈ s.nodesOnPath allowed d (segments.drop depth) →
      (depth + i, node) ∈ s.nodesOnPath allowed root segments
  complete : ∀ x ∈ (0, .directory root) :: s.nodesOnPath allowed root segments,
    NotBetter x search.best ∨ ∃ depth d, (depth, d) ∈ search.pending ∧
      ∃ i, x.1 = depth + i ∧ (i, x.2) ∈ s.nodesOnPath allowed d (segments.drop depth)

variable {root : Directory}

theorem Search.invariant_start : (Search.start root).Invariant s allowed root segments where
  best := List.mem_cons_self
  sound depth d hpending i node hnode := by
    cases List.mem_singleton.1 hpending
    rwa [Nat.zero_add]
  complete x hx := by
    rcases List.mem_cons.1 hx with rfl | hx
    · exact .inl (.inr ⟨rfl, UInt64.le_refl _⟩)
    · exact .inr ⟨0, root, List.mem_singleton_self _, x.1, (Nat.zero_add _).symm, hx⟩

/-- One turn keeps the invariant. -/
theorem Turn.invariant {before after : Search} (h : s.Turn allowed segments before after)
    (hi : before.Invariant s allowed root segments) :
    after.Invariant s allowed root segments := by
  cases h with
  | @look depth d rest found chosen there compared added =>
    have hchosen : (depth, d) ∈ before.pending := chosen.mem_iff.2 List.mem_cons_self
    have hfound : ∀ x ∈ found, x ∈ s.nodesOnPath allowed root segments := by
      intro x hx
      obtain ⟨node, hnode, rfl⟩ := List.mem_map.1 (there.mem_iff.1 hx)
      exact hi.sound depth d hchosen 1 node (mem_nodesOnPath_iff.2 (.inl ⟨rfl, hnode⟩))
    have hbest : NotBetter before.best after.best := by
      rw [compared]
      exact notBetter_foldl_deeper List.mem_cons_self
    refine { best := ?_, sound := ?_, complete := ?_ }
    · rw [compared]
      rcases List.mem_cons.1 (mem_foldl_deeper found before.best) with he | hmem
      · rw [he]
        exact hi.best
      · exact List.mem_cons_of_mem _ (hfound _ hmem)
    · intro k c hpending i node hnode
      rcases List.mem_append.1 (added.mem_iff.1 hpending) with hnew | hold
      · obtain ⟨c, hc, he⟩ := List.mem_map.1 hnew
        cases he
        rw [← List.tail_drop] at hnode
        have hbelow := hi.sound depth d hchosen (i + 1) node
          (mem_nodesOnPath_iff.2 (.inr ⟨c, hc, i, rfl, hnode⟩))
        rwa [show depth + 1 + i = depth + (i + 1) by omega]
      · exact hi.sound k c (chosen.mem_iff.2 (List.mem_cons_of_mem _ hold)) i node hnode
    · intro x hx
      rcases hi.complete x hx with hworse | ⟨k, c, hpending, i, hdepth, hnode⟩
      · exact .inl (hworse.trans hbest)
      rcases List.mem_cons.1 (chosen.mem_iff.1 hpending) with he | hrest
      · cases he
        -- the node is directly below the directory, or below one that becomes pending
        rcases mem_nodesOnPath_iff.1 hnode with ⟨rfl, hin⟩ | ⟨c, hc, j, rfl, hbelow⟩
        · refine .inl ?_
          rw [compared]
          refine notBetter_foldl_deeper (List.mem_cons_of_mem _ (there.mem_iff.2 ?_))
          exact List.mem_map.2 ⟨x.2, hin, by rw [← hdepth]⟩
        · rw [List.tail_drop] at hbelow
          refine .inr
            ⟨depth + 1, c, added.mem_iff.2 (List.mem_append_left _ ?_), j, by omega, hbelow⟩
          exact List.mem_map.2 ⟨c, hc, rfl⟩
      · exact .inr ⟨k, c, added.mem_iff.2 (List.mem_append_right _ hrest), i, hdepth, hnode⟩

theorem Search.invariant_of_turns {search : Search}
    (h : Relation.ReflTransGen (s.Turn allowed segments) (Search.start root) search) :
    search.Invariant s allowed root segments := by
  induction h with
  | refl => exact Search.invariant_start
  | tail _ last ih => exact last.invariant ih

/-! ## The longest match -/

/-- A node is the longest match of a path, and what a search for it comes to. -/
structure LongestMatch (s : Store) (scope : Scope) (allowed : NodeId → Bool) (root : Directory)
    (segments : List String) (depth : Nat) (node : Resolved) : Prop where
  reached : s.Reaches scope root segments depth node
  greatest : ∀ k other, s.Reaches scope root segments k other → k ≤ depth
  least : ∀ other, s.Reaches scope root segments depth other → node.id.val ≤ other.id.val
  /-- No search goes on for ever. -/
  ends : Acc (fun after before => s.Turn allowed segments before after) (Search.start root)
  /-- A search ends only when no directory is pending. -/
  turns : ∀ search : Search, search.pending ≠ [] → ∃ after, s.Turn allowed segments search after
  /-- A search that has ended has found the node. -/
  found : ∀ search,
    Relation.ReflTransGen (s.Turn allowed segments) (Search.start root) search →
      search.pending = [] → search.best = (depth, node)

/-- Resolving a path below a directory that exists finds the longest match, in every store. -/
theorem resolve_longest (s : Store) (root : Directory) (segments : List String) (scope : Scope)
    (hroot : s.directories.get? root.id = some root) (hne : segments ≠ [])
    (hscope : ∀ id, scope = .commit id → ∃ c ∈ s.commits, c.id = id) :
    ∃ allowed depth node, s.allowedIn scope = .ok allowed ∧
      s.resolve root.id segments scope = .ok ⟨node, segments.drop depth⟩ ∧
      s.LongestMatch scope allowed root segments depth node := by
  obtain ⟨allowed, hallowed, hin⟩ := allowedIn_inScope hscope
  have hreach : ∀ {k : Nat} {other : Resolved}, s.Reaches scope root segments k other ↔ _ :=
    reaches_iff hne hin
  have hmem := mem_foldl_deeper (s.nodesOnPath allowed root segments) (0, .directory root)
  have hbest : ∀ {k : Nat} {other : Resolved}, s.Reaches scope root segments k other →
      NotBetter (k, other) _ := fun h => notBetter_foldl_deeper (hreach.1 h)
  refine ⟨allowed, _, _, hallowed, resolve_eq hroot hne hallowed, ?_⟩
  generalize (s.nodesOnPath allowed root segments).foldl deeper (0, .directory root) = best
    at hmem hbest
  have hreached : s.Reaches scope root segments best.1 best.2 := hreach.2 hmem
  refine {
    reached := hreached
    greatest := fun k other h => (hbest h).depth_le
    least := fun other h => (hbest h).id_le rfl
    ends := Turn.acc _
    turns := fun search => Turn.exists_of_pending
    found := fun search hturns hdone => ?_ }
  -- the search and the list have found two nodes of which none is better
  have hi := Search.invariant_of_turns hturns
  have hfound : s.Reaches scope root segments search.best.1 search.best.2 := hreach.2 hi.best
  have hworse : NotBetter best search.best := by
    refine (hi.complete best hmem).resolve_right ?_
    rintro ⟨k, c, hpending, -⟩
    rw [hdone] at hpending
    exact List.not_mem_nil hpending
  obtain ⟨hdepth, hid⟩ := (hbest hfound).antisymm hworse
  rw [hdepth] at hfound
  exact Prod.ext hdepth (hfound.eq_of_id hroot hreached hid)

/-- The root of the sample below. -/
def sampleTangledRoot : Directory :=
  { id := 1, name := "root"
    subdirectories := (((∅ : SortedSet NodeId).insert 2).insert 3).insert 9 }

/-- A root with two directories of one name, of which the second holds a file and leads back to the
root, and with a third directory that is not there. -/
def sampleTangled : Store :=
  { (∅ : Store) with
    directories := (((∅ : Sorted Directory.id).insert sampleTangledRoot).insert
      { id := 2, name := "src", parent := some 1 }).insert
      { id := 3, name := "src", parent := some 1, subdirectories := (∅ : SortedSet NodeId).insert 1
        fileRevisions := (∅ : SortedSet NodeId).insert 4 }
    files := (∅ : Sorted FileRevision.id).insert { id := 4, name := "a.rs", parent := some 3 } }

theorem resolve_longest_sample :
    sampleTangled.directories.get? sampleTangledRoot.id = some sampleTangledRoot ∧
      ["src", "a.rs"] ≠ [] ∧
      (∀ id, Scope.everywhere = .commit id → ∃ c ∈ sampleTangled.commits, c.id = id) ∧
      (sampleTangled.resolve sampleTangledRoot.id ["src", "a.rs"] .everywhere).toOption.map
        (fun r => (r.existing.id, r.remaining)) = some (4, []) ∧
      ∃ allowed depth node, sampleTangled.allowedIn .everywhere = .ok allowed ∧
        sampleTangled.resolve sampleTangledRoot.id ["src", "a.rs"] .everywhere
          = .ok ⟨node, ["src", "a.rs"].drop depth⟩ ∧
        sampleTangled.LongestMatch .everywhere allowed sampleTangledRoot ["src", "a.rs"] depth
          node :=
  ⟨by decide +kernel, by decide, nofun, by decide +kernel,
    resolve_longest sampleTangled sampleTangledRoot ["src", "a.rs"] .everywhere (by decide +kernel)
      (by decide) nofun⟩

end Store
end Cityscape
