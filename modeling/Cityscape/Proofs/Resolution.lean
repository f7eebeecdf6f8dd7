import Cityscape.Proofs.Paths
import Cityscape.Tree.Resolution

/-!
# `Resolution`: what resolving a path finds

Resolving lists every node on the path and takes a deepest one. So a directory that is found has
no child on the path, and what is left of the path is what has to be added below it.
-/

namespace Cityscape
namespace Store

variable {s : Store} {allowed : NodeId → Bool}

theorem mem_filesNamed {d : Directory} {name : String} {f : FileRevision} :
    f ∈ s.filesNamed allowed d name ↔
      f.id ∈ d.fileRevisions ∧ allowed f.id ∧ s.files.get? f.id = some f ∧ f.name = name := by
  unfold filesNamed
  simp only [List.mem_filter, List.mem_filterMap, decide_eq_true_eq, Sorted.mem_toList]
  constructor
  · rintro ⟨⟨x, ⟨hx, ha⟩, hf⟩, hn⟩
    obtain rfl := Sorted.key_of_get? hf
    exact ⟨hx, ha, hf, hn⟩
  · rintro ⟨hx, ha, hf, hn⟩
    exact ⟨⟨f.id, ⟨hx, ha⟩, hf⟩, hn⟩

/-! ## The nodes on a path -/

/-- Only directories and files are on a path. -/
theorem nodesOnPath_congr {s' : Store} (hd : s'.directories = s.directories)
    (hf : s'.files = s.files) (d : Directory) (segments : List String) :
    s'.nodesOnPath allowed d segments = s.nodesOnPath allowed d segments := by
  have hchildren : ∀ d name, s'.childrenNamed d name = s.childrenNamed d name := by
    intro d name
    unfold childrenNamed
    rw [hd]
  have hfiles : ∀ d name, s'.filesNamed allowed d name = s.filesNamed allowed d name := by
    intro d name
    unfold filesNamed
    rw [hf]
  induction d, segments using nodesOnPath.induct with
  | case1 d => rw [nodesOnPath, nodesOnPath]
  | case2 d name => rw [nodesOnPath, nodesOnPath, hfiles]
  | case3 d name rest hrest ih =>
    rw [nodesOnPath.eq_3 _ _ _ _ _ hrest, nodesOnPath.eq_3 _ _ _ _ _ hrest, hchildren]
    simp only [ih]

/-- Resolving a path reads the directories, the files and the commits only. -/
theorem resolve_congr {s' : Store} (hd : s'.directories = s.directories)
    (hf : s'.files = s.files) (hc : s'.commits = s.commits) : s'.resolve = s.resolve := by
  funext root segments scope
  unfold resolve allowedIn
  simp only [hd, hc, nodesOnPath_congr hd hf]

/-- The node lies on the path below `d`, at the given depth. -/
inductive OnPath (s : Store) (allowed : NodeId → Bool) (d : Directory) (segments : List String) :
    Nat × Resolved → Prop
  | directory (before : List String) {rest : List String} {e : Directory}
    (path : segments = before ++ rest) (nonempty : before ≠ []) (left : rest ≠ [])
    (leads : s.Leads d before e) :
    OnPath s allowed d segments (before.length, .directory e)
  | file (before : List String) {name : String} {e : Directory} {f : FileRevision}
    (path : segments = before ++ [name]) (leads : s.Leads d before e)
    (mem : f ∈ s.filesNamed allowed e name) :
    OnPath s allowed d segments (before.length + 1, .file f)

theorem OnPath.cons {d c : Directory} {name : String} {segments : List String} {m : Nat}
    {r : Resolved} (hc : c ∈ s.childrenNamed d name) (h : OnPath s allowed c segments (m, r)) :
    OnPath s allowed d (name :: segments) (m + 1, r) := by
  cases h with
  | @directory before rest e path nonempty left leads =>
    exact .directory (name :: before) (congrArg (name :: ·) path)
      (List.cons_ne_nil _ _) left ⟨c, hc, leads⟩
  | @file before last e f path leads mem =>
    exact .file (name :: before) (congrArg (name :: ·) path) ⟨c, hc, leads⟩ mem

theorem OnPath.of_cons {d : Directory} {name : String} {segments : List String} {m : Nat}
    {r : Resolved} (hs : segments ≠ []) (h : OnPath s allowed d (name :: segments) (m, r)) :
    ∃ c ∈ s.childrenNamed d name,
      (m, r) = (1, .directory c) ∨ ∃ i, m = i + 1 ∧ OnPath s allowed c segments (i, r) := by
  cases h with
  | @directory before rest e path nonempty left leads =>
    cases before with
    | nil => exact absurd rfl nonempty
    | cons x before =>
      obtain ⟨rfl, hpath⟩ := List.cons_eq_cons.1 path
      obtain ⟨c, hc, he⟩ := leads
      refine ⟨c, hc, ?_⟩
      cases before with
      | nil =>
        rw [Leads] at he
        exact .inl (by rw [he]; rfl)
      | cons y before =>
        exact .inr ⟨_, rfl, .directory _ hpath (List.cons_ne_nil _ _) left he⟩
  | @file before last e f path leads mem =>
    cases before with
    | nil =>
      obtain ⟨-, hnil⟩ := List.cons_eq_cons.1 path
      exact absurd hnil hs
    | cons x before =>
      obtain ⟨rfl, hpath⟩ := List.cons_eq_cons.1 path
      obtain ⟨c, hc, he⟩ := leads
      exact ⟨c, hc, .inr ⟨_, rfl, .file _ hpath he mem⟩⟩

/-- The list of nodes holds those on the path and no others. -/
theorem mem_nodesOnPath {d : Directory} {segments : List String} {m : Nat} {r : Resolved} :
    (m, r) ∈ s.nodesOnPath allowed d segments ↔ OnPath s allowed d segments (m, r) := by
  induction d, segments using nodesOnPath.induct generalizing m with
  | case1 d =>
    rw [nodesOnPath]
    refine ⟨fun h => absurd h List.not_mem_nil, fun h => ?_⟩
    cases h with
    | directory before path nonempty => exact absurd (List.append_eq_nil_iff.1 path.symm).1 nonempty
    | file before path => simp at path
  | case2 d name =>
    rw [nodesOnPath]
    simp only [List.mem_map]
    constructor
    · rintro ⟨f, hf, he⟩
      cases he
      exact .file [] rfl rfl hf
    · intro h
      cases h with
      | @directory before rest e path nonempty left leads =>
        rcases List.append_eq_singleton_iff.1 path.symm with ⟨hb, -⟩ | ⟨-, hr⟩
        · exact absurd hb nonempty
        · exact absurd hr left
      | @file before last e f path leads mem =>
        rcases List.append_eq_singleton_iff.1 path.symm with ⟨rfl, hl⟩ | ⟨-, hl⟩
        · obtain rfl : last = name := by simpa using hl
          rw [Leads] at leads
          exact ⟨f, leads ▸ mem, rfl⟩
        · cases hl
  | case3 d name rest hrest ih =>
    rw [nodesOnPath.eq_3 _ _ _ _ _ hrest]
    simp only [List.mem_flatMap, List.mem_cons, List.mem_map, Prod.exists]
    constructor
    · rintro ⟨c, hc, h | ⟨i, r', hmem, he⟩⟩
      · cases h
        exact .directory [name] rfl (List.cons_ne_nil _ _) (fun h => hrest h)
          (leads_single.2 hc)
      · cases he
        exact .cons hc ((ih c).1 hmem)
    · intro h
      obtain ⟨c, hc, hat | ⟨i, rfl, hbelow⟩⟩ := h.of_cons hrest
      · exact ⟨c, hc, .inl hat⟩
      · exact ⟨c, hc, .inr ⟨i, r, (ih c).2 hbelow, rfl⟩⟩

/-! ## The deepest node -/

/-- A node is not better than another one: it is not as deep, or it has no smaller id. -/
def NotBetter (node best : Nat × Resolved) : Prop :=
  node.1 < best.1 ∨ node.1 = best.1 ∧ best.2.id.val ≤ node.2.id.val

namespace NotBetter

variable {x y z : Nat × Resolved}

theorem refl (x : Nat × Resolved) : NotBetter x x := .inr ⟨rfl, UInt64.le_refl _⟩

theorem trans (h : NotBetter x y) (h' : NotBetter y z) : NotBetter x z := by
  rcases h with h | ⟨h, hid⟩ <;> rcases h' with h' | ⟨h', hid'⟩
  · exact .inl (Nat.lt_trans h h')
  · exact .inl (h' ▸ h)
  · exact .inl (h ▸ h')
  · exact .inr ⟨h.trans h', UInt64.le_trans hid' hid⟩

theorem depth_le (h : NotBetter x y) : x.1 ≤ y.1 :=
  h.elim Nat.le_of_lt fun h => Nat.le_of_eq h.1

/-- At equal depth it is the id that decides. -/
theorem id_le (h : NotBetter x y) (hdepth : x.1 = y.1) : y.2.id.val ≤ x.2.id.val :=
  (h.resolve_left (Nat.not_lt.2 (Nat.le_of_eq hdepth.symm))).2

/-- Of two nodes of which none is better one has the depth and the id of the other. -/
theorem antisymm (h : NotBetter x y) (h' : NotBetter y x) : x.1 = y.1 ∧ x.2.id = y.2.id := by
  have hdepth := Nat.le_antisymm h.depth_le h'.depth_le
  exact ⟨hdepth, congrArg NodeId.mk
    (UInt64.le_antisymm (h'.id_le hdepth.symm) (h.id_le hdepth))⟩

end NotBetter

theorem deeper_eq (x y : Nat × Resolved) : deeper x y = x ∨ deeper x y = y := by
  unfold deeper
  split
  · exact .inr rfl
  · exact .inl rfl

theorem notBetter_deeper (x y : Nat × Resolved) :
    NotBetter x (deeper x y) ∧ NotBetter y (deeper x y) := by
  unfold deeper
  split
  case isTrue h => exact ⟨h.imp_right fun h => ⟨h.1, UInt64.le_of_lt h.2⟩, .refl y⟩
  case isFalse h =>
    obtain ⟨hdepth, hid⟩ := not_or.1 h
    refine ⟨.refl x, (Nat.lt_or_eq_of_le (Nat.not_lt.1 hdepth)).imp_right fun he => ⟨he, ?_⟩⟩
    exact UInt64.not_lt.1 fun hlt => hid ⟨he.symm, hlt⟩

/-- The node that is taken is one of those that are compared. -/
theorem mem_foldl_deeper (l : List (Nat × Resolved)) (start : Nat × Resolved) :
    l.foldl deeper start ∈ start :: l := mem_of_foldl_pick deeper_eq l start

/-- None of the nodes that are compared is better than the one that is taken. -/
theorem notBetter_foldl_deeper {l : List (Nat × Resolved)} {start x : Nat × Resolved}
    (hx : x ∈ start :: l) : NotBetter x (l.foldl deeper start) :=
  foldl_pick_least (r := fun a b => NotBetter b a) NotBetter.refl (fun _ _ _ h h' => h'.trans h)
    notBetter_deeper l start x hx

/-- A directory that is found has no node on the path directly below it. -/
def Blocked (s : Store) (allowed : NodeId → Bool) (d : Directory) : List String → Prop
  | [] => False
  | [name] => s.filesNamed allowed d name = []
  | name :: _ => s.childrenNamed d name = []

/-- What resolving a path below `d` may find. -/
inductive Found (s : Store) (allowed : NodeId → Bool) (d : Directory) (segments : List String) :
    Resolution → Prop
  | directory (before : List String) {rest : List String} {e : Directory}
    (path : segments = before ++ rest) (leads : s.Leads d before e)
    (blocked : s.Blocked allowed e rest) :
    Found s allowed d segments ⟨.directory e, rest⟩
  | file (before : List String) {name : String} {e : Directory} {f : FileRevision}
    (path : segments = before ++ [name]) (leads : s.Leads d before e)
    (mem : f ∈ s.filesNamed allowed e name) :
    Found s allowed d segments ⟨.file f, []⟩

/-- A directory at the greatest depth on the path is blocked. -/
theorem blocked_of_deepest {d e : Directory} (before : List String) {rest : List String}
    (hrest : rest ≠ [])
    (leads : s.Leads d before e)
    (hmax : ∀ x ∈ s.nodesOnPath allowed d (before ++ rest), x.1 ≤ before.length) :
    s.Blocked allowed e rest := by
  match rest, hrest with
  | [name], _ =>
    rw [Blocked, List.eq_nil_iff_forall_not_mem]
    intro f hf
    have : before.length + 1 ≤ before.length := hmax _ (mem_nodesOnPath.2 (.file _ rfl leads hf))
    omega
  | name :: next :: more, _ =>
    rw [Blocked, List.eq_nil_iff_forall_not_mem]
    · intro c hc
      have path : before ++ name :: next :: more = (before ++ [name]) ++ (next :: more) := by simp
      -- a child with that name would lie on the path, one step deeper
      have hon : OnPath s allowed d (before ++ name :: next :: more)
          ((before ++ [name]).length, .directory c) :=
        .directory _ path (by simp) (List.cons_ne_nil _ _)
          (leads_append.2 ⟨e, leads, leads_single.2 hc⟩)
      have hlen : (before ++ [name]).length ≤ before.length := hmax _ (mem_nodesOnPath.2 hon)
      rw [List.length_append, List.length_singleton] at hlen
      omega
    · exact List.cons_ne_nil _ _

theorem allowedIn_commit {id : NodeId} {c : Commit} (hc : s.commits.get? id = some c) :
    s.allowedIn (.commit id) = .ok fun f => c.fileRevisions.contains f := by
  unfold allowedIn
  simp only [hc]

/-- Resolving a path below a directory that exists takes the deepest of the nodes on it. -/
theorem resolve_eq {root : NodeId} {d : Directory} {segments : List String} {scope : Scope}
    (hd : s.directories.get? root = some d) (hne : segments ≠ [])
    (hallowed : s.allowedIn scope = .ok allowed) :
    s.resolve root segments scope
      = .ok ⟨((s.nodesOnPath allowed d segments).foldl deeper (0, .directory d)).2,
          segments.drop ((s.nodesOnPath allowed d segments).foldl deeper (0, .directory d)).1⟩ := by
  unfold resolve
  rw [if_neg (by simpa using hne), hd]
  simp only [hallowed]
  rfl

/-- Resolving a path below a directory that exists finds something. -/
theorem resolve_spec {root : NodeId} {d : Directory} {segments : List String} {scope : Scope}
    (hd : s.directories.get? root = some d) (hne : segments ≠ [])
    (hallowed : s.allowedIn scope = .ok allowed) :
    ∃ r, s.resolve root segments scope = .ok r ∧ Found s allowed d segments r := by
  refine ⟨_, resolve_eq hd hne hallowed, ?_⟩
  have hmem := mem_foldl_deeper (s.nodesOnPath allowed d segments) (0, .directory d)
  have hmax : ∀ x ∈ s.nodesOnPath allowed d segments,
      x.1 ≤ ((s.nodesOnPath allowed d segments).foldl deeper (0, .directory d)).1 :=
    fun x hx => (notBetter_foldl_deeper (List.mem_cons_of_mem _ hx)).depth_le
  generalize (s.nodesOnPath allowed d segments).foldl deeper (0, .directory d) = best at hmem hmax
  rcases List.mem_cons.1 hmem with rfl | hmem
  · exact .directory [] rfl rfl (blocked_of_deepest [] hne rfl hmax)
  · obtain ⟨m, r⟩ := best
    have hon := mem_nodesOnPath.1 hmem
    cases hon with
    | @directory before rest e path nonempty left leads =>
      subst path
      rw [List.drop_left]
      exact .directory _ rfl leads (blocked_of_deepest _ left leads hmax)
    | @file before name e f path leads mem =>
      subst path
      rw [List.drop_eq_nil_of_le (by simp)]
      exact .file _ rfl leads mem

/-- If there is a file at the end of a path, resolving finds the one with the least id. -/
theorem file_of_resolve {root : NodeId} {d : Directory} {segments : List String} {scope : Scope}
    {r : Resolution} (hd : s.directories.get? root = some d)
    (hallowed : s.allowedIn scope = .ok allowed) (hr : s.resolve root segments scope = .ok r)
    (before : List String) {name : String} {e : Directory} {g : FileRevision}
    (path : segments = before ++ [name]) (leads : s.Leads d before e)
    (mem : g ∈ s.filesNamed allowed e name) :
    ∃ f, r = ⟨.file f, []⟩ ∧ f.id.val ≤ g.id.val := by
  have hlength : segments.length = before.length + 1 := by
    rw [path, List.length_append, List.length_singleton]
  have hne : segments ≠ [] := by
    rw [path]
    exact List.append_ne_nil_of_right_ne_nil _ (List.cons_ne_nil name [])
  rw [resolve_eq hd hne hallowed] at hr
  cases hr
  have hg := List.mem_cons_of_mem (0, Resolved.directory d)
    (mem_nodesOnPath.2 (OnPath.file before path leads mem))
  have hmem := mem_foldl_deeper (s.nodesOnPath allowed d segments) (0, .directory d)
  have hworse := notBetter_foldl_deeper hg
  have hdeep := hworse.depth_le
  generalize (s.nodesOnPath allowed d segments).foldl deeper (0, .directory d) = best
    at hmem hdeep hworse
  -- nothing but a file lies as deep as the whole path
  rcases List.mem_cons.1 hmem with rfl | hmem
  · exact absurd hdeep (Nat.not_succ_le_zero _)
  · obtain ⟨depth, r⟩ := best
    cases mem_nodesOnPath.1 hmem with
    | @directory shorter rest e path' nonempty left leads =>
      have hrest := List.length_pos_iff.2 left
      have hsplit := congrArg List.length path'
      rw [List.length_append] at hsplit
      have hdeep : before.length + 1 ≤ shorter.length := hdeep
      omega
    | @file before' name' e f path' leads' mem' =>
      have hsplit := congrArg List.length path'
      rw [List.length_append, List.length_singleton] at hsplit
      refine ⟨f, ?_, hworse.id_le (hlength.symm.trans hsplit)⟩
      rw [List.drop_eq_nil_of_le (Nat.le_of_eq hsplit)]

theorem Blocked.ne_nil {d : Directory} {rest : List String} (h : s.Blocked allowed d rest) :
    rest ≠ [] := by
  rintro rfl
  exact h

/-- Below a blocked directory there is room for a directory with the first of several names. -/
theorem Blocked.childrenNamed {d : Directory} {name : String} {rest : List String}
    (h : s.Blocked allowed d (name :: rest)) (hrest : rest ≠ []) : s.childrenNamed d name = [] := by
  cases rest with
  | nil => exact absurd rfl hrest
  | cons next more =>
    rw [Blocked] at h
    · exact h
    · exact List.cons_ne_nil _ _

variable {owner : NodeId → String} {n : Nat}

/-- A file of a directory exists, hangs below it and belongs to the same token. -/
theorem Sound.of_filesNamed (hs : s.Sound owner n) {d : Directory} {name : String}
    {f : FileRevision} (hd : d ∈ s.directories) (hf : f ∈ s.filesNamed allowed d name) :
    f ∈ s.files ∧ f.parent = some d.id ∧ owner f.id = owner d.id := by
  obtain ⟨hx, -, hget, -⟩ := mem_filesNamed.1 hf
  obtain ⟨f', hget', hp, hown⟩ := (hs.fitting.directories d hd).fileRevisions f.id hx
  obtain rfl : f = f' := Option.some.inj (hget.symm.trans hget')
  exact ⟨Sorted.mem_of_get? hget, hp, hown⟩

end Store
end Cityscape
