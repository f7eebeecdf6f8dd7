import Cityscape.Proofs.Durability
import Cityscape.Proofs.Interleavings

/-!
# `Restored`: the ids that a restored store hands out

Ids are handed out in sequence, whatever else is done to the store in between
(`Store.handedOut_eq_range'`). The counter of a store that is made from a snapshot starts above all
its nodes, if there is a number above them (`Store.lt_nextId_ofSnapshot`). After the last of the
64-bit numbers comes zero, though. So a node with the last id makes the counter forget all the other
nodes, and their ids are handed out once more (`Store.handed_out_again`).

That is all that can go wrong: restored nodes keep their ids for themselves just if none of them has
the last id (`Store.unused_iff`).
-/

namespace Cityscape

/-- The id after which there is none. -/
def NodeId.last : NodeId := ⟨UInt64.ofNat (2 ^ 64 - 1)⟩

theorem NodeId.toNat_last : last.val.toNat = 2 ^ 64 - 1 := rfl

theorem NodeId.eq_last_iff {id : NodeId} : id = last ↔ 2 ^ 64 - 1 ≤ id.val.toNat := by
  have hlt := id.val.toNat_lt
  constructor
  · rintro rfl
    exact Nat.le_refl _
  · intro h
    obtain ⟨v⟩ := id
    exact congrArg mk (UInt64.toNat_inj.1 (Nat.le_antisymm (Nat.le_pred_of_lt hlt) h))

/-! ## The nodes of a snapshot -/

namespace Snapshot

/-- The ids that are listed for a table. -/
def idsIn (n : Snapshot) : Table → List NodeId
  | .repositories => n.repositories.map Repository.id
  | .branches => n.branches.map Branch.id
  | .commits => n.commits.map Commit.id
  | .tags => n.tags.map Tag.id
  | .directories => n.directories.map Directory.id
  | .files => n.files.map FileRevision.id
  | .classes => n.classes.map ClassNode.id
  | .functions => n.functions.map FunctionNode.id
  | .applications => n.applications.map Application.id
  | .traces => n.traces.map Trace.id
  | .spans => n.spans.map Span.id

/-- The ids of all listed nodes, table by table. -/
def nodeIds (n : Snapshot) : List NodeId := Table.all.flatMap n.idsIn

end Snapshot

namespace Store

variable {n : Snapshot} {s : Store} {ops : List Operation} {id : NodeId}

/-- The nodes of a restored store have the ids that the snapshot lists. -/
theorem mem_nodeIds_ofSnapshot : id ∈ (ofSnapshot n).nodeIds ↔ id ∈ n.nodeIds := by
  have htable (k : Table) : id ∈ (ofSnapshot n).idsIn k ↔ id ∈ n.idsIn k := by
    cases k <;> exact Sorted.mem_keys_ofList
  simp only [nodeIds, Snapshot.nodeIds, List.mem_flatMap, htable]

/-! ## Handing out ids -/

/-- The ids that operations hand out, one after another. -/
def handedOut (s : Store) : List Operation → List NodeId
  | [] => []
  | .allocate :: rest => s.allocate.1 :: s.allocate.2.handedOut rest
  | op :: rest => (op.run s).handedOut rest

/-- There are enough numbers of 64 bits left for the ids that operations hand out. -/
def EnoughIds (s : Store) (ops : List Operation) : Prop :=
  s.nextId.toNat + (s.handedOut ops).length ≤ 2 ^ 64

instance (s : Store) (ops : List Operation) : Decidable (s.EnoughIds ops) :=
  inferInstanceAs (Decidable (_ ≤ _))

theorem handedOut_cons_of_ne {op : Operation} (h : op ≠ .allocate) (rest : List Operation) :
    s.handedOut (op :: rest) = (op.run s).handedOut rest := by
  cases op <;> first | rfl | exact absurd rfl h

/-- The ids are consecutive numbers, from the next one on. -/
theorem handedOut_eq_range' (h : s.EnoughIds ops) :
    (s.handedOut ops).map (fun id => id.val.toNat)
      = List.range' s.nextId.toNat (s.handedOut ops).length := by
  induction ops generalizing s with
  | nil => rfl
  | cons op rest ih =>
    by_cases hop : op = .allocate
    · subst hop
      have hroom : s.nextId.toNat + ((s.allocate.2.handedOut rest).length + 1) ≤ 2 ^ 64 := h
      refine (congrArg (s.nextId.toNat :: ·) ?_).trans List.range'_succ.symm
      cases hrest : s.allocate.2.handedOut rest with
      | nil => rfl
      | cons a l =>
        -- there is a number after the one that is handed out first
        have hnext : s.allocate.2.nextId.toNat = s.nextId.toNat + 1 := by
          rw [hrest, List.length_cons] at hroom
          show (s.nextId + 1).toNat = _
          rw [UInt64.toNat_add, UInt64.toNat_one, Nat.mod_eq_of_lt (by omega)]
        have henough : s.allocate.2.EnoughIds rest := by
          unfold EnoughIds
          omega
        rw [← hrest, ih henough, hnext]
    · have hnext : (op.run s).nextId = s.nextId := Operation.nextId_run hop
      have henough : (op.run s).EnoughIds rest := by
        unfold EnoughIds at h ⊢
        rwa [hnext, ← handedOut_cons_of_ne hop]
      rw [handedOut_cons_of_ne hop, ih henough, hnext]

theorem pairwise_handedOut (h : s.EnoughIds ops) :
    (s.handedOut ops).Pairwise fun a b => a.val < b.val := by
  have hrange : ((s.handedOut ops).map fun id => id.val.toNat).Pairwise (· < ·) := by
    rw [handedOut_eq_range' h]
    exact List.pairwise_lt_range'
  exact (List.pairwise_map.1 hrange).imp UInt64.lt_iff_toNat_lt.2

theorem mem_handedOut_iff (h : s.EnoughIds ops) : id ∈ s.handedOut ops ↔
    s.nextId.toNat ≤ id.val.toNat ∧
      id.val.toNat < s.nextId.toNat + (s.handedOut ops).length := by
  rw [← List.mem_range'_1, ← handedOut_eq_range' h, List.mem_map]
  constructor
  · exact fun hid => ⟨id, hid, rfl⟩
  · rintro ⟨⟨v⟩, hv, he⟩
    obtain ⟨w⟩ := id
    obtain rfl : v = w := UInt64.toNat_inj.1 he
    exact hv

/-- If ids are asked for until there are none left, the last one is handed out. -/
theorem exists_last_mem_handedOut (s : Store) :
    ∃ ops, s.EnoughIds ops ∧ NodeId.last ∈ s.handedOut ops := by
  have hlength (k : Nat) : ∀ s : Store, (s.handedOut (List.replicate k .allocate)).length = k := by
    induction k with
    | zero => exact fun _ => rfl
    | succ k ih => exact fun s => congrArg Nat.succ (ih s.allocate.2)
  have hlt := s.nextId.toNat_lt
  have henough : s.EnoughIds (List.replicate (2 ^ 64 - s.nextId.toNat) .allocate) := by
    unfold EnoughIds
    rw [hlength]
    omega
  refine ⟨_, henough, (mem_handedOut_iff henough).2 ?_⟩
  rw [hlength, NodeId.toNat_last]
  omega

/-! ## The counter of a restored store -/

theorem le_highestId (h : id ∈ s.nodeIds) : id.val.toNat ≤ s.highestId.toNat :=
  highestId_le_iff.1 (Nat.le_refl _) id h

/-- There is a number above all nodes just if none of them has the last id. -/
theorem highestId_add_one_lt_iff :
    s.highestId.toNat + 1 < 2 ^ 64 ↔ NodeId.last ∉ s.nodeIds := by
  constructor
  · intro h hlast
    have hle := le_highestId hlast
    rw [NodeId.toNat_last] at hle
    omega
  · intro h
    have hbelow : s.highestId.toNat ≤ 2 ^ 64 - 2 := by
      refine highestId_le_iff.2 fun id hid => ?_
      have hne : ¬2 ^ 64 - 1 ≤ id.val.toNat := fun hle => h (NodeId.eq_last_iff.2 hle ▸ hid)
      unfold NodeId.Issued
      omega
    omega

theorem nextId_ofSnapshot :
    (ofSnapshot n).nextId = max (max n.nextId 1) ((ofSnapshot n).highestId + 1) := rfl

/-- Ids that were handed out before the snapshot was taken are not handed out again. -/
theorem le_nextId_ofSnapshot : n.nextId.toNat ≤ (ofSnapshot n).nextId.toNat := by
  rw [nextId_ofSnapshot, toNat_max, toNat_max]
  exact Nat.le_trans (Nat.le_max_left _ _) (Nat.le_max_left _ _)

/-- The counter starts above all nodes if there is a number above them. -/
theorem lt_nextId_ofSnapshot (h : (ofSnapshot n).highestId.toNat + 1 < 2 ^ 64)
    (hid : id ∈ (ofSnapshot n).nodeIds) : id.val.toNat < (ofSnapshot n).nextId.toNat := by
  have hle := le_highestId hid
  rw [nextId_ofSnapshot, toNat_max, UInt64.toNat_add, UInt64.toNat_one, Nat.mod_eq_of_lt h]
  omega

/-- If there is none, the counter starts as if there were no nodes. -/
theorem nextId_ofSnapshot_of_last (h : ¬(ofSnapshot n).highestId.toNat + 1 < 2 ^ 64) :
    (ofSnapshot n).nextId = max n.nextId 1 := by
  have hlt := (ofSnapshot n).highestId.toNat_lt
  have hzero : (ofSnapshot n).highestId + 1 = 0 := by
    apply UInt64.toNat_inj.1
    rw [UInt64.toNat_add, UInt64.toNat_one]
    show _ % 2 ^ 64 = 0
    omega
  rw [nextId_ofSnapshot, hzero]
  exact max_eq_left (Nat.zero_le _)

/-- The ids that a restored store hands out ascend as long as they fit, whatever is done to it in
between, and none of them was handed out before the snapshot was taken. None of them is that of a
restored node, however many are asked for, just if no node of the snapshot has the last id. This is
just if the number above all nodes fits. If it does not, the counter starts as if there were no
nodes. -/
theorem unused_iff (n : Snapshot) :
    (∀ ops, (ofSnapshot n).EnoughIds ops →
      ((ofSnapshot n).handedOut ops).Pairwise (fun a b => a.val < b.val) ∧
      ∀ id ∈ (ofSnapshot n).handedOut ops, n.nextId ≤ id.val) ∧
    ((∀ ops, (ofSnapshot n).EnoughIds ops →
      ∀ id ∈ (ofSnapshot n).handedOut ops, id ∉ (ofSnapshot n).nodeIds) ↔
        NodeId.last ∉ n.nodeIds) ∧
    ((ofSnapshot n).highestId.toNat + 1 < 2 ^ 64 ↔ NodeId.last ∉ n.nodeIds) ∧
    (NodeId.last ∈ n.nodeIds → (ofSnapshot n).nextId = max n.nextId 1) := by
  have hroom := @highestId_add_one_lt_iff (ofSnapshot n)
  rw [mem_nodeIds_ofSnapshot] at hroom
  refine ⟨fun ops henough => ⟨pairwise_handedOut henough, fun id hid => ?_⟩,
    ⟨fun hnew hlast => ?_, fun hlast ops henough id hid hused => ?_⟩, hroom,
    fun hlast => nextId_ofSnapshot_of_last fun h => hroom.1 h hlast⟩
  · exact UInt64.le_iff_toNat_le.2
      (Nat.le_trans le_nextId_ofSnapshot ((mem_handedOut_iff henough).1 hid).1)
  · obtain ⟨ops, henough, hid⟩ := exists_last_mem_handedOut (ofSnapshot n)
    exact hnew ops henough _ hid (mem_nodeIds_ofSnapshot.2 hlast)
  · have hbelow := lt_nextId_ofSnapshot (hroom.2 hlast) hused
    exact Nat.not_le_of_lt hbelow ((mem_handedOut_iff henough).1 hid).1

/-- A snapshot whose counter lags behind its nodes. They are in no order, and an id is listed
twice. -/
def sampleLagging : Snapshot where
  nextId := 0
  tags := [⟨7, "v1"⟩, ⟨3, "v2"⟩, ⟨7, "v3"⟩]
  directories := [{ id := 5, name := "src" }]

/-- Between the two ids that are handed out, a restored node is saved under another name. -/
theorem unused_iff_sample :
    NodeId.last ∉ sampleLagging.nodeIds ∧
      (ofSnapshot sampleLagging).EnoughIds
        [.allocate, .saveDirectory { id := 5, name := "lib" }, .allocate] ∧
      (ofSnapshot sampleLagging).handedOut
        [.allocate, .saveDirectory { id := 5, name := "lib" }, .allocate] = [8, 9] ∧
      8 ∉ (ofSnapshot sampleLagging).nodeIds ∧ 9 ∉ (ofSnapshot sampleLagging).nodeIds := by
  have hlast : NodeId.last ∉ sampleLagging.nodeIds := by decide
  have henough : (ofSnapshot sampleLagging).EnoughIds
      [.allocate, .saveDirectory { id := 5, name := "lib" }, .allocate] := by decide +kernel
  have hids : (ofSnapshot sampleLagging).handedOut
      [.allocate, .saveDirectory { id := 5, name := "lib" }, .allocate] = [8, 9] := by
    decide +kernel
  have hnew := (unused_iff sampleLagging).2.1.2 hlast _ henough
  rw [hids] at hnew
  exact ⟨hlast, henough, hids, hnew 8 (by decide), hnew 9 (by decide)⟩

/-- A snapshot that has a node with the first id and one with the last id. -/
def sampleLast : Snapshot where
  nextId := 1
  directories := [{ id := 1, name := "src" }, { id := NodeId.last, name := "lib" }]

/-- The snapshot can be read from a file. The number above its nodes does not have 64 bits, and the
first id that is handed out is that of a node. -/
theorem handed_out_again :
    Snapshot.ofText? sampleLast.text = some sampleLast ∧
      ¬(ofSnapshot sampleLast).highestId.toNat + 1 < 2 ^ 64 ∧
      (ofSnapshot sampleLast).EnoughIds [.allocate] ∧
      (ofSnapshot sampleLast).handedOut [.allocate] = [1] ∧
      1 ∈ (ofSnapshot sampleLast).nodeIds :=
  ⟨Snapshot.ofText?_text (by decide +kernel), by decide +kernel, by decide +kernel,
    by decide +kernel, by decide +kernel⟩

end Store

end Cityscape
