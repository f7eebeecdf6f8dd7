import Cityscape.Proofs.Codecs
import Cityscape.Proofs.Keys

/-!
# `Durability`: a store survives being written and read back

A snapshot has all that a store has, and the next id is above those of all nodes, so the store that
is made from its snapshot is the same one (`Store.ofSnapshot_snapshot`). The snapshot is read back
from its text (`Snapshot.ofText?_text`). So whoever tells and asks cannot find out when the store
has been written to a file and opened again (`Store.durability`).
-/

namespace Cityscape

/-! ## A store and its snapshot -/

theorem toNat_max (a b : UInt64) : (max a b).toNat = max a.toNat b.toNat := by
  show (if a ≤ b then b else a).toNat = _
  split
  · rename_i h
    exact (Nat.max_eq_right h).symm
  · rename_i h
    exact (Nat.max_eq_left (Nat.le_of_not_le h)).symm

theorem max_eq_left {a b : UInt64} (h : b.toNat ≤ a.toNat) : max a b = a :=
  UInt64.toNat_inj.1 ((toNat_max a b).trans (Nat.max_eq_left h))

namespace Store

variable {s : Store} {n : Nat}

/-- The last node of a table has the greatest id. -/
theorem lastId_le_iff {α : Type} {key : α → NodeId} {t : Sorted key} :
    (lastId t).toNat ≤ n ↔ ∀ x ∈ t, (key x).Issued n := by
  unfold lastId
  cases hlast : t.last? with
  | none =>
    have hnil : t.toList = [] := List.getLast?_eq_none_iff.1 hlast
    refine ⟨fun _ x hx => ?_, fun _ => Nat.zero_le n⟩
    exact absurd (hnil ▸ hx : x ∈ []) List.not_mem_nil
  | some x =>
    refine ⟨fun h y hy => ?_, fun h => h x (List.mem_of_getLast? hlast)⟩
    obtain ⟨before, hlist⟩ := List.getLast?_eq_some_iff.1 hlast
    have hascending := t.ascending
    have hmem : y ∈ t.toList := hy
    rw [hlist] at hascending hmem
    rcases List.mem_append.1 hmem with hbefore | hx
    · have hlt := (List.pairwise_append.1 hascending).2.2 y hbefore x List.mem_cons_self
      exact Nat.le_trans (Nat.le_of_lt (NodeId.compare_eq_lt.1 hlt)) h
    · exact List.mem_singleton.1 hx ▸ h

theorem foldl_max_le_iff {l : List UInt64} {m : UInt64} :
    (l.foldl max m).toNat ≤ n ↔ m.toNat ≤ n ∧ ∀ x ∈ l, x.toNat ≤ n := by
  induction l generalizing m with
  | nil => exact (and_iff_left nofun).symm
  | cons x l ih => rw [List.foldl_cons, ih, toNat_max, Nat.max_le, List.forall_mem_cons, and_assoc]

/-- The highest id is the greatest one of a node. -/
theorem highestId_le_iff : s.highestId.toNat ≤ n ↔ ∀ id ∈ s.nodeIds, id.Issued n := by
  unfold highestId
  rw [foldl_max_le_iff]
  simp only [List.forall_mem_cons, lastId_le_iff, nodeIds, Table.all, List.flatMap_cons,
    List.flatMap_nil, List.forall_mem_append, idsIn, List.forall_mem_map, Sorted.mem_toList,
    List.not_mem_nil, false_imp_iff, implies_true]
  exact and_iff_right (Nat.zero_le n)

/-- The store that is made from the snapshot of a store is that store, as long as there are ids
left. -/
theorem ofSnapshot_snapshot (h : s.Numbered n) (hn : n + 1 < 2 ^ 64) :
    ofSnapshot s.snapshot = s := by
  have hnext : s.nextId.toNat = n + 1 := h.next_toNat hn
  have hhighest : s.highestId.toNat ≤ n := highestId_le_iff.2 fun _ => h.toWithin.of_nodeIds
  have hpositive : max s.nextId 1 = s.nextId := by
    refine max_eq_left ?_
    rw [hnext]
    exact Nat.le_add_left 1 n
  have habove : max s.nextId (s.highestId + 1) = s.nextId := by
    refine max_eq_left ?_
    rw [hnext, UInt64.toNat_add, UInt64.toNat_one, Nat.mod_eq_of_lt (by omega)]
    omega
  unfold ofSnapshot snapshot
  simp only [Sorted.ofList_toList, hpositive]
  exact congrArg (fun id => { s with nextId := id }) habove

/-- All dates and doubles of the store are read back from their texts. -/
def ReadBack (s : Store) : Prop := s.snapshot.ReadBack

instance (s : Store) : Decidable s.ReadBack := inferInstanceAs (Decidable s.snapshot.ReadBack)

/-- The JSON value that is written for a store is read as that store. -/
theorem decode_encode_snapshot (h : s.Numbered n) (hn : n + 1 < 2 ^ 64) (hs : s.ReadBack) :
    (Snapshot.codec.decode (Snapshot.codec.encode s.snapshot)).map ofSnapshot = .ok s := by
  have hdecode : Snapshot.codec.decode (Snapshot.codec.encode s.snapshot) = .ok s.snapshot :=
    (Snapshot.codec_keeps hs).readsBack
  rw [hdecode]
  exact congrArg Except.ok (ofSnapshot_snapshot h hn)

/-- The text that is written for a store is read as that store. -/
theorem reopened?_eq (h : s.Numbered n) (hn : n + 1 < 2 ^ 64) (hs : s.ReadBack) :
    s.reopened? = some s := by
  unfold reopened?
  rw [Snapshot.ofText?_text hs]
  exact congrArg some (ofSnapshot_snapshot h hn)

end Store

/-! ## Sessions -/

/-- What a call or a query is answered with. -/
inductive Reply where
  | repository (r : Except Fault RepositoryReply)
  | commit (r : Except Fault Commit)
  | file (r : Except Fault Nat)
  | span (r : Except Fault Span)
  | query (r : Except Fault Answer)

/-- What a call is answered with. -/
def Ingestion.reply (s : Store) : Ingestion → Reply
  | repository f => .repository (Edit.ingestRepository f s).result
  | commit f => .commit (Edit.ingestCommit f s).result
  | file f => .file (Edit.ingestFile f s).result
  | span f => .span (Edit.ingestSpan f s).result

/-- What happens to a store. -/
inductive Event where
  | call (i : Ingestion)
  | query (token : String) (q : Query)
  /-- The store is written to a file and opened again. -/
  | reopening

namespace Event

/-- Whether somebody waits for an answer. -/
def isAnswered : Event → Bool
  | reopening => false
  | call _ | query _ _ => true

/-- The call, if it is one. -/
def call? : Event → Option Ingestion
  | call i => some i
  | query _ _ | reopening => none

end Event

namespace Store

/-- The answers that are given one after another, until the store cannot be reopened. -/
def replies (reopen : Store → Option Store) (s : Store) : List Event → List Reply
  | [] => []
  | .call i :: rest => i.reply s :: replies reopen (i.edit s).store rest
  | .query token q :: rest => .query (q.answer s token) :: replies reopen s rest
  | .reopening :: rest =>
    match reopen s with
    | some s => replies reopen s rest
    | none => []

theorem replies_reopening {reopen : Store → Option Store} {s s' : Store} (h : reopen s = some s')
    (rest : List Event) : s.replies reopen (.reopening :: rest) = s'.replies reopen rest := by
  rw [replies, h]

/-- The store after the calls among a number of events. -/
def afterEvents (events : List Event) : Store := (∅ : Store).after (events.filterMap Event.call?)

theorem afterEvents_call (events : List Event) (i : Ingestion) :
    afterEvents (events ++ [.call i]) = (i.edit (afterEvents events)).store := by
  unfold afterEvents
  rw [List.filterMap_append, after_append]
  rfl

theorem afterEvents_of_call?_eq_none (events : List Event) {e : Event} (h : e.call? = none) :
    afterEvents (events ++ [e]) = afterEvents events := by
  unfold afterEvents
  rw [List.filterMap_append, List.filterMap_cons_none h, List.filterMap_nil, List.append_nil]

/-- What follows is answered as if nothing had been reopened. -/
theorem replies_rest {reopen : Store → Option Store} {rest : List Event} :
    ∀ {before : List Event},
      (∀ past future, before ++ rest = past ++ .reopening :: future →
        reopen (afterEvents past) = some (afterEvents past)) →
      (afterEvents before).replies reopen rest =
        (afterEvents before).replies reopen (rest.filter Event.isAnswered) := by
  induction rest with
  | nil =>
    intro before h
    rw [List.filter_nil]
  | cons e rest ih =>
    intro before h
    have hih := @ih (before ++ [e]) (by rwa [List.append_assoc])
    cases e with
    | call i =>
      rw [afterEvents_call] at hih
      exact congrArg (i.reply (afterEvents before) :: ·) hih
    | query token q =>
      rw [afterEvents_of_call?_eq_none before rfl] at hih
      exact congrArg (.query (q.answer (afterEvents before) token) :: ·) hih
    | reopening =>
      rw [afterEvents_of_call?_eq_none before rfl] at hih
      have hopen : reopen (afterEvents before) = some (afterEvents before) := h before rest rfl
      exact (replies_reopening hopen rest).trans hih

/-- As long as there are ids left, the store that is made from the snapshot of a store is that
store. If all dates and doubles in it are read back from their texts, it also comes back from the
JSON value and from the text that are written to a file. So calls and queries are answered as if no
file had been written and opened in between. -/
theorem durability (events : List Event)
    (hids : (∅ : Store).idsIssued (events.filterMap Event.call?) + 1 < 2 ^ 64) :
    ofSnapshot (afterEvents events).snapshot = afterEvents events ∧
    ((afterEvents events).ReadBack →
      (Snapshot.codec.decode (Snapshot.codec.encode (afterEvents events).snapshot)).map ofSnapshot
        = .ok (afterEvents events) ∧
      (afterEvents events).reopened? = some (afterEvents events)) ∧
    ((∀ past future, events = past ++ .reopening :: future → (afterEvents past).ReadBack) →
      (∅ : Store).replies reopened? events =
        (∅ : Store).replies reopened? (events.filter Event.isAnswered)) := by
  obtain ⟨owner, hs⟩ := sound_after_empty _ (Nat.lt_of_succ_lt hids)
  refine ⟨ofSnapshot_snapshot hs.numbered hids, fun hread => ⟨?_, ?_⟩, fun hread => ?_⟩
  · exact decode_encode_snapshot hs.numbered hids hread
  · exact reopened?_eq hs.numbered hids hread
  · refine @replies_rest reopened? events [] fun past future he => ?_
    have hpast : (∅ : Store).idsIssued (past.filterMap Event.call?) + 1 < 2 ^ 64 := by
      rw [show events = past ++ .reopening :: future from he, List.filterMap_append,
        idsIssued_append] at hids
      omega
    obtain ⟨owner', hs'⟩ := sound_after_empty _ (Nat.lt_of_succ_lt hpast)
    exact reopened?_eq hs'.numbered hpast (hread past future he)

end Store

/-- A commit with a date and a file with a metric, told before the store is reopened. -/
def Event.sampleBefore : List Event :=
  [.call (.repository { landscapeToken := "t", repositoryName := "shop", branchName := "" }),
    .call (.commit
      { landscapeToken := "t", repositoryName := "shop", commitHash := "c1"
        authorDate := some ⟨1714557600, 500000000⟩, addedFiles := [⟨"h1", "src/a.rs"⟩] }),
    .call (.file
      { landscapeToken := "t", repositoryName := "shop", fileHash := "h1", language := .python
        metrics := Sorted.ofList [("loc", .ofInt 12), ("ratio", .ofRatio false 1 10)] })]

/-- The commit is asked for after the store has been reopened. -/
def Event.sample : List Event :=
  sampleBefore ++ .reopening :: [.query "t" (.latestCommit "shop" "main")]

theorem Store.durability_sample :
    (∅ : Store).idsIssued (Event.sample.filterMap Event.call?) + 1 < 2 ^ 64 ∧
      (afterEvents Event.sample).ReadBack ∧
      (afterEvents Event.sample).reopened? = some (afterEvents Event.sample) ∧
      (∅ : Store).replies reopened? Event.sample =
        (∅ : Store).replies reopened? (Event.sample.filter Event.isAnswered) := by
  have hids : (∅ : Store).idsIssued (Event.sample.filterMap Event.call?) + 1 < 2 ^ 64 := by
    decide +kernel
  have hread : (afterEvents Event.sampleBefore).ReadBack := by decide +kernel
  have hpast (past future : List Event) (he : Event.sample = past ++ .reopening :: future) :
      (afterEvents past).ReadBack := by
    match past, he with
    | [_, _, _], he =>
      cases he
      exact hread
    | _ :: _ :: _ :: _ :: past, he =>
      have hquery : [.query "t" (.latestCommit "shop" "main")] = past ++ .reopening :: future :=
        (List.cons.inj (List.cons.inj (List.cons.inj (List.cons.inj he).2).2).2).2
      rcases past with _ | ⟨e, past⟩
      · cases hquery
      · exact absurd (List.cons.inj hquery).2.symm (by simp)
  obtain ⟨-, hwritten, hreplies⟩ := durability Event.sample hids
  exact ⟨hids, hread, (hwritten hread).2, hreplies hpast⟩

end Cityscape
