import Cityscape.Proofs.Calls

/-!
# `History`: a commit is what its facts say

Whatever is told in between, the account of a commit is made of the commit facts alone: each fact
is added to the account of its commit, a parent that is named for the first time comes in with an
empty account, and all other accounts stay as they are (`Store.Sound.account_call`). So after any
calls of which no commit call failed, the account is the one that the facts about the commit give
(`Store.account_of_calls`).
-/

namespace Cityscape

/-- What is known of each commit of each landscape, by its hash. -/
abbrev Accounts := String → String → Option CommitAccount

/-- The accounts after one more commit fact. -/
def CommitFact.recordIn (f : CommitFact) (a : Accounts) : Accounts := fun token hash =>
  if token = f.landscapeToken ∧ hash = f.commitHash then some (((a token hash).getD {}).withFact f)
  else if token = f.landscapeToken ∧ f.parentNamed = some hash then some ((a token hash).getD {})
  else a token hash

/-- The accounts after one more call. -/
def Ingestion.recordIn (i : Ingestion) (a : Accounts) : Accounts :=
  match i with
  | commit f => f.recordIn a
  | _ => a

namespace Store

variable {owner : NodeId → String} {t : String} {k : Topic} {n j : Nat} {s s' : Store}

/-! ## One call -/

/-- A call that is not about a commit leaves its account as it is. -/
theorem Sound.account_of_steps (hs : s.Sound owner n) (h : Steps owner t k j s s')
    (hn : n + j < 2 ^ 64) {token hash : String} {a : CommitAccount}
    (spared : ∀ x parent, k = .commit x parent → (token, hash) ≠ (t, x))
    (ha : s.account token hash = some a) : s'.account token hash = some a := by
  obtain ⟨hs', g⟩ := h.sound_and_grows hs hn
  obtain ⟨c, hfind, rfl⟩ := Option.map_eq_some_iff.1 ha
  obtain ⟨hc, rfl, rfl⟩ := hs.keyed.findCommit_eq_some_iff.1 hfind
  have same := h.sameCommit hs hn hc spared
  have hc' := same.mem hc
  rw [hs'.keyed.account_eq hc', hs.accountAt_of_same hs' g same, ← hs.keyed.account_eq hc, ha]

/-- If a commit that the call is not about turns up, it is the parent that is named, and nothing
is known of it. -/
theorem Sound.account_of_new (hs : s.Sound owner n) (h : Steps owner t k j s s')
    (hn : n + j < 2 ^ 64) {token hash : String} {a : CommitAccount}
    (spared : ∀ x parent, k = .commit x parent → (token, hash) ≠ (t, x))
    (hnone : s.account token hash = none) (ha : s'.account token hash = some a) :
    a = {} ∧ token = t ∧ ∃ x, k = .commit x (some hash) := by
  obtain ⟨hs', g⟩ := h.sound_and_grows hs hn
  obtain ⟨c, hfind, rfl⟩ := Option.map_eq_some_iff.1 ha
  obtain ⟨hc, rfl, rfl⟩ := hs'.keyed.findCommit_eq_some_iff.1 hfind
  rcases h.commit_origin hs hn hc spared with ⟨hold, -⟩ | ⟨hnamed, hblank, hfree⟩
  · rw [hs.keyed.account_eq hold, accountAt, Sorted.get?_key hold] at hnone
    cases hnone
  · have hholders : s'.holders c.id = ∅ := by
      rw [Finset.eq_empty_iff_forall_notMem]
      intro key hkey
      obtain ⟨r, hr, hid, -⟩ := mem_holders.1 hkey
      exact hfree r hr hid
    refine ⟨?_, by rw [hblank], hnamed⟩
    unfold accountOf
    rw [hholders, hblank]
    rfl

/-- A commit that is named as a parent exists. -/
theorem Sound.account_of_parent (hs : s.Sound owner n) {token hash parent : String}
    {a : CommitAccount} (ha : s.account token hash = some a) (hp : parent ∈ a.parents) :
    ∃ b, s.account token parent = some b := by
  obtain ⟨c, hfind, rfl⟩ := Option.map_eq_some_iff.1 ha
  obtain ⟨hc, rfl, rfl⟩ := hs.keyed.findCommit_eq_some_iff.1 hfind
  obtain ⟨i, hi, x, hx, rfl⟩ := Sorted.mem_namesIn.1 hp
  obtain ⟨y, hy, htoken⟩ := (hs.fitting.commits c hc).parents i hi
  obtain rfl := Option.some.inj (hx.symm.trans hy)
  have hx' := Sorted.mem_of_get? hx
  refine ⟨s.accountOf x, ?_⟩
  rw [← htoken, hs.keyed.account_eq hx', accountAt, Sorted.get?_key hx']
  rfl

/-- A commit fact that is taken in is recorded, and nothing else is. -/
theorem account_ingestCommit {f : CommitFact} (h : Ready owner f.landscapeToken n s)
    (hn : n + ((Ingestion.commit f).edit s).issued < 2 ^ 64)
    (hok : (Ingestion.commit f).succeeds s = true) (token hash : String) :
    ((Ingestion.commit f).edit s).store.account token hash = f.recordIn s.account token hash := by
  have hruns : Runs owner f.landscapeToken (.commit f.commitHash f.parentNamed)
      (Ingestion.commit f).edit n s
      (fun _ s' => s'.account f.landscapeToken f.commitHash
        = some (((s.account f.landscapeToken f.commitHash).getD {}).withFact f))
      fun _ => True :=
    Runs.bind h ((Edit.runs_ingestCommit h).mono (fun _ _ hP => hP.account) fun _ _ => trivial)
      fun _ _ _ _ _ hP => Runs.pure hP
  obtain ⟨hsteps, hpost, -⟩ := hruns hn
  unfold Ingestion.succeeds at hok
  generalize (Ingestion.commit f).edit s = o at hn hok hsteps hpost
  obtain ⟨hs', g⟩ := hsteps.sound_and_grows h.sound hn
  have hown : o.store.account f.landscapeToken f.commitHash
      = some (((s.account f.landscapeToken f.commitHash).getD {}).withFact f) := by
    rcases hresult : o.result with x | u
    · rw [hresult] at hok
      cases hok
    · exact hpost u hresult
  unfold CommitFact.recordIn
  by_cases hself : token = f.landscapeToken ∧ hash = f.commitHash
  · obtain ⟨rfl, rfl⟩ := hself
    rw [if_pos ⟨rfl, rfl⟩, hown]
  rw [if_neg hself]
  have spared : ∀ x parent, Topic.commit f.commitHash f.parentNamed = .commit x parent →
      (token, hash) ≠ (f.landscapeToken, x) := by
    intro x parent he hk
    cases he
    exact hself (Prod.ext_iff.1 hk)
  -- another commit keeps its account if it has one, and gets an empty one as the parent
  cases hbefore : s.account token hash with
  | some a =>
    rw [h.sound.account_of_steps hsteps hn spared hbefore, Option.getD_some, ite_self]
  | none =>
    by_cases hparent : token = f.landscapeToken ∧ f.parentNamed = some hash
    · obtain ⟨rfl, hnamed⟩ := hparent
      rw [if_pos ⟨rfl, hnamed⟩, Option.getD_none]
      have hmem :
          hash ∈ (((s.account f.landscapeToken f.commitHash).getD {}).withFact f).parents := by
        refine Finset.mem_union_right _ ?_
        rw [hnamed]
        exact Option.mem_toFinset.2 rfl
      obtain ⟨b, hb⟩ := hs'.account_of_parent hown hmem
      obtain ⟨rfl, -⟩ := h.sound.account_of_new hsteps hn spared hbefore hb
      exact hb
    · rw [if_neg hparent]
      cases hafter : o.store.account token hash with
      | none => rfl
      | some b =>
        obtain ⟨-, htoken, x, hx⟩ := h.sound.account_of_new hsteps hn spared hbefore hafter
        exact absurd ⟨htoken, (Topic.commit.inj hx).2⟩ hparent

/-- A call records what it says of commits: a commit call its fact, any other call nothing. -/
theorem Sound.account_call (hs : s.Sound owner n) (i : Ingestion)
    (hn : n + (i.edit s).issued < 2 ^ 64)
    (hok : ∀ f, i.commitFact? = some f → i.succeeds s = true) :
    (i.edit s).store.account = i.recordIn s.account := by
  obtain ⟨owner', -, hready, hsteps⟩ := hs.call i hn
  have other : (∀ x parent, i.topic ≠ .commit x parent) →
      (i.edit s).store.account = s.account := by
    intro htopic
    funext token hash
    have spared : ∀ x parent, i.topic = .commit x parent → (token, hash) ≠ (i.token, x) :=
      fun x parent he => absurd he (htopic x parent)
    cases hbefore : s.account token hash with
    | some a => exact hready.sound.account_of_steps hsteps hn spared hbefore
    | none =>
      cases hafter : (i.edit s).store.account token hash with
      | none => rfl
      | some b =>
        obtain ⟨-, -, x, hx⟩ := hready.sound.account_of_new hsteps hn spared hbefore hafter
        exact absurd hx (htopic x _)
  cases i with
  | commit f =>
    funext token hash
    exact account_ingestCommit hready hn (hok f rfl) token hash
  | repository f => exact other nofun
  | file f => exact other nofun
  | span f => exact other nofun

/-! ## Any number of calls -/

/-- No commit call fails. -/
def commitsSucceed (s : Store) : List Ingestion → Bool
  | [] => true
  | i :: rest => (i.commitFact?.isNone || i.succeeds s) && commitsSucceed (i.edit s).store rest

/-- The accounts after a number of calls, of which no commit call failed. -/
theorem Sound.account_after {calls : List Ingestion} :
    ∀ {owner : NodeId → String} {n : Nat} {s : Store}, s.Sound owner n →
      n + s.idsIssued calls < 2 ^ 64 → s.commitsSucceed calls = true →
      (s.after calls).account = calls.foldl (fun a i => i.recordIn a) s.account := by
  induction calls with
  | nil =>
    intro owner n s _ _ _
    rfl
  | cons i rest ih =>
    intro owner n s hs hn hok
    have hn' : n + ((i.edit s).issued + (i.edit s).store.idsIssued rest) < 2 ^ 64 := hn
    rw [commitsSucceed, Bool.and_eq_true, Bool.or_eq_true] at hok
    have hcall := hs.account_call i (by omega) fun f hf =>
      hok.1.resolve_left (by simp [hf])
    obtain ⟨owner', -, hready, hsteps⟩ := hs.call i (by omega)
    obtain ⟨hs', -⟩ := hsteps.sound_and_grows hready.sound (by omega)
    rw [Store.after, ih hs' (by omega) hok.2, hcall, List.foldl_cons]

end Store

/-! ## The facts about one commit -/

/-- The fact of a call, if it is about the commit of a landscape with the given hash. -/
def Ingestion.factAbout (token hash : String) (i : Ingestion) : Option CommitFact :=
  i.commitFact?.filter fun f => f.landscapeToken = token ∧ f.commitHash = hash

/-- Whether a call names the commit of a landscape with the given hash, as the commit that it is
about or as its parent. -/
def Ingestion.names (token hash : String) (i : Ingestion) : Bool :=
  i.commitFact?.any fun f =>
    f.landscapeToken = token ∧ (f.commitHash = hash ∨ f.parentNamed = some hash)

/-- What a number of calls say of a commit, if one of them names it. -/
def CommitAccount.ofCalls (token hash : String) (calls : List Ingestion) : Option CommitAccount :=
  if calls.any (Ingestion.names token hash) then
    some (ofFacts (calls.filterMap (Ingestion.factAbout token hash)))
  else none

/-- The account after the given facts. -/
def CommitAccount.withFacts (a : CommitAccount) (fs : List CommitFact) : CommitAccount :=
  fs.foldl withFact a

theorem CommitAccount.withFacts_empty (fs : List CommitFact) :
    withFacts {} fs = ofFacts fs := by
  induction fs using List.reverseRecOn with
  | nil => rfl
  | append_singleton fs f ih =>
    rw [ofFacts_concat, ← ih]
    unfold withFacts
    rw [List.foldl_append]
    rfl

/-- The accounts after a number of calls: to the account of each commit that one of them names the
facts about it are added. -/
def Accounts.told (a : Accounts) (calls : List Ingestion) : Accounts := fun token hash =>
  if calls.any (Ingestion.names token hash) then
    some (((a token hash).getD {}).withFacts (calls.filterMap (Ingestion.factAbout token hash)))
  else a token hash

namespace Accounts

/-- Of a commit that no call names no fact is told. -/
theorem getD_told (a : Accounts) (calls : List Ingestion) (token hash : String) :
    (told a calls token hash).getD {}
      = ((a token hash).getD {}).withFacts
        (calls.filterMap (Ingestion.factAbout token hash)) := by
  unfold told
  by_cases hany : calls.any (Ingestion.names token hash) = true
  · rw [if_pos hany, Option.getD_some]
  · have hnil : calls.filterMap (Ingestion.factAbout token hash) = [] := by
      rw [List.filterMap_eq_nil_iff]
      intro i hi
      rw [Bool.not_eq_true, List.any_eq_false] at hany
      have hnot := hany i hi
      unfold Ingestion.names at hnot
      unfold Ingestion.factAbout
      cases hf : i.commitFact? with
      | none => rfl
      | some f =>
        rw [hf] at hnot
        simp only [Option.any_some, decide_eq_true_eq, not_and, not_or] at hnot
        rw [Option.filter_some, if_neg]
        simp only [decide_eq_true_eq, not_and]
        exact fun ht => (hnot ht).1
    rw [if_neg hany, hnil]
    rfl

/-- One more call changes the accounts as recording it does. -/
theorem told_concat (a : Accounts) (calls : List Ingestion) (i : Ingestion) (token hash : String) :
    told a (calls ++ [i]) token hash = i.recordIn (told a calls) token hash := by
  have hget := getD_told a calls token hash
  have hold : told a calls token hash
      = if calls.any (Ingestion.names token hash) then
          some (((a token hash).getD {}).withFacts
            (calls.filterMap (Ingestion.factAbout token hash)))
        else a token hash := rfl
  unfold told
  rw [List.any_append, List.filterMap_append]
  -- a call that does not name the commit adds nothing
  have other : i.names token hash = false → i.factAbout token hash = none →
      (if (calls.any (Ingestion.names token hash) || [i].any (Ingestion.names token hash)) = true
        then some (((a token hash).getD {}).withFacts
          (calls.filterMap (Ingestion.factAbout token hash)
            ++ [i].filterMap (Ingestion.factAbout token hash)))
        else a token hash) = told a calls token hash := by
    intro hnames habout
    rw [hold]
    simp only [List.any_cons, hnames, List.any_nil, Bool.or_false, List.filterMap_cons, habout,
      List.filterMap_nil, List.append_nil]
  cases i with
  | commit f =>
    show _ = f.recordIn (told a calls) token hash
    unfold CommitFact.recordIn
    by_cases hself : token = f.landscapeToken ∧ hash = f.commitHash
    · obtain ⟨rfl, rfl⟩ := hself
      have hnames : (Ingestion.commit f).names f.landscapeToken f.commitHash = true := by
        simp [Ingestion.names, Ingestion.commitFact?]
      have habout : (Ingestion.commit f).factAbout f.landscapeToken f.commitHash = some f := by
        simp [Ingestion.factAbout, Ingestion.commitFact?]
      rw [if_pos (by simp [hnames]), if_pos ⟨rfl, rfl⟩, hget]
      unfold CommitAccount.withFacts
      rw [List.foldl_append, List.filterMap_cons, habout]
      rfl
    · have habout : (Ingestion.commit f).factAbout token hash = none := by
        unfold Ingestion.factAbout Ingestion.commitFact?
        rw [Option.filter_some, if_neg]
        simp only [decide_eq_true_eq]
        exact fun h => hself ⟨h.1.symm, h.2.symm⟩
      rw [if_neg hself]
      by_cases hparent : token = f.landscapeToken ∧ f.parentNamed = some hash
      · have hnames : (Ingestion.commit f).names token hash = true := by
          simp [Ingestion.names, Ingestion.commitFact?, hparent.1, hparent.2]
        rw [if_pos hparent, if_pos (by simp [hnames]), hget]
        simp only [List.filterMap_cons, habout, List.filterMap_nil, List.append_nil]
      · have hnames : (Ingestion.commit f).names token hash = false := by
          simp only [Ingestion.names, Ingestion.commitFact?, Option.any_some,
            decide_eq_false_iff_not]
          rintro ⟨rfl, rfl | hp⟩
          · exact hself ⟨rfl, rfl⟩
          · exact hparent ⟨rfl, hp⟩
        rw [if_neg hparent]
        exact other hnames habout
  | repository f => exact other rfl rfl
  | file f => exact other rfl rfl
  | span f => exact other rfl rfl

/-- Recording one call after another gives what all of them say. -/
theorem foldl_recordIn (a : Accounts) (calls : List Ingestion) :
    calls.foldl (fun a i => i.recordIn a) a = told a calls := by
  induction calls using List.reverseRecOn with
  | nil => rfl
  | append_singleton calls i ih =>
    rw [List.foldl_append, List.foldl_cons, List.foldl_nil, ih]
    funext token hash
    exact (told_concat a calls i token hash).symm

/-- Starting from nothing, the facts are all that is known. -/
theorem told_nothing (calls : List Ingestion) (token hash : String) :
    told (fun _ _ => none) calls token hash = CommitAccount.ofCalls token hash calls := by
  unfold told CommitAccount.ofCalls
  rw [Option.getD_none, CommitAccount.withFacts_empty]

end Accounts

/-- After any calls from the empty store of which no commit call failed, a commit exists just if
a fact names it, and it is exactly what the facts about it say. -/
theorem Store.account_of_calls (calls : List Ingestion)
    (hids : (∅ : Store).idsIssued calls < 2 ^ 64)
    (hok : (∅ : Store).commitsSucceed calls = true) (token hash : String) :
    ((∅ : Store).after calls).account token hash = CommitAccount.ofCalls token hash calls := by
  have hs := (Store.sound_empty fun _ => "").account_after (by rw [Nat.zero_add]; exact hids) hok
  rw [hs, Accounts.foldl_recordIn]
  exact Accounts.told_nothing calls token hash

/-- A commit that is told twice has the branch of the second fact, and the parent of the first one, as
an empty hash names no parent. The other commit has no parent. -/
theorem Store.account_of_calls_sample :
    (∅ : Store).idsIssued Ingestion.sample < 2 ^ 64 ∧
      (∅ : Store).commitsSucceed Ingestion.sample = true ∧
      ((∅ : Store).after Ingestion.sample).account "t" "c2" = some
        { branch := some ⟨"t", "shop", "main"⟩
          author := some "ann"
          parents := {"c1"}
          tags := {"v2"}
          files := {(some "h2", ["src", "b.rs"]), (some "h1", ["src", "a.rs"])}
          repositories := {("t", "shop")} } ∧
      ((∅ : Store).after Ingestion.sample).account "t" "c1" = some
        { branch := some ⟨"t", "shop", "main"⟩
          repositories := {("t", "shop")} } := by
  have hids : (∅ : Store).idsIssued Ingestion.sample < 2 ^ 64 := by decide +kernel
  have hok : (∅ : Store).commitsSucceed Ingestion.sample = true := by decide +kernel
  refine ⟨hids, hok, ?_, ?_⟩
  · exact (Store.account_of_calls _ hids hok "t" "c2").trans (by decide +kernel)
  · exact (Store.account_of_calls _ hids hok "t" "c1").trans (by decide +kernel)

end Cityscape
