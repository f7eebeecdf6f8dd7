import Cityscape.Proofs.Forest

/-!
# `Registrations`: an application lives where it has been registered last

A repository fact puts each of its applications into a directory of its repository, wherever they
have been before, and no other call moves an application. So after any calls an application that has
ever been registered lives at the path of its last registration (`Store.registered_of_calls`).
-/

namespace Cityscape

open Store

variable {owner : NodeId → String} {n : Nat} {s : Store} {token name : String}

/-- The call registers an application. -/
def Ingestion.Registers (token name : String) : Ingestion → Prop
  | repository f => displayName f.repositoryName ≠ "" ∧ f.landscapeToken = token ∧
      name ∈ f.applicationPaths.toList.map Prod.fst
  | _ => False

/-- The fact is the last one of the calls that registers an application with the given name, and it
does so at the given path. -/
structure LastRegistration (calls : List Ingestion) (f : RepositoryFact) (name path : String) :
    Prop where
  told : ∃ earlier later, calls = earlier ++ .repository f :: later ∧
    ∀ i ∈ later, ¬i.Registers f.landscapeToken name
  named : displayName f.repositoryName ≠ ""
  path : (name, path) ∈ f.applicationPaths

/-- The last call registers the application, or it does not and an earlier one is the last to do
so. -/
theorem LastRegistration.of_concat {calls : List Ingestion} {i : Ingestion} {f : RepositoryFact}
    {path : String} (h : LastRegistration (calls ++ [i]) f name path) :
    i = .repository f ∨
      LastRegistration calls f name path ∧ ¬i.Registers f.landscapeToken name := by
  obtain ⟨earlier, later, hcalls, hlater⟩ := h.told
  rcases List.eq_nil_or_concat later with rfl | ⟨rest, last, rfl⟩
  · exact .inl (List.append_inj_right' hcalls rfl |> List.singleton_inj.1)
  · rw [List.concat_eq_append, ← List.cons_append, ← List.append_assoc] at hcalls
    obtain ⟨rfl, hi⟩ := List.append_inj' hcalls rfl
    obtain rfl := List.singleton_inj.1 hi
    rw [List.concat_eq_append] at hlater
    refine .inr ⟨{ h with told := ⟨earlier, rest, rfl, fun j hj => ?_⟩ }, ?_⟩
    · exact hlater j (List.mem_append_left _ hj)
    · exact hlater i (List.mem_append_right _ (List.mem_singleton_self i))

namespace Ingestion

/-- What a call that takes in a repository fact leaves behind. -/
theorem takenIn_repository {f : RepositoryFact} (h : Ready owner f.landscapeToken n s)
    (hn : n + ((repository f).edit s).issued < 2 ^ 64) (hname : displayName f.repositoryName ≠ "") :
    f.TakenIn s ((repository f).edit s).store := by
  obtain ⟨hstore, hissued⟩ := effect_repository s f
  rw [hissued] at hn
  rw [hstore]
  obtain ⟨_, _, -, hin, -⟩ := RepositoryFact.announced h hn hname
  exact hin

/-- An application stays as it is through a call that does not register it. -/
theorem findApplication_of_not_registers {i : Ingestion} (h : Ready owner i.token n s)
    (hn : n + (i.edit s).issued < 2 ^ 64) (hno : ¬i.Registers token name) {a : Application}
    (ha : s.findApplication token name = some a) :
    (i.edit s).store.findApplication token name = some a := by
  by_cases htopic : i.topic = .repository
  · cases i with
    | repository f =>
      by_cases hname : displayName f.repositoryName = ""
      · rw [(effect_repository s f).1, Edit.ingestRepository_of_noName hname]
        exact ha
      · rw [(takenIn_repository h hn hname).others token name fun ht hmem => hno
          ⟨hname, ht.symm, hmem⟩]
        exact ha
    | commit | file | span => cases htopic
  · obtain ⟨hmem, hatoken, haname⟩ := h.sound.keyed.applications.find?_eq_some_iff.1 ha
    have hsteps := (i.runs h hn).1
    obtain ⟨hs', -⟩ := hsteps.sound_and_grows h.sound hn
    exact hs'.keyed.applications.find?_eq_some_iff.2
      ⟨hsteps.mem_applications htopic h.sound hn hmem, hatoken, haname⟩

end Ingestion

namespace Store

/-- After any calls an application lives where the last repository fact that names it has put it. -/
theorem registered_of_calls (calls : List Ingestion) (hids : (∅ : Store).idsIssued calls < 2 ^ 64)
    {f : RepositoryFact} {path : String} (hlast : LastRegistration calls f name path) :
    ∃ r, ((∅ : Store).after calls).findRepository f.landscapeToken (displayName f.repositoryName)
        = some r ∧
      ((∅ : Store).after calls).Registered f.landscapeToken name r (splitPath path) := by
  refine call_induction (P := fun calls s => ∀ f name path, LastRegistration calls f name path →
    ∃ r, s.findRepository f.landscapeToken (displayName f.repositoryName) = some r ∧
      s.Registered f.landscapeToken name r (splitPath path)) ?_ ?_ calls hids f name path hlast
  · intro f name path hlast
    obtain ⟨earlier, later, hnil, -⟩ := hlast.told
    exact absurd hnil (List.append_ne_nil_of_right_ne_nil _ (List.cons_ne_nil _ _)).symm
  · intro owner n calls i hready hn ih f name path hlast
    rcases hlast.of_concat with rfl | ⟨hbefore, hno⟩
    · obtain ⟨r, hr, hregistered⟩ :=
        (Ingestion.takenIn_repository hready hn hlast.named).registered
      exact ⟨r, hr, hregistered (name, path) hlast.path⟩
    · obtain ⟨r, hr, a, ha, hlives⟩ := ih f name path hbefore
      obtain ⟨hs', g⟩ := (i.runs hready hn).1.sound_and_grows hready.sound hn
      -- the repository is the same one, and so is the application
      obtain ⟨hrmem, hrtoken, hrname⟩ := findRepository_spec hr
      obtain ⟨r', hr', hk⟩ := g.repositories.mem hrmem
      refine ⟨r', hs'.keyed.findRepository_eq_some_iff.2
        ⟨hr', hk.token.trans hrtoken, hk.name.trans hrname⟩, a, ?_, ?_⟩
      · exact i.findApplication_of_not_registers hready hn hno ha
      · exact hlives.of_grows hready.sound hs' g hk

end Store

end Cityscape
