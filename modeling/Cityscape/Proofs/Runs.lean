import Cityscape.Proofs.Editing
import Cityscape.Proofs.Step

/-!
# `Runs`: what an edit does, step by step

`Runs` says of an edit that it makes allowed steps only, what holds of its value and the store
after it, and which faults it may end in. It is a promise for edits that do not use up the ids:
nothing is said of an edit that hands out more of them than there are. The rules follow the way
edits are put together, so each function of the ingestion gets one such statement, made of those
of the functions it calls.
-/

namespace Cityscape

variable {owner : NodeId → String} {t : String} {k : Topic} {n : Nat} {s : Store}

/-- A sound store in which all ids that have not been handed out will belong to token `t`. -/
structure Ready (owner : NodeId → String) (t : String) (n : Nat) (s : Store) : Prop where
  sound : s.Sound owner n
  ahead : ∀ id : NodeId, n < id.val.toNat → owner id = t

namespace Ready

theorem own_next (h : Ready owner t n s) (hn : n + 1 < 2 ^ 64) : owner ⟨s.nextId⟩ = t := by
  apply h.ahead
  rw [h.sound.numbered.next_toNat hn]
  omega

theorem own_next_next (h : Ready owner t n s) (hn : n + 2 < 2 ^ 64) :
    owner ⟨s.nextId + 1⟩ = t := by
  apply h.ahead
  rw [h.sound.numbered.next_next_toNat hn]
  omega

theorem after (h : Ready owner t n s) {j : Nat} {s' : Store} (hs : Steps owner t k j s s')
    (hn : n + j < 2 ^ 64) : Ready owner t (n + j) s' where
  sound := (hs.sound_and_grows h.sound hn).1
  ahead id hid := h.ahead id (by omega)

end Ready

/-- Unless the ids run out, the edit makes allowed steps, its value and the store after it
satisfy `post`, and its fault satisfies `faults`. -/
def Runs {α : Type} (owner : NodeId → String) (t : String) (k : Topic) (e : Edit α) (n : Nat)
    (s : Store) (post : α → Store → Prop) (faults : Fault → Prop) : Prop :=
  n + (e s).issued < 2 ^ 64 →
    Steps owner t k (e s).issued s (e s).store ∧
    (∀ a, (e s).result = .ok a → post a (e s).store) ∧
    ∀ f, (e s).result = .error f → faults f

namespace Runs

variable {α β : Type} {e : Edit α} {f : α → Edit β} {P Q : α → Store → Prop} {E F : Fault → Prop}

theorem mono (h : Runs owner t k e n s P E) (hP : ∀ a s', P a s' → Q a s')
    (hE : ∀ x, E x → F x) : Runs owner t k e n s Q F := by
  intro hn
  obtain ⟨hs, hok, herr⟩ := h hn
  exact ⟨hs, fun a ha => hP a _ (hok a ha), fun x hx => hE x (herr x hx)⟩

/-- An edit that cannot fail may be used where faults are allowed. -/
theorem never (h : Runs owner t k e n s P fun _ => False) : Runs owner t k e n s P E :=
  h.mono (fun _ _ hP => hP) fun _ => False.elim

/-- What is promised of the value and the store may be put in other words. -/
theorem imp (hr : Ready owner t n s) (h : Runs owner t k e n s P E)
    (hP : ∀ a n' s', Ready owner t n' s' → s.Grows s' → P a s' → Q a s') :
    Runs owner t k e n s Q E := by
  intro hn
  obtain ⟨hs, hok, herr⟩ := h hn
  have g := (hs.sound_and_grows hr.sound hn).2
  exact ⟨hs, fun a ha => hP a _ _ (hr.after hs hn) g (hok a ha), herr⟩

/-- An edit whose outcome is known. -/
theorem of_eq {a : α} {j : Nat} {s' : Store}
    (h : e s = { result := .ok a, store := s', issued := j })
    (hs : n + j < 2 ^ 64 → Steps owner t k j s s') (hP : n + j < 2 ^ 64 → P a s') :
    Runs owner t k e n s P E := by
  intro hn
  rw [h] at hn ⊢
  refine ⟨hs hn, fun b hb => ?_, nofun⟩
  cases hb
  exact hP hn

/-- An edit that makes one step. -/
theorem of_step {a : α} {j : Nat} {s' : Store} (hr : Ready owner t n s)
    (h : e s = { result := .ok a, store := s', issued := j })
    (hs : n + j < 2 ^ 64 → Step owner t k j s s')
    (hP : Ready owner t (n + j) s' → s.Grows s' → P a s') : Runs owner t k e n s P E := by
  refine of_eq h (fun hn => .single (hs hn)) fun hn => ?_
  have hsteps := Steps.single (hs hn)
  exact hP (hr.after hsteps hn) (hsteps.sound_and_grows hr.sound hn).2

/-- If an edit hands out an id, there is one left. -/
theorem of_issued_pos (hpos : 0 < (e s).issued)
    (h : n + 1 < 2 ^ 64 → Runs owner t k e n s P E) : Runs owner t k e n s P E :=
  fun hn => h (by omega) hn

/-- If an edit begins by handing out an id, there is one left. -/
theorem of_allocate {f : NodeId → Edit α}
    (h : n + 1 < 2 ^ 64 → Runs owner t k (Edit.allocate >>= f) n s P E) :
    Runs owner t k (Edit.allocate >>= f) n s P E := by
  refine of_issued_pos ?_ h
  rw [Edit.bind_of_ok (Edit.allocate_apply s)]
  exact Nat.lt_of_lt_of_le Nat.one_pos (Nat.le_add_right ..)

/-- An id is handed out, a node is stored under it, and the edit goes on. -/
theorem allocate_change (change : NodeId → Store → Store) {f : NodeId → Edit α}
    (hr : Ready owner t n s)
    (hs : n + 1 < 2 ^ 64 →
      Step owner t k 1 s (change ⟨s.nextId⟩ { s with nextId := s.nextId + 1 }))
    (hf : ∀ s', n + 1 < 2 ^ 64 → s' = change ⟨s.nextId⟩ { s with nextId := s.nextId + 1 } →
      Ready owner t (n + 1) s' → s.Grows s' → owner ⟨s.nextId⟩ = t →
      Runs owner t k (f ⟨s.nextId⟩) (n + 1) s' P E) :
    Runs owner t k
      (do
        let id ← Edit.allocate
        Edit.change (change id)
        f id) n s P E := by
  refine of_allocate fun hn => ?_
  have hsteps := Steps.single (hs hn)
  have hrest := hf _ hn rfl (hr.after hsteps hn) (hsteps.sound_and_grows hr.sound hn).2
    (hr.own_next hn)
  intro htotal
  rw [Edit.bind_of_ok (Edit.allocate_apply s)] at htotal ⊢
  simp only at htotal ⊢
  rw [Edit.bind_of_ok (Edit.change_apply _ _)] at htotal ⊢
  simp only [Nat.zero_add] at htotal ⊢
  obtain ⟨hsteps', hpost⟩ := hrest (by omega)
  exact ⟨hsteps.trans hsteps', hpost⟩

/-- A node is merged under a new id, which may turn out not to be needed, and the edit goes on. -/
theorem allocate_step {merge : NodeId → Store → β × Store} {f : β → Edit α} {b : β} {s' : Store}
    (hr : Ready owner t n s)
    (hmerge : merge ⟨s.nextId⟩ { s with nextId := s.nextId + 1 } = (b, s'))
    (hs : n + 1 < 2 ^ 64 → Step owner t k 1 s s')
    (hf : Ready owner t (n + 1) s' → s.Grows s' → Runs owner t k (f b) (n + 1) s' P E) :
    Runs owner t k
      (do
        let id ← Edit.allocate
        let b ← Edit.step (merge id)
        f b) n s P E := by
  refine of_allocate fun hn => ?_
  have hsteps := Steps.single (hs hn)
  have hrest := hf (hr.after hsteps hn) (hsteps.sound_and_grows hr.sound hn).2
  intro htotal
  rw [Edit.bind_of_ok (Edit.allocate_apply s)] at htotal ⊢
  simp only at htotal ⊢
  rw [Edit.bind_of_ok (Edit.step_apply _ _), hmerge] at htotal ⊢
  simp only [Nat.zero_add] at htotal ⊢
  obtain ⟨hsteps', hpost⟩ := hrest (by omega)
  exact ⟨hsteps.trans hsteps', hpost⟩

/-- One edit, and another one if it fails. -/
theorem orElse {f : Fault → Edit α} (hr : Ready owner t n s) (he : Runs owner t k e n s P E)
    (hf : ∀ x n' s', Ready owner t n' s' → s.Grows s' → E x → Runs owner t k (f x) n' s' P F) :
    Runs owner t k (tryCatch e f) n s P F := by
  intro hn
  rcases ho : e s with ⟨result, s', j⟩
  cases result with
  | ok a =>
    have heq : (tryCatch e f : Edit α) s = e s := Edit.orElse_of_ok ho
    rw [heq] at hn ⊢
    obtain ⟨hs, hok, -⟩ := he hn
    refine ⟨hs, hok, fun x hx => ?_⟩
    rw [ho] at hx
    cases hx
  | error x =>
    have heq : (tryCatch e f : Edit α) s = { f x s' with issued := j + (f x s').issued } :=
      Edit.orElse_of_error ho
    rw [heq] at hn ⊢
    simp only at hn ⊢
    have he := he (by rw [ho]; show n + j < 2 ^ 64; omega)
    rw [ho] at he
    obtain ⟨hs, -, herr⟩ := he
    have hj : n + j < 2 ^ 64 := by omega
    have g := (hs.sound_and_grows hr.sound hj).2
    obtain ⟨hs', hpost⟩ := hf x (n + j) s' (hr.after hs hj) g (herr x rfl) (by omega)
    exact ⟨hs.trans hs', hpost⟩

theorem pure {a : α} (h : P a s) : Runs owner t k (pure a) n s P E :=
  of_eq (Edit.pure_apply a s) (fun _ => .refl) fun _ => h

theorem fail {x : Fault} (h : E x) : Runs owner t k (Edit.fail x : Edit α) n s P E := by
  intro _
  refine ⟨.refl, nofun, fun y hy => ?_⟩
  cases hy
  exact h

/-- One edit after another: the second one starts where the first one ended. -/
theorem bind {R : β → Store → Prop} (hr : Ready owner t n s) (he : Runs owner t k e n s P E)
    (hf : ∀ a n' s', Ready owner t n' s' → s.Grows s' → P a s' →
      Runs owner t k (f a) n' s' R E) :
    Runs owner t k (e >>= f) n s R E := by
  intro hn
  rcases ho : e s with ⟨result, s', j⟩
  cases result with
  | error x =>
    rw [Edit.bind_of_error ho] at hn ⊢
    have he := he (by rw [ho]; exact hn)
    rw [ho] at he
    refine ⟨he.1, nofun, fun y hy => ?_⟩
    cases hy
    exact he.2.2 x rfl
  | ok a =>
    rw [Edit.bind_of_ok ho] at hn ⊢
    have hj : n + j < 2 ^ 64 := by
      have : n + (j + (f a s').issued) < 2 ^ 64 := hn
      omega
    have he := he (by rw [ho]; exact hj)
    rw [ho] at he
    obtain ⟨hsound, hgrows⟩ := he.1.sound_and_grows hr.sound hj
    have hfa := hf a (n + j) s' (hr.after he.1 hj) hgrows (he.2.1 a rfl)
      (by rw [Nat.add_assoc]; exact hn)
    exact ⟨he.1.trans hfa.1, hfa.2⟩

theorem store_bind {f : Store → Edit β} {R : β → Store → Prop}
    (h : Runs owner t k (f s) n s R E) : Runs owner t k (Edit.store >>= f) n s R E := by
  unfold Runs
  rw [Edit.store_bind]
  exact h

/-- A value that is there, or the fault that it is not. -/
theorem need {o : Option α} {x : Fault} (hsome : ∀ a, o = some a → P a s)
    (hnone : o = none → E x) : Runs owner t k (Edit.need o x) n s P E := by
  cases o with
  | some a => exact pure (hsome a rfl)
  | none => exact fail (hnone rfl)

end Runs

end Cityscape
