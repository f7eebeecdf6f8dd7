import Cityscape.Proofs.Projection

/-!
# `Reprojection`: a commit that is drawn again

Whatever a drawing needs is there once it has been done: districts and cities are drawn only
where there is none under their key, and ids are listed only where they are not listed yet. So
the same drawing changes nothing when it is done again, also after others (`Landscape.Settled`).
All that is asked of the landscape at the start is that its entities stand under their own ids
(`Landscape.Keyed`); its lists and parents may be anything.

Main statement: a commit that is drawn again, after any others, is absorbed
(`reprojection_absorbed`).
-/

namespace Cityscape

theorem pushUnique_of_mem {ids : List String} {x : String} (h : x ∈ ids) : pushUnique ids x = ids :=
  if_pos h

/-- A change of an element that lists an id already, if the change only lists the id. -/
theorem SortedMap.change_of_mem_listAt {α : Type} {m : SortedMap String α} {f : α → List String}
    {u : α → α} {b x : String} (hx : x ∈ m.listAt f b) (hu : ∀ a, x ∈ f a → u a = a) :
    m.change b u = m := by
  refine change_eq_self fun a ha => hu a ?_
  unfold listAt at hx
  rw [ha] at hx
  exact hx

namespace Landscape

variable {l l' l'' : Landscape} {kind κ : EntityKind} {x k : String} {e : Entity}
  {places : Link → Option String}

/-! ## Settled drawings -/

/-- A drawing that keeps what is there and shows some entities. Once it is done it changes
nothing any more, whatever else has been drawn in between. -/
structure Settled (op : Landscape → Landscape) (l : Landscape)
    (shows : EntityKind → String → Prop) : Prop where
  extended : l.Extends (op l)
  shown : ∀ κ k, shows κ k → (op l).Has κ k
  again : ∀ l', (op l).Extends l' → op l' = l'

namespace Settled

variable {op op' : Landscape → Landscape} {shows shows' : EntityKind → String → Prop}

/-- Nothing is drawn. -/
theorem refl (hl : l.Keyed) : Settled id l fun _ _ => False where
  extended := .refl hl
  shown _ _ := False.elim
  again _ _ := rfl

/-- Both of two drawings are settled, since the first one is kept by the second one. -/
theorem trans (h : Settled op l shows) (h' : Settled op' (op l) shows') :
    Settled (fun l => op' (op l)) l fun κ k => shows κ k ∨ shows' κ k where
  extended := h.extended.trans h'.extended
  shown κ k hk := hk.elim (fun hk => h'.extended.has (h.shown κ k hk)) (h'.shown κ k)
  again l' hl' := by
    have hfirst : op l' = l' := h.again l' (h'.extended.trans hl')
    have hsecond : op' l' = l' := h'.again l' hl'
    rw [hfirst, hsecond]

/-- A drawing does the same as a settled one in all landscapes that matter. -/
theorem congr (h : Settled op l shows) (hl : l.Keyed) (hop : ∀ l', l.Extends l' → op' l' = op l')
    (hshows : ∀ κ k, shows' κ k → shows κ k) : Settled op' l shows' := by
  have hself : op' l = op l := hop l (.refl hl)
  exact {
    extended := hself ▸ h.extended
    shown := fun κ k hk => hself ▸ h.shown κ k (hshows κ k hk)
    again := fun l' hl' => by
      rw [hself] at hl'
      rw [hop l' (h.extended.trans hl'), h.again l' hl'] }

/-- Drawings one after the other, each of which is settled wherever some entities are there that
are there at the start. -/
theorem foldl {α : Type} {op : Landscape → α → Landscape} (as : List α)
    (needed : EntityKind → String → Prop) {shows : α → EntityKind → String → Prop}
    (hop : ∀ l : Landscape, ∀ a ∈ as, l.Keyed → (∀ κ k, needed κ k → l.Has κ k) →
      Settled (fun l => op l a) l (shows a))
    (hl : l.Keyed) (hneeded : ∀ κ k, needed κ k → l.Has κ k) :
    Settled (fun l => as.foldl op l) l fun κ k => ∃ a ∈ as, shows a κ k := by
  induction as generalizing l with
  | nil =>
    refine (refl hl).congr hl (fun _ _ => rfl) fun κ k => ?_
    exact fun ⟨_, ha, _⟩ => absurd ha List.not_mem_nil
  | cons a as ih =>
    have hfirst := hop l a List.mem_cons_self hl hneeded
    have hrest := ih (fun l b hb => hop l b (List.mem_cons_of_mem a hb)) hfirst.extended.keyed
      fun κ k hk => hfirst.extended.has (hneeded κ k hk)
    refine (hfirst.trans hrest).congr hl (fun _ _ => rfl) fun κ k => ?_
    simp only [List.mem_cons, exists_eq_or_imp]
    exact id

end Settled

/-- The drawing of an entity is settled if it does nothing where the entity is there and in the
lists that it is to be in. -/
theorem Adds.settled {op : Landscape → Landscape} (h : Adds l (op l) kind x e places)
    (hl : l.Keyed) (hid : e.id = x)
    (hagain : ∀ l', l'.Has kind x → (∀ link k, places link = some k → x ∈ l'.list link k) →
      op l' = l') :
    Settled op l fun κ k => κ = kind ∧ k = x where
  extended := h.extends hl hid
  shown _ _ hk := h.has_iff.2 (.inr hk)
  again l' hl' := by
    refine hagain l' (hl'.has (h.has_iff.2 (.inr ⟨rfl, rfl⟩))) fun link k hk => ?_
    exact hl'.listKept link k x (h.mem_list_iff.2 (.inr ⟨hk, rfl⟩))

/-! ## Cities, classes and functions -/

theorem drawCity_settled (hl : l.Keyed) (name : String) :
    Settled (fun l => l.drawCity name) l fun κ k => κ = .city ∧ k = stableId name := by
  refine (adds_drawCity l name).settled hl rfl fun l' hhas _ => ?_
  have hcities := SortedMap.putNew_eq_self (v := ({ id := stableId name, name } : City))
    (Option.isSome_map.symm.trans hhas)
  exact congrArg (fun m => { l' with cities := m }) hcities

theorem drawClass_settled {b : String} (hl : l.Keyed) (hb : l.Has .building b) (c : ClassNode) :
    Settled (fun l => drawClass b l c) l fun κ k => κ = .classView ∧ k = stableId c.name := by
  have hadds := adds_drawClass (Option.isSome_map.symm.trans hb) c
  refine hadds.settled hl rfl fun l' hhas hlisted => ?_
  have hclasses := SortedMap.putNew_eq_self (v := classView b c)
    (Option.isSome_map.symm.trans hhas)
  have hbuildings := SortedMap.change_of_mem_listAt (hlisted .buildingClass b rfl)
    (u := fun b => { b with classIds := pushUnique b.classIds (stableId c.name) })
    fun a ha => by rw [pushUnique_of_mem ha]
  exact congrArg₂ (fun m m' => { l' with buildings := m, classes := m' }) hbuildings hclasses

theorem drawFreeFunction_settled {b : String} (fqn : String) (hl : l.Keyed)
    (hb : l.Has .building b) (g : FunctionNode) :
    Settled (fun l => drawFreeFunction b fqn l g) l
      fun κ k => κ = .functionView ∧ k = functionId fqn g.name := by
  have hadds := adds_drawFreeFunction fqn (Option.isSome_map.symm.trans hb) g
  refine hadds.settled hl rfl fun l' hhas hlisted => ?_
  have hfunctions := SortedMap.putNew_eq_self (v := functionView b fqn g)
    (Option.isSome_map.symm.trans hhas)
  have hbuildings := SortedMap.change_of_mem_listAt (hlisted .buildingFunction b rfl)
    (u := fun b => { b with functionIds := pushUnique b.functionIds (functionId fqn g.name) })
    fun a ha => by rw [pushUnique_of_mem ha]
  exact congrArg₂ (fun m m' => { l' with buildings := m, functions := m' }) hbuildings hfunctions

theorem drawMethod_settled {fqn : String} (hl : l.Keyed) (hc : l.Has .classView (stableId fqn))
    (g : FunctionNode) :
    Settled (fun l => drawMethod fqn l g) l
      fun κ k => κ = .functionView ∧ k = functionId fqn g.name := by
  have hadds := adds_drawMethod (Option.isSome_map.symm.trans hc) g
  refine hadds.settled hl rfl fun l' hhas hlisted => ?_
  have hfunctions := SortedMap.putNew_eq_self (v := functionView (stableId fqn) fqn g)
    (Option.isSome_map.symm.trans hhas)
  have hclasses := SortedMap.change_of_mem_listAt (hlisted .classFunction (stableId fqn) rfl)
    (u := fun c => { c with functionIds := pushUnique c.functionIds (functionId fqn g.name) })
    fun a ha => by rw [pushUnique_of_mem ha]
  exact congrArg₂ (fun m m' => { l' with classes := m, functions := m' }) hclasses hfunctions

/-! ## Districts and files -/

section Districts

variable {cityId : String} {parent : Option (String × String)}

/-- Where a directory has its district already, nothing is drawn. -/
theorem fst_drawDistrict_of_has (parent : Option (String × String)) {d : Directory}
    (hd : l.Has .district d.id.text) : (drawDistrict cityId (l, parent) d).1 = l := by
  obtain ⟨old, hold⟩ := Option.isSome_iff_exists.1 (Option.isSome_map.symm.trans hd)
  rw [drawDistrict_of_some parent hold]

theorem fst_foldl_drawDistrict_of_has {ds : List Directory}
    (hds : ∀ d ∈ ds, l.Has .district d.id.text) :
    (ds.foldl (drawDistrict cityId) (l, parent)).1 = l := by
  induction ds generalizing parent with
  | nil => rfl
  | cons d ds ih =>
    have hfirst : (drawDistrict cityId (l, parent) d).1 = l :=
      fst_drawDistrict_of_has parent (hds d List.mem_cons_self)
    have hstate : drawDistrict cityId (l, parent) d = (l, (drawDistrict cityId (l, parent) d).2) :=
      Prod.ext hfirst rfl
    rw [List.foldl_cons, hstate]
    exact ih fun d' hd' => hds d' (List.mem_cons_of_mem d hd')

/-- Where the districts above a file are there, nothing is drawn. -/
theorem fst_drawAbove_of_has {h : HydratedCommit} {f : FileRevision}
    (habove : ∀ k, h.IsAbove cityId f k → l.Has .district k) :
    (drawAbove cityId h l f).1 = l := by
  unfold drawAbove
  cases hf : h.parentOf f with
  | some d =>
    exact fst_foldl_drawDistrict_of_has fun d hd =>
      habove d.id.text (HydratedCommit.isAbove_iff.2 (.inl ⟨d, List.mem_reverse.1 hd, rfl⟩))
  | none =>
    have hroot := drawRootDistrict_of_has
      (habove (cityId ++ "-root") (HydratedCommit.isAbove_iff.2 (.inr ⟨hf, rfl⟩)))
    exact congrArg Prod.fst hroot

theorem drawAbove_settled (hl : l.Keyed) (hcity : l.Has .city cityId) (h : HydratedCommit)
    (f : FileRevision) :
    Settled (fun l => (drawAbove cityId h l f).1) l
      fun κ k => κ = .district ∧ h.IsAbove cityId f k := by
  obtain ⟨hextends, habove, -⟩ := drawAbove_extends hl hcity h f
  exact {
    extended := hextends
    shown := by
      rintro κ k ⟨rfl, hk⟩
      exact habove k hk
    again := fun l' hl' => fst_drawAbove_of_has fun k hk => hl'.has (habove k hk) }

end Districts

variable {cityId : String}

theorem withBuilding_settled {b : Building} (hl : l.Keyed) (hcity : l.Has .city b.parentCityId)
    (hdistrict : l.Has .district b.parentDistrictId) (hclasses : b.classIds = [])
    (hfunctions : b.functionIds = []) :
    Settled (fun l => l.withBuilding b) l fun κ k => κ = .building ∧ k = b.id := by
  have hadds := adds_withBuilding (Option.isSome_map.symm.trans hcity)
    (Option.isSome_map.symm.trans hdistrict) hclasses hfunctions
  refine hadds.settled hl rfl fun l' hhas hlisted => ?_
  have hdistricts := SortedMap.change_of_mem_listAt (hlisted .districtBuilding _ rfl)
    (u := fun d => { d with buildingIds := pushUnique d.buildingIds b.id })
    fun a ha => by rw [pushUnique_of_mem ha]
  have hcities := SortedMap.change_of_mem_listAt (hlisted .cityBuilding _ rfl)
    (u := fun c => { c with buildingIds := pushUnique c.buildingIds b.id })
    fun a ha => by rw [pushUnique_of_mem ha]
  have hbuildings := SortedMap.putNew_eq_self (v := b) (Option.isSome_map.symm.trans hhas)
  unfold withBuilding
  rw [hdistricts, hcities, hbuildings]

/-- A file is drawn in its district, after the districts above it. -/
theorem drawFile_settled (h : HydratedCommit) (hl : l.Keyed) (hcity : l.Has .city cityId)
    (f : FileRevision) :
    Settled (fun l => drawFile cityId h l f) l fun κ k => κ = .building ∧ k = f.buildingId := by
  have habove := drawAbove_settled hl hcity h f
  have hdistrict := habove.shown _ _ ⟨rfl, isAbove_districtOf h f⟩
  have hbuilding := withBuilding_settled (b := building cityId (h.districtOf cityId f) f)
    habove.extended.keyed (habove.extended.has hcity) hdistrict rfl rfl
  refine (habove.trans hbuilding).congr hl (fun l' hl' => ?_) fun κ k => .inr
  rw [drawFile_eq, (drawAbove_extends hl'.keyed (hl'.has hcity) h f).2.2]

/-! ## Commits -/

/-- The classes and the free functions of a file are drawn in its building. -/
theorem drawContents_settled {f : HydratedFile} (hl : l.Keyed)
    (hb : l.Has .building f.file.buildingId) :
    Settled (fun l => l.drawContents f) l
      fun κ k => κ = .classView ∧ ∃ c ∈ f.classes, k = stableId c.node.name := by
  let needed : EntityKind → String → Prop := fun κ k => κ = .building ∧ k = f.file.buildingId
  have hneeds : ∀ l : Landscape, l.Has .building f.file.buildingId →
      ∀ κ k, needed κ k → l.Has κ k := by
    rintro l hb κ k ⟨rfl, rfl⟩
    exact hb
  have hclasses := Settled.foldl (f.classes.map HydratedClass.node) needed
    (fun l c _ hl hn => drawClass_settled hl (hn _ _ ⟨rfl, rfl⟩) c) hl (hneeds l hb)
  have hfunctions := Settled.foldl f.functions needed
    (fun l g _ hl hn => drawFreeFunction_settled f.file.qualifiedName hl (hn _ _ ⟨rfl, rfl⟩) g)
    hclasses.extended.keyed (hneeds _ (hclasses.extended.has hb))
  refine (hclasses.trans hfunctions).congr hl (fun _ _ => rfl) ?_
  rintro κ k ⟨rfl, c, hc, rfl⟩
  exact .inl ⟨c.node, List.mem_map_of_mem hc, rfl, rfl⟩

/-- The functions of a class are drawn in the class. -/
theorem drawMethods_settled {c : HydratedClass} (hl : l.Keyed)
    (hc : l.Has .classView (stableId c.node.name)) :
    Settled (fun l => l.drawMethods c) l
      fun κ k => ∃ g ∈ c.functions, κ = .functionView ∧ k = functionId c.node.name g.name :=
  Settled.foldl c.functions (fun κ k => κ = .classView ∧ k = stableId c.node.name)
    (fun _ g _ hl hn => drawMethod_settled hl (hn _ _ ⟨rfl, rfl⟩) g) hl
    (by rintro κ k ⟨rfl, rfl⟩; exact hc)

/-- A commit is drawn: its city, its files, their contents and the functions of their classes. -/
theorem drawCommit_settled (hl : l.Keyed) (city : String) (h : HydratedCommit) :
    Settled (fun l => l.drawCommit city h) l fun κ k => κ = .city ∧ k = stableId city := by
  have hcity := drawCity_settled hl city
  -- files need their city, contents their building and the functions of a class need the class
  have hfiles := Settled.foldl (h.files.map HydratedFile.file)
    (fun κ k => κ = .city ∧ k = stableId city)
    (fun l f _ hl hn => drawFile_settled h hl (hn _ _ ⟨rfl, rfl⟩) f) hcity.extended.keyed
    hcity.shown
  have hcontents := Settled.foldl h.files
    (fun κ k => κ = .building ∧ ∃ f ∈ h.files, k = f.file.buildingId)
    (fun l f hf hl hn => drawContents_settled (f := f) hl (hn _ _ ⟨rfl, f, hf, rfl⟩))
    hfiles.extended.keyed
    (by
      rintro κ k ⟨rfl, f, hf, rfl⟩
      exact hfiles.shown _ _ ⟨f.file, List.mem_map_of_mem hf, rfl, rfl⟩)
  have hmethods := Settled.foldl (h.files.flatMap HydratedFile.classes)
    (fun κ k => κ = .classView
      ∧ ∃ c ∈ h.files.flatMap HydratedFile.classes, k = stableId c.node.name)
    (fun l c hc hl hn => drawMethods_settled (c := c) hl (hn _ _ ⟨rfl, c, hc, rfl⟩))
    hcontents.extended.keyed
    (by
      rintro κ k ⟨rfl, c, hc, rfl⟩
      obtain ⟨f, hf, hc⟩ := List.mem_flatMap.1 hc
      exact hcontents.shown _ _ ⟨f, hf, rfl, c, hc, rfl⟩)
  exact (hcity.trans (hfiles.trans (hcontents.trans hmethods))).congr hl (fun _ _ => rfl)
    fun κ k => .inl

/-- Whatever commits are drawn, a keyed landscape keeps what it has and stays keyed. -/
theorem foldl_drawCommit_extends (hl : l.Keyed) (commits : List (String × HydratedCommit)) :
    l.Extends (commits.foldl (fun l m => l.drawCommit m.1 m.2) l) :=
  (Settled.foldl commits (fun _ _ => False) (fun _ m _ hl _ => drawCommit_settled hl m.1 m.2) hl
    fun _ _ => False.elim).extended

/-- A landscape that no commits give: of a district neither the city nor what it lists is there. -/
def sampleScattered : Landscape :=
  { landscapeToken := "t"
    districts := SortedMap.put ∅ "7"
      { id := "7", name := "src", fqn := "src", parentCityId := "c", parentDistrictId := none
        districtIds := ["8"], buildingIds := ["h"] } }

/-- A commit with one file with a method, in a directory of the root directory. -/
def sampleNested : HydratedCommit :=
  { commit := { id := 3, token := "t", hash := "x" }
    files := [{
      file := { id := 4, hash := some "h", name := "a.rs", parent := some 7 }
      classes := [⟨{ id := 5, name := "p.A" }, [{ id := 6, name := "run" }]⟩]
      functions := [] }]
    directories := Sorted.ofList
      [{ id := 1, name := "root" }, { id := 7, name := "src", parent := some 1 }] }

/-- A commit that has been drawn is absorbed, also after any others: drawn again into the same
city it changes nothing. In particular it makes no difference whether it is drawn once or
twice. -/
theorem reprojection_absorbed {l : Landscape} (hl : l.Keyed) (city : String) (h : HydratedCommit) :
    (∀ others : List (String × HydratedCommit),
      let drawn := others.foldl (fun l m => l.drawCommit m.1 m.2) (l.drawCommit city h)
      drawn.drawCommit city h = drawn)
    ∧ (l.drawCommit city h).drawCommit city h = l.drawCommit city h := by
  have hsettled := drawCommit_settled hl city h
  refine ⟨fun others => ?_, hsettled.again _ (.refl hsettled.extended.keyed)⟩
  exact hsettled.again _ (foldl_drawCommit_extends hsettled.extended.keyed others)

theorem reprojection_absorbed_sample :
    sampleScattered.Keyed ∧ ¬sampleScattered.WellFormed ∧
      let drawn := (sampleScattered.drawCommit "r" sampleNested).drawCommit "s" sampleNested
      drawn.drawCommit "r" sampleNested = drawn := by
  have hkeyed : sampleScattered.Keyed := by constructor <;> decide
  have hscattered : ¬sampleScattered.WellFormed := by
    intro hl
    exact absurd (hl.listed .subdistrict "7" "8" (by decide)) Bool.false_ne_true
  exact ⟨hkeyed, hscattered,
    (reprojection_absorbed hkeyed "r" sampleNested).1 [("s", sampleNested)]⟩

end Landscape

end Cityscape
