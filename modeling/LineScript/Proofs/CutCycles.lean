/-
# Cycles are cut, sharing is not

The containers of a heap may form any graph. A value is shown by a walk that keeps a set of the containers it
is just inside of: a container is put into the set before its contents are visited and taken out of it
afterwards, and one that is met while it is in the set is cut.

What is met on the walk is an outline of the value: a tree in which every container is either opened, with
all that stands in it, or cut. An outline belongs to a value when exactly those containers are cut that have
themselves among their ancestors. There is one such outline for every value, whatever the graph, since the
containers that are not among the ancestors get fewer on every level. The text of a value and its data are
both read off this outline, so they are cut at the same places, and the set is in the end what it was.
-/

import LineScript.Proofs.UnfoldedValues

namespace LineScript.Machine

/-! ## Outlines -/

/-- A value as it is met by one who walks through it. -/
inductive Outline where
  /-- A value that is no container. -/
  | plain (v : Value)
  /-- A container that is not entered. -/
  | cut (r : Ref)
  /-- A list that is entered, with what is met in it. -/
  | list (place : Nat) (items : List Outline)
  /-- An object that is entered, with what is met in it. -/
  | object (place : Nat) (members : List (String × Outline))

namespace Outline

/-- The container that is met. -/
def ref? : Outline → Option Ref
  | .plain _ => none
  | .cut r => some r
  | .list place _ => some (.list place)
  | .object place _ => some (.object place)

/-- Whether a container is cut. -/
def isCut : Outline → Bool
  | .cut _ => true
  | _ => false

/-- A part of an outline, with the containers that it stands in, the outermost first. -/
inductive At : Outline → List Ref → Outline → Prop where
  | here (o : Outline) : At o [] o
  | item {place : Nat} {items : List Outline} {item part : Outline} {above : List Ref} :
      item ∈ items → At item above part → At (.list place items) (.list place :: above) part
  | member {place : Nat} {members : List (String × Outline)} {key : String} {member part : Outline}
      {above : List Ref} :
      (key, member) ∈ members → At member above part →
      At (.object place members) (.object place :: above) part

end Outline

/-! ## Renderings -/

/-- What is made of the parts of an outline. Whether texts are quoted is told to a value that is no
container. -/
structure Rendering (β : Type) where
  plain : Bool → Value → β
  cut : Ref → β
  list : List β → β
  object : List (String × β) → β

namespace Rendering

variable {β : Type} (R : Rendering β)

mutual

/-- What is made of an outline; texts in containers are quoted. -/
def of : Bool → Outline → β
  | quoted, .plain v => R.plain quoted v
  | _, .cut r => R.cut r
  | _, .list _ items => R.list (ofItems items)
  | _, .object _ members => R.object (ofMembers members)

/-- What is made of the outlines in a list. -/
def ofItems : List Outline → List β
  | [] => []
  | item :: rest => of true item :: ofItems rest

/-- What is made of the outlines in an object. -/
def ofMembers : List (String × Outline) → List (String × β)
  | [] => []
  | (key, member) :: rest => (key, of true member) :: ofMembers rest

end

theorem ofItems_eq_map (items : List Outline) : R.ofItems items = items.map (R.of true) := by
  induction items with
  | nil => rfl
  | cons item rest ih => rw [ofItems, ih, List.map_cons]

theorem ofMembers_eq_map (members : List (String × Outline)) :
    R.ofMembers members = members.map fun m => (m.1, R.of true m.2) := by
  induction members with
  | nil => rfl
  | cons m rest ih => rw [ofMembers, ih, List.map_cons]

/-- The text of a value; a cut leaves a mark. -/
def text : Rendering String where
  plain
    | _, .null => "null"
    | _, .number x => Number.written x
    | quoted, .string s => if quoted then Text.quote s else s
    | _, .boolean b => if b then "true" else "false"
    | _, .ref r => Heap.cut r
  cut := Heap.cut
  list items := "[" ++ Text.joined ", " items ++ "]"
  object members :=
    "\x7b" ++ Text.joined ", " (members.map fun m => m.1 ++ " = " ++ m.2) ++ "\x7d"

/-- The data of a value; a cut leaves null. -/
def data : Rendering Data where
  plain
    | _, .number x => .number x
    | _, .string s => .string s
    | _, .boolean b => .boolean b
    | _, _ => .null
  cut _ := .null
  list := .list
  object := .object

/-- What is made of a container from what is made of the values in it. -/
def enter (h : Heap) (f : Value → β) : Ref → β
  | .list place => R.list ((h.list place).toList.map f)
  | .object place => R.object ((h.object place).members.map fun (key, v) => (key, f v))

/-- A function renders values with an explicit list of the containers around: one of these is cut, any other
is entered. -/
structure RenderedBy (h : Heap) (f : Nat → List Ref → Bool → Value → β) : Prop where
  plain : ∀ fuel path quoted v, (∀ r, v ≠ .ref r) → f fuel path quoted v = R.plain quoted v
  ref : ∀ fuel path quoted r, f (fuel + 1) path quoted (.ref r) =
    if r ∈ path then R.cut r else R.enter h (f fuel (r :: path) true) r

theorem renderedBy_textWithin (h : Heap) : text.RenderedBy h h.textWithin where
  plain fuel path quoted v hv := by
    cases v with
    | ref r => exact absurd rfl (hv r)
    | null | number | string | boolean => cases fuel <;> rfl
  ref fuel path quoted r := by
    cases r with
    | list place =>
        rw [Heap.textWithin]
        exact if_congr List.contains_iff_mem rfl rfl
    | object place =>
        rw [Heap.textWithin, enter]
        refine if_congr List.contains_iff_mem rfl ?_
        dsimp only [text]
        rw [List.map_map]
        rfl

theorem renderedBy_dataWithin (h : Heap) :
    data.RenderedBy h fun fuel path _ v => h.dataWithin fuel path v where
  plain fuel path quoted v hv := by
    cases v with
    | ref r => exact absurd rfl (hv r)
    | null | number | string | boolean => cases fuel <;> rfl
  ref fuel path quoted r := by
    cases r <;> rw [Heap.dataWithin] <;> exact if_congr List.contains_iff_mem rfl rfl

/-- Makes something of a container by an action on each of the values in it. -/
def visit (h : Heap) (f : Value → StateT (Finset Ref) Option β) : Ref → StateT (Finset Ref) Option β
  | .list place => R.list <$> (h.list place).toList.mapM f
  | .object place => R.object <$> (h.object place).members.mapM fun (key, v) => (key, ·) <$> f v

/-- The walk through a value. The set of the containers that it is inside of is kept as it goes; without
fuel it does not enter a container, and there is no result. -/
def walk (h : Heap) : Nat → Bool → Value → StateT (Finset Ref) Option β
  | 0, _, .ref _ => failure
  | fuel + 1, _, .ref r => do
    if r ∈ (← get) then
      return R.cut r
    modify (insert r)
    let shown ← R.visit h (walk h fuel true) r
    modify (·.erase r)
    return shown
  | _, quoted, v => return R.plain quoted v

end Rendering

/-! ## Outlines of values -/

namespace Heap

variable {h : Heap}

/-- An outline belongs to a value that stands in the containers `above`: a container is cut if it is one of
these, and else opened, with everything that stands in it. -/
inductive Drawn (h : Heap) : Finset Ref → Value → Outline → Prop where
  | plain {above : Finset Ref} {v : Value} : (∀ r, v ≠ .ref r) → Drawn h above v (.plain v)
  | cut {above : Finset Ref} {r : Ref} : r ∈ above → Drawn h above (.ref r) (.cut r)
  | list {above : Finset Ref} {place : Nat} {items : List Outline} : .list place ∉ above →
      (h.list place).toList.length = items.length →
      (∀ v o, (v, o) ∈ (h.list place).toList.zip items → Drawn h (insert (.list place) above) v o) →
      Drawn h above (.list place) (.list place items)
  | object {above : Finset Ref} {place : Nat} {members : List (String × Outline)} :
      .object place ∉ above →
      (h.object place).members.length = members.length →
      (∀ e m, (e, m) ∈ (h.object place).members.zip members → e.1 = m.1) →
      (∀ e m, (e, m) ∈ (h.object place).members.zip members →
        Drawn h (insert (.object place) above) e.2 m.2) →
      Drawn h above (.object place) (.object place members)

/-! ### The containers that can still be entered -/

/-- All containers of a heap. -/
def containers (h : Heap) : Finset Ref :=
  (Finset.range h.lists.size).image .list ∪ (Finset.range h.objects.size).image .object

theorem mem_containers {r : Ref} : r ∈ h.containers ↔ h.Has r := by
  unfold containers
  cases r <;> simp [Has]

theorem card_containers_le (h : Heap) : h.containers.card ≤ h.size := by
  calc h.containers.card
      ≤ ((Finset.range h.lists.size).image Ref.list).card +
          ((Finset.range h.objects.size).image Ref.object).card := Finset.card_union_le _ _
    _ ≤ h.lists.size + h.objects.size := by
        refine Nat.add_le_add ?_ ?_ <;>
          exact Finset.card_image_le.trans (Nat.le_of_eq (Finset.card_range _))

/-- The number of containers that are not among the ancestors yet. -/
def left (h : Heap) (above : Finset Ref) : Nat := (h.containers \ above).card

theorem left_le_size (h : Heap) (above : Finset Ref) : h.left above ≤ h.size :=
  (Finset.card_le_card Finset.sdiff_subset).trans h.card_containers_le

/-- With every container that is entered and has something in it, there is one less to enter. -/
theorem left_insert_lt {above : Finset Ref} {r : Ref} {v : Value} (hnew : r ∉ above)
    (hv : v ∈ h.contents r) : h.left (insert r above) < h.left above := by
  have hr : r ∈ h.containers := mem_containers.mpr (has_of_mem_contents hv)
  refine Finset.card_lt_card (Finset.ssubset_iff_subset_ne.mpr ⟨?_, fun heq => ?_⟩)
  · exact Finset.sdiff_subset_sdiff (Finset.Subset.refl _) (Finset.subset_insert _ _)
  · have hmem : r ∈ h.containers \ above := Finset.mem_sdiff.mpr ⟨hr, hnew⟩
    rw [← heq] at hmem
    exact (Finset.mem_sdiff.mp hmem).2 (Finset.mem_insert_self _ _)

/-! ### One outline for every value -/

/-- Every value has an outline. The containers that can be entered get fewer from level to level. -/
theorem exists_drawn (h : Heap) (above : Finset Ref) (v : Value) : ∃ o, Drawn h above v o := by
  induction hleft : h.left above using Nat.strong_induction_on generalizing above v with
  | _ count ih =>
    cases v with
    | null | number | string | boolean => exact ⟨_, .plain nofun⟩
    | ref r =>
      by_cases hr : r ∈ above
      · exact ⟨_, .cut hr⟩
      have hbelow : ∀ u ∈ h.contents r, ∃ o, Drawn h (insert r above) u o :=
        fun u hu => ih _ (hleft ▸ left_insert_lt hr hu) _ u rfl
      have hplain : Nonempty Outline := ⟨.plain .null⟩
      choose! f hf using hbelow
      cases r with
      | list place =>
          refine ⟨.list place ((h.list place).toList.map f), .list hr (by simp) fun u o ho => ?_⟩
          obtain ⟨hu, rfl⟩ := eq_of_mem_zip_map ho
          exact hf u hu
      | object place =>
          refine ⟨.object place ((h.object place).members.map fun e => (e.1, f e.2)),
            .object hr (by simp) (fun e m hm => ?_) fun e m hm => ?_⟩
          · obtain ⟨-, rfl⟩ := eq_of_mem_zip_map hm
            rfl
          · obtain ⟨he, rfl⟩ := eq_of_mem_zip_map hm
            exact hf e.2 (List.mem_map_of_mem he)

namespace Drawn

variable {above : Finset Ref} {v : Value} {o o' : Outline}

/-- A value has only one outline. -/
theorem unique (ho : Drawn h above v o) (ho' : Drawn h above v o') : o = o' := by
  induction ho generalizing o' with
  | plain hplain =>
      cases ho' with
      | plain => rfl
      | cut | list | object => exact absurd rfl (hplain _)
  | cut hr =>
      cases ho' with
      | plain hplain => exact absurd rfl (hplain _)
      | cut => rfl
      | list hnew | object hnew => exact absurd hr hnew
  | list hnew hlength _ ih =>
      cases ho' with
      | plain hplain => exact absurd rfl (hplain _)
      | cut hr => exact absurd hr hnew
      | list _ hlength' hitems' =>
          rw [eq_of_zip hlength hlength' fun a b c hb hc => ih a b hb (hitems' a c hc)]
  | object hnew hlength hkeys _ ih =>
      cases ho' with
      | plain hplain => exact absurd rfl (hplain _)
      | cut hr => exact absurd hr hnew
      | object _ hlength' hkeys' hmembers' =>
          rw [eq_of_zip hlength hlength' fun a b c hb hc => Prod.ext
            ((hkeys a b hb).symm.trans (hkeys' a c hc)) (ih a b hb (hmembers' a c hc))]

/-- A part of an outline belongs to a value that stands in the containers around this part. -/
theorem of_at {part : Outline} {around : List Ref} (hpart : o.At around part)
    (ho : Drawn h above v o) : ∃ u, Drawn h (above ∪ around.toFinset) u part := by
  induction hpart generalizing above v with
  | here o => exact ⟨v, by simpa using ho⟩
  | item hitem _ ih =>
      cases ho with
      | list _ hlength hitems =>
          obtain ⟨u, hu⟩ := exists_mem_zip_right hlength hitem
          obtain ⟨w, hw⟩ := ih (hitems _ _ hu)
          refine ⟨w, ?_⟩
          rwa [List.toFinset_cons, Finset.union_insert, ← Finset.insert_union]
  | member hmember _ ih =>
      cases ho with
      | object _ hlength _ hmembers =>
          obtain ⟨e, he⟩ := exists_mem_zip_right hlength hmember
          obtain ⟨w, hw⟩ := ih (hmembers _ _ he)
          refine ⟨w, ?_⟩
          rwa [List.toFinset_cons, Finset.union_insert, ← Finset.insert_union]

/-- A container is cut if and only if it is one of those it stands in. -/
theorem isCut_iff (ho : Drawn h above v o) {r : Ref} (hr : o.ref? = some r) :
    o.isCut = true ↔ r ∈ above := by
  cases ho with
  | plain => cases hr
  | cut hmem =>
      cases hr
      exact iff_of_true rfl hmem
  | list hnew | object hnew =>
      cases hr
      exact iff_of_false Bool.false_ne_true hnew

/-! ### What is read off an outline -/

/-- A container that is not among its ancestors is opened, and there is fuel for what stands in it. -/
theorem exists_fuel {r : Ref} {fuel : Nat} (hnew : r ∉ above) (hfuel : h.left above < fuel) :
    ∃ more, fuel = more + 1 ∧ ∀ u ∈ h.contents r, h.left (insert r above) < more := by
  refine ⟨fuel - 1, by omega, fun u hu => ?_⟩
  have hlt := left_insert_lt hnew hu
  omega

/-- What is rendered of a value is what is made of its outline. -/
theorem eq_of_renderedBy {β : Type} {R : Rendering β} {f : Nat → List Ref → Bool → Value → β}
    (hf : R.RenderedBy h f) (ho : Drawn h above v o) {path : List Ref} (hpath : path.toFinset = above)
    {fuel : Nat} (hfuel : h.left above < fuel) (quoted : Bool) :
    f fuel path quoted v = R.of quoted o := by
  have hmem : ∀ r, r ∈ path ↔ r ∈ above := fun r => by rw [← hpath, List.mem_toFinset]
  induction ho generalizing path fuel quoted with
  | plain hplain => exact hf.plain _ _ _ _ hplain
  | @cut above r hr =>
      obtain ⟨more, rfl⟩ := Nat.exists_eq_add_one_of_ne_zero (Nat.ne_zero_of_lt hfuel)
      rw [hf.ref, if_pos ((hmem r).mpr hr), Rendering.of]
  | @list above place items hnew hlength _ ih =>
      obtain ⟨more, rfl, hmore⟩ := exists_fuel hnew hfuel
      rw [hf.ref, if_neg ((hmem _).not.mpr hnew), Rendering.of, Rendering.ofItems_eq_map,
        Rendering.enter]
      refine congrArg R.list (map_eq_map_of_zip hlength fun u o ho => ?_)
      have hinner : (Ref.list place :: path).toFinset = insert (.list place) above := by
        rw [List.toFinset_cons, hpath]
      exact ih u o ho hinner (hmore u (List.of_mem_zip ho).1) true fun r => by
        rw [← hinner, List.mem_toFinset]
  | @object above place members hnew hlength hkeys _ ih =>
      obtain ⟨more, rfl, hmore⟩ := exists_fuel hnew hfuel
      rw [hf.ref, if_neg ((hmem _).not.mpr hnew), Rendering.of, Rendering.ofMembers_eq_map,
        Rendering.enter]
      refine congrArg R.object (map_eq_map_of_zip hlength fun e m hm => ?_)
      have hinner : (Ref.object place :: path).toFinset = insert (.object place) above := by
        rw [List.toFinset_cons, hpath]
      refine Prod.ext (hkeys e m hm) (ih e m hm hinner ?_ true fun r => ?_)
      · exact hmore e.2 (List.mem_map_of_mem (List.of_mem_zip hm).1)
      · rw [← hinner, List.mem_toFinset]

end Drawn

end Heap

/-! ## The walk -/

namespace Rendering

/-- Actions that leave the state as it is, one after another. -/
theorem run_mapM {σ α β γ : Type} {f : α → StateT σ Option γ} {g : β → γ} {s : σ} {as : List α}
    {bs : List β} (hlength : as.length = bs.length)
    (h : ∀ a b, (a, b) ∈ as.zip bs → (f a).run s = some (g b, s)) :
    (as.mapM f).run s = some (bs.map g, s) := by
  induction as generalizing bs with
  | nil =>
      rw [List.length_eq_zero_iff.mp hlength.symm]
      rfl
  | cons a as ih =>
      obtain ⟨b, bs, rfl⟩ := List.exists_cons_of_length_eq_add_one hlength.symm
      have hfirst := h a b List.mem_cons_self
      have hrest := ih (Nat.succ.inj hlength) fun a' b' h' => h a' b' (List.mem_cons_of_mem _ h')
      rw [List.mapM_cons, StateT.run_bind, hfirst, List.map_cons]
      dsimp only [Option.bind_eq_bind, Option.bind_some]
      rw [StateT.run_bind, hrest]
      rfl

variable {β : Type} {R : Rendering β} {h : Heap} {above : Finset Ref} {v : Value} {o : Outline}

/-- The walk through a container that is not among its ancestors. -/
theorem run_walk_ref {r : Ref} (hnew : r ∉ above) (fuel : Nat) (quoted : Bool) {b : β}
    (hvisit : (R.visit h (R.walk h fuel true) r).run (insert r above) = some (b, insert r above)) :
    (R.walk h (fuel + 1) quoted (.ref r)).run above = some (b, above) := by
  simp [walk, hnew, hvisit]

/-- With fuel for all containers that can still be entered, the walk comes to its end. It has made of the
value what is made of its outline, and the set is what it was. -/
theorem run_walk (ho : h.Drawn above v o) {fuel : Nat} (hfuel : h.left above < fuel) (quoted : Bool) :
    (R.walk h fuel quoted v).run above = some (R.of quoted o, above) := by
  induction ho generalizing fuel quoted with
  | @plain above v hplain =>
      cases v with
      | ref r => exact absurd rfl (hplain r)
      | null | number | string | boolean => cases fuel <;> rfl
  | @cut above r hr =>
      obtain ⟨more, rfl⟩ := Nat.exists_eq_add_one_of_ne_zero (Nat.ne_zero_of_lt hfuel)
      simp [walk, hr, Rendering.of]
  | @list above place items hnew hlength _ ih =>
      obtain ⟨more, rfl, hmore⟩ := Heap.Drawn.exists_fuel hnew hfuel
      refine run_walk_ref hnew more quoted ?_
      unfold visit
      rw [StateT.run_map, run_mapM hlength fun u o ho =>
        ih u o ho (hmore u (List.of_mem_zip ho).1) true, Rendering.of, ofItems_eq_map]
      rfl
  | @object above place members hnew hlength hkeys _ ih =>
      obtain ⟨more, rfl, hmore⟩ := Heap.Drawn.exists_fuel hnew hfuel
      refine run_walk_ref hnew more quoted ?_
      unfold visit
      rw [StateT.run_map, run_mapM hlength (g := fun m => (m.1, R.of true m.2)) fun e m hm => ?_,
        Rendering.of, ofMembers_eq_map]
      · rfl
      · rw [StateT.run_map, ih e m hm
          (hmore e.2 (List.mem_map_of_mem (List.of_mem_zip hm).1)) true, hkeys e m hm]
        rfl

end Rendering

namespace Heap

/-! ## What is shown -/

variable {v : Value} {o : Outline}

theorem left_lt (h : Heap) (above : Finset Ref) : h.left above < h.size + 1 :=
  Nat.lt_succ_of_le (h.left_le_size above)

theorem Drawn.display_eq (ho : Drawn h ∅ v o) : h.display v = Rendering.text.of false o :=
  ho.eq_of_renderedBy (Rendering.renderedBy_textWithin h) rfl (h.left_lt ∅) false

theorem Drawn.repr_eq (ho : Drawn h ∅ v o) : h.repr v = Rendering.text.of true o :=
  ho.eq_of_renderedBy (Rendering.renderedBy_textWithin h) rfl (h.left_lt ∅) true

theorem Drawn.data_eq (ho : Drawn h ∅ v o) : h.data v = Rendering.data.of false o :=
  ho.eq_of_renderedBy (Rendering.renderedBy_dataWithin h) rfl (h.left_lt ∅) false

/-- In every heap every value has exactly one outline, from which its text and its data are read off. In it
a container is cut where it stands in itself, and only there. The walks that make the text and the data end,
with the set of containers as it was; so does every walk, whatever is in the set when it begins. -/
theorem cut_inside_themselves (h : Heap) (v : Value) :
    (∃ o, Drawn h ∅ v o ∧ (∀ o', Drawn h ∅ v o' → o' = o) ∧
      (∀ around part r, o.At around part → part.ref? = some r →
        (part.isCut = true ↔ r ∈ around)) ∧
      h.display v = Rendering.text.of false o ∧ h.repr v = Rendering.text.of true o ∧
      h.data v = Rendering.data.of false o) ∧
    (Rendering.text.walk h (h.size + 1) false v).run ∅ = some (h.display v, ∅) ∧
    (Rendering.text.walk h (h.size + 1) true v).run ∅ = some (h.repr v, ∅) ∧
    (Rendering.data.walk h (h.size + 1) false v).run ∅ = some (h.data v, ∅) ∧
    ∀ seen : Finset Ref, ∃ o, Drawn h seen v o ∧
      ∀ (β : Type) (R : Rendering β) (fuel : Nat) (quoted : Bool), h.left seen < fuel →
        (R.walk h fuel quoted v).run seen = some (R.of quoted o, seen) := by
  obtain ⟨o, ho⟩ := exists_drawn h ∅ v
  refine ⟨⟨o, ho, fun o' ho' => ho'.unique ho, fun around part r hpart hr => ?_, ho.display_eq,
    ho.repr_eq, ho.data_eq⟩, ?_, ?_, ?_, fun seen => ?_⟩
  · obtain ⟨u, hu⟩ := ho.of_at hpart
    rw [hu.isCut_iff hr, Finset.empty_union, List.mem_toFinset]
  · rw [Rendering.run_walk ho (h.left_lt ∅), ho.display_eq]
  · rw [Rendering.run_walk ho (h.left_lt ∅), ho.repr_eq]
  · rw [Rendering.run_walk ho (h.left_lt ∅), ho.data_eq]
  · obtain ⟨o, ho⟩ := exists_drawn h seen v
    exact ⟨o, ho, fun β R fuel quoted hfuel => Rendering.run_walk ho hfuel quoted⟩

/-- A list with itself at its end, behind another list twice: the other one is shown both times. -/
theorem cut_inside_themselves_list :
    ∃ h : Heap, h.list 0 = #[.list 1, .list 1, .list 0] ∧
      (Rendering.text.walk h 3 false (.list 0)).run ∅ = some ("[[], [], [...]]", ∅) ∧
      ∃ text, (Rendering.text.walk h 2 true (.list 0)).run {.list 1} = some (text, {.list 1}) := by
  let h : Heap := ⟨#[#[.list 1, .list 1, .list 0], #[]], #[]⟩
  obtain ⟨-, hwalk, -, -, hwalks⟩ := cut_inside_themselves h (.list 0)
  have hdisplay : h.display (.list 0) = "[[], [], [...]]" := by cbv
  rw [hdisplay] at hwalk
  obtain ⟨o, -, hend⟩ := hwalks {.list 1}
  exact ⟨h, rfl, hwalk, _, hend String Rendering.text 2 true (by decide)⟩

end Heap

end LineScript.Machine
