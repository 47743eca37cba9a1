/-
# Values unfolded into data

A value whose containers do not contain themselves stands for plain data: a tree with a copy of a container
wherever it is shared. Values and data are related here, not computed from each other, and the relation says
on which containers it rests; so it is easy to see what keeps it when the heap changes.

The text of a value depends on its data only. Showing a value cuts a container that is met inside itself, and
spends fuel on every level. Neither happens to a value that unfolds: what is shown around a container
contains it, so no two of these containers are the same, and then they are no more than the heap has.
-/

import Mathlib
import LineScript.Machine.Shown

namespace LineScript.Machine

open Relation (TransGen ReflTransGen)

/-! ## Texts of data -/

namespace Data

mutual

/-- Data as it would be written in a script. -/
def text : Data → String
  | .null => "null"
  | .number x => Number.written x
  | .string s => Text.quote s
  | .boolean b => if b then "true" else "false"
  | .list items => "[" ++ Text.joined ", " (texts items) ++ "]"
  | .object members => "\x7b" ++ Text.joined ", " (memberTexts members) ++ "\x7d"

/-- Data in a row, as they would be written. -/
def texts : List Data → List String
  | [] => []
  | item :: rest => text item :: texts rest

/-- Members of an object, as they would be written. -/
def memberTexts : List (String × Data) → List String
  | [] => []
  | (key, member) :: rest => (key ++ " = " ++ text member) :: memberTexts rest

end

/-- The kind of a value with these data. -/
def kind : Data → Kind
  | .null => .null
  | .number _ => .number
  | .string _ => .string
  | .boolean _ => .boolean
  | .list _ => .list
  | .object _ => .object

end Data

/-! ## Rows side by side -/

theorem exists_mem_zip_left {α β : Type} {as : List α} {bs : List β} (hlength : as.length = bs.length)
    {a : α} (ha : a ∈ as) : ∃ b, (a, b) ∈ as.zip bs := by
  rw [← List.map_fst_zip (Nat.le_of_eq hlength)] at ha
  obtain ⟨e, he, rfl⟩ := List.mem_map.mp ha
  exact ⟨e.2, he⟩

theorem exists_mem_zip_right {α β : Type} {as : List α} {bs : List β} (hlength : as.length = bs.length)
    {b : β} (hb : b ∈ bs) : ∃ a, (a, b) ∈ as.zip bs := by
  rw [← List.map_snd_zip (Nat.le_of_eq hlength.symm)] at hb
  obtain ⟨e, he, rfl⟩ := List.mem_map.mp hb
  exact ⟨e.1, he⟩

/-- Rows are mapped to the same row if elements side by side are mapped to the same. -/
theorem map_eq_map_of_zip {α β γ : Type} {f : α → γ} {g : β → γ} {as : List α} {bs : List β}
    (hlength : as.length = bs.length) (heq : ∀ a b, (a, b) ∈ as.zip bs → f a = g b) :
    as.map f = bs.map g :=
  calc as.map f
      = ((as.zip bs).map (·.1)).map f := by rw [List.map_fst_zip (Nat.le_of_eq hlength)]
    _ = ((as.zip bs).map (·.2)).map g := by
        rw [List.map_map, List.map_map]
        exact List.map_congr_left fun e he => heq e.1 e.2 he
    _ = bs.map g := by rw [List.map_snd_zip (Nat.le_of_eq hlength.symm)]

/-- Pairs with the same keys side by side have the same row of keys. -/
theorem map_fst_eq_of_zip {α β γ : Type} {as : List (α × β)} {bs : List (α × γ)}
    (hlength : as.length = bs.length) (hkeys : ∀ a b, (a, b) ∈ as.zip bs → a.1 = b.1) :
    as.map (·.1) = bs.map (·.1) :=
  map_eq_map_of_zip hlength hkeys

/-- Rows that stand beside the same row are the same if what stands beside an element does not depend on
where it stands. -/
theorem eq_of_zip {α β : Type} {as : List α} {bs cs : List β} (hbs : as.length = bs.length)
    (hcs : as.length = cs.length)
    (h : ∀ a b c, (a, b) ∈ as.zip bs → (a, c) ∈ as.zip cs → b = c) : bs = cs := by
  induction as generalizing bs cs with
  | nil => rw [List.length_eq_zero_iff.mp hbs.symm, List.length_eq_zero_iff.mp hcs.symm]
  | cons a as ih =>
      obtain ⟨b, bs, rfl⟩ := List.exists_cons_of_length_eq_add_one hbs.symm
      obtain ⟨c, cs, rfl⟩ := List.exists_cons_of_length_eq_add_one hcs.symm
      rw [h a b c List.mem_cons_self List.mem_cons_self,
        ih (Nat.succ.inj hbs) (Nat.succ.inj hcs) fun a' b' c' hb hc =>
          h a' b' c' (List.mem_cons_of_mem _ hb) (List.mem_cons_of_mem _ hc)]

theorem eq_of_mem_zip_map {α β : Type} {f : α → β} {as : List α} {a : α} {b : β}
    (h : (a, b) ∈ as.zip (as.map f)) : a ∈ as ∧ b = f a := by
  rw [← List.map_prod_left_eq_zip] at h
  obtain ⟨a', ha', heq⟩ := List.mem_map.mp h
  cases heq
  exact ⟨ha', rfl⟩

/-! ## Parts of values -/

namespace Heap

variable {h : Heap}

/-- The values that stand in a container. -/
def contents (h : Heap) : Ref → List Value
  | .list place => (h.list place).toList
  | .object place => (h.object place).members.map (·.2)

/-- One value stands directly in another. -/
def Inside (h : Heap) (v w : Value) : Prop := ∃ r, w = .ref r ∧ v ∈ h.contents r

/-- One value is another or stands in it, at some depth. -/
def Part (h : Heap) : Value → Value → Prop := ReflTransGen h.Inside

/-- No part of a value stands in itself. -/
def Acyclic (h : Heap) (v : Value) : Prop := ∀ u, h.Part u v → ¬TransGen h.Inside u u

/-- The containers that there are. -/
def Has (h : Heap) : Ref → Prop
  | .list place => place < h.lists.size
  | .object place => place < h.objects.size

theorem inside_ref {r : Ref} {v : Value} (hv : v ∈ h.contents r) : h.Inside v (.ref r) :=
  ⟨r, rfl, hv⟩

theorem Acyclic.of_part {u v : Value} (hv : h.Acyclic v) (hu : h.Part u v) : h.Acyclic u :=
  fun w hw => hv w (hw.trans hu)

/-- There is nothing in a container that is not there. -/
theorem has_of_mem_contents {r : Ref} {v : Value} (hv : v ∈ h.contents r) : h.Has r := by
  refine Classical.byContradiction fun hnot => ?_
  cases r with
  | list place =>
      simp only [Has, Nat.not_lt] at hnot
      simp [contents, list, Array.getD_eq_getD_getElem?, Array.getElem?_eq_none hnot] at hv
  | object place =>
      simp only [Has, Nat.not_lt] at hnot
      simp [contents, object, Array.getD_eq_getD_getElem?, Array.getElem?_eq_none hnot] at hv

/-- What holds of a value and of all that stands in containers holds of the parts of the value. -/
theorem forall_part {P : Value → Prop} {v : Value} (hv : P v)
    (hcontents : ∀ r, h.Has r → ∀ u ∈ h.contents r, P u) : ∀ u, h.Part u v → P u := by
  intro u hu
  rcases hu.cases_head with rfl | ⟨w, hinside, -⟩
  · exact hv
  · obtain ⟨r, -, hmem⟩ := hinside
    exact hcontents r (has_of_mem_contents hmem) u hmem

/-- There are no cycles where every container comes after what stands in it. -/
theorem acyclic_of_lt (order : Value → Nat)
    (horder : ∀ r, h.Has r → ∀ u ∈ h.contents r, order u < order (.ref r)) (v : Value) :
    h.Acyclic v := by
  have hlt : ∀ {u w : Value}, h.Inside u w → order u < order w := by
    rintro u w ⟨r, rfl, hmem⟩
    exact horder r (has_of_mem_contents hmem) u hmem
  have htrans : ∀ {u w : Value}, TransGen h.Inside u w → order u < order w := by
    intro u w hinside
    induction hinside with
    | single hlast => exact hlt hlast
    | tail _ hlast ih => exact ih.trans (hlt hlast)
  exact fun u _ hcycle => Nat.lt_irrefl _ (htrans hcycle)

/-- The containers in a row: the lists first, then the objects. -/
def rank (h : Heap) : Ref → Nat
  | .list place => place
  | .object place => h.lists.size + place

/-- Different containers of a heap are no more than it has. -/
theorem length_le_size {path : List Ref} (hnodup : path.Nodup) (hhas : ∀ r ∈ path, h.Has r) :
    path.length ≤ h.size := by
  have hranks : (path.map h.rank).Nodup := by
    refine hnodup.map_on fun r hr q hq heq => ?_
    have hr := hhas r hr
    have hq := hhas q hq
    cases r <;> cases q <;> simp only [rank, Has] at heq hr hq <;> first | omega | simp; omega
  have hsubset : path.map h.rank ⊆ List.range h.size := by
    intro n hn
    obtain ⟨r, hr, rfl⟩ := List.mem_map.mp hn
    have hr := hhas r hr
    rw [List.mem_range]
    cases r <;> simp only [rank, Has, size] at hr ⊢ <;> omega
  have hle := (List.Nodup.subperm hranks hsubset).length_le
  rwa [List.length_map, List.length_range] at hle

/-! ## Unfolding -/

/-- A value stands for plain data, and all containers that it reaches are of the given ones. -/
inductive Unfolds (own : Ref → Prop) (h : Heap) : Value → Data → Prop where
  | null : Unfolds own h .null .null
  | number (x : Float) : Unfolds own h (.number x) (.number x)
  | string (s : String) : Unfolds own h (.string s) (.string s)
  | boolean (b : Bool) : Unfolds own h (.boolean b) (.boolean b)
  | list {place : Nat} {items : List Data} : own (.list place) →
      (h.list place).toList.length = items.length →
      (∀ v d, (v, d) ∈ (h.list place).toList.zip items → Unfolds own h v d) →
      Unfolds own h (.list place) (.list items)
  | object {place : Nat} {members : List (String × Data)} : own (.object place) →
      (h.object place).members.length = members.length →
      (∀ e m, (e, m) ∈ (h.object place).members.zip members → e.1 = m.1) →
      (∀ e m, (e, m) ∈ (h.object place).members.zip members → Unfolds own h e.2 m.2) →
      Unfolds own h (.object place) (.object members)

/-- Two heaps have the same in a container. -/
def Same (h h' : Heap) : Ref → Prop
  | .list place => h'.list place = h.list place
  | .object place => h'.object place = h.object place

namespace Unfolds

variable {own : Ref → Prop} {v : Value} {d : Data}

/-- What a value stands for depends on the containers that it reaches. -/
theorem frame {own' : Ref → Prop} {h' : Heap} (hv : Unfolds own h v d)
    (hsame : ∀ r, own r → own' r ∧ h.Same h' r) : Unfolds own' h' v d := by
  induction hv with
  | null => exact .null
  | number x => exact .number x
  | string s => exact .string s
  | boolean b => exact .boolean b
  | @list place items hown hlength _ ih =>
      obtain ⟨hown', hlist⟩ := hsame _ hown
      have hlist : h'.list place = h.list place := hlist
      exact .list hown' (by rw [hlist]; exact hlength) (by rw [hlist]; exact ih)
  | @object place members hown hlength hkeys _ ih =>
      obtain ⟨hown', hobject⟩ := hsame _ hown
      have hobject : h'.object place = h.object place := hobject
      exact .object hown' (by rw [hobject]; exact hlength) (by rw [hobject]; exact hkeys)
        (by rw [hobject]; exact ih)

theorem kind_eq (hv : Unfolds own h v d) : v.kind = d.kind := by
  cases hv <;> rfl

/-- Nothing in a value that unfolds goes down for ever. -/
theorem acc (hv : Unfolds own h v d) : Acc h.Inside v := by
  have hplain : ∀ {w : Value}, (∀ r, w ≠ .ref r) → Acc h.Inside w := by
    intro w hw
    refine ⟨_, fun u hu => ?_⟩
    obtain ⟨r, hr, -⟩ := hu
    exact absurd hr (hw r)
  induction hv with
  | null | number | string | boolean => exact hplain fun r hr => by cases hr
  | list hown hlength _ ih =>
      refine ⟨_, fun u hu => ?_⟩
      obtain ⟨r, hr, hmem⟩ := hu
      cases hr
      obtain ⟨d, hd⟩ := exists_mem_zip_left hlength hmem
      exact ih u d hd
  | object hown hlength hkeys _ ih =>
      refine ⟨_, fun u hu => ?_⟩
      obtain ⟨r, hr, hmem⟩ := hu
      cases hr
      obtain ⟨e, he, rfl⟩ := List.mem_map.mp hmem
      obtain ⟨m, hm⟩ := exists_mem_zip_left hlength he
      exact ih e m hm

/-- A value that unfolds does not stand in itself. -/
theorem not_inside_self (hv : Unfolds own h v d) : ¬TransGen h.Inside v v := by
  have hacc := hv.acc.transGen
  clear hv
  induction hacc with
  | intro w _ ih => exact fun hcycle => ih w hcycle hcycle

end Unfolds

/-! ## Acyclic values unfold -/

/-- Below different containers that contain it, a value without cycles unfolds. The path cannot get longer
than the heap is large. -/
theorem exists_unfolds_below (fuel : Nat) (path : List Ref) {v : Value}
    (hfuel : path.length + fuel = h.size + 1) (hnodup : path.Nodup)
    (habove : ∀ r ∈ path, h.Has r ∧ TransGen h.Inside v (.ref r)) (hv : h.Acyclic v) :
    ∃ d, Unfolds (fun _ => True) h v d := by
  induction fuel generalizing path v with
  | zero =>
      have hle := length_le_size hnodup fun r hr => (habove r hr).1
      omega
  | succ fuel ih =>
      cases v with
      | null => exact ⟨_, .null⟩
      | number x => exact ⟨_, .number x⟩
      | string s => exact ⟨_, .string s⟩
      | boolean b => exact ⟨_, .boolean b⟩
      | ref r =>
          have hnew : r ∉ path := fun hr => hv _ .refl (habove r hr).2
          have hbelow : ∀ u ∈ h.contents r, ∃ d, Unfolds (fun _ => True) h u d := by
            intro u hu
            have hinside := inside_ref hu
            refine ih (r :: path) (by rw [List.length_cons]; omega)
              (List.nodup_cons.mpr ⟨hnew, hnodup⟩) ?_ (hv.of_part (.single hinside))
            refine List.forall_mem_cons.mpr ⟨⟨has_of_mem_contents hu, .single hinside⟩, ?_⟩
            exact fun q hq => ⟨(habove q hq).1, .head hinside (habove q hq).2⟩
          choose! f hf using hbelow
          cases r with
          | list place =>
              refine ⟨.list ((h.list place).toList.map f), .list trivial (by simp) fun u d hd => ?_⟩
              obtain ⟨hu, rfl⟩ := eq_of_mem_zip_map hd
              exact hf u hu
          | object place =>
              refine ⟨.object ((h.object place).members.map fun e => (e.1, f e.2)),
                .object trivial (by simp) (fun e m hm => ?_) fun e m hm => ?_⟩
              · obtain ⟨-, rfl⟩ := eq_of_mem_zip_map hm
                rfl
              · obtain ⟨he, rfl⟩ := eq_of_mem_zip_map hm
                exact hf e.2 (List.mem_map_of_mem he)

/-- A value without cycles stands for plain data. -/
theorem Acyclic.exists_unfolds {v : Value} (hv : h.Acyclic v) :
    ∃ d, Unfolds (fun _ => True) h v d :=
  exists_unfolds_below (h.size + 1) [] (by simp) .nil (by simp) hv

/-! ## What is shown -/

theorem map_eq_texts {f : Value → String} {values : List Value} {items : List Data}
    (hlength : values.length = items.length)
    (heq : ∀ v d, (v, d) ∈ values.zip items → f v = d.text) : values.map f = Data.texts items := by
  induction items generalizing values with
  | nil =>
      rw [List.length_eq_zero_iff.mp hlength]
      rfl
  | cons item items ih =>
      obtain ⟨v, values, rfl⟩ := List.exists_cons_of_length_eq_add_one hlength
      rw [List.map_cons, Data.texts, heq v item List.mem_cons_self,
        ih (Nat.succ.inj hlength) fun u d hd => heq u d (List.mem_cons_of_mem _ hd)]

theorem map_eq_memberTexts {f : Value → String} {entries : List (String × Value)}
    {members : List (String × Data)} (hlength : entries.length = members.length)
    (hkeys : ∀ e m, (e, m) ∈ entries.zip members → e.1 = m.1)
    (heq : ∀ e m, (e, m) ∈ entries.zip members → f e.2 = m.2.text) :
    (entries.map fun e => e.1 ++ " = " ++ f e.2) = Data.memberTexts members := by
  induction members generalizing entries with
  | nil =>
      rw [List.length_eq_zero_iff.mp hlength]
      rfl
  | cons m members ih =>
      obtain ⟨e, entries, rfl⟩ := List.exists_cons_of_length_eq_add_one hlength
      obtain ⟨key, member⟩ := m
      rw [List.map_cons, Data.memberTexts, hkeys e _ List.mem_cons_self,
        heq e _ List.mem_cons_self, ih (Nat.succ.inj hlength)
          (fun e' m' hm => hkeys e' m' (List.mem_cons_of_mem _ hm))
          fun e' m' hm => heq e' m' (List.mem_cons_of_mem _ hm)]

/-- Below different containers that contain it, a value is shown as its data, to the end and without a
cut. -/
theorem Unfolds.textWithin_eq {own : Ref → Prop} {v : Value} {d : Data} (hv : Unfolds own h v d)
    {fuel : Nat} (path : List Ref) (hfuel : path.length + fuel = h.size + 1) (hnodup : path.Nodup)
    (habove : ∀ r ∈ path, h.Has r ∧ TransGen h.Inside v (.ref r)) :
    h.textWithin fuel path true v = d.text := by
  -- A container is not on the path, since it does not stand in itself, and there is fuel left for it.
  have hopen : ∀ {r : Ref} {path : List Ref} {fuel : Nat}, ¬TransGen h.Inside (.ref r) (.ref r) →
      path.length + fuel = h.size + 1 → path.Nodup →
      (∀ q ∈ path, h.Has q ∧ TransGen h.Inside (.ref r) (.ref q)) →
      ∃ more, fuel = more + 1 ∧ (r :: path).length + more = h.size + 1 ∧ (r :: path).Nodup ∧
        path.contains r = false ∧ ∀ u ∈ h.contents r, ∀ q ∈ r :: path,
          h.Has q ∧ TransGen h.Inside u (.ref q) := by
    intro r path fuel hself hfuel hnodup habove
    have hle := length_le_size hnodup fun q hq => (habove q hq).1
    have hnew : r ∉ path := fun hr => hself (habove r hr).2
    refine ⟨fuel - 1, by omega, by rw [List.length_cons]; omega, List.nodup_cons.mpr ⟨hnew, hnodup⟩,
      by simpa using hnew, fun u hu => ?_⟩
    have hinside := inside_ref hu
    refine List.forall_mem_cons.mpr ⟨⟨has_of_mem_contents hu, .single hinside⟩, ?_⟩
    exact fun q hq => ⟨(habove q hq).1, .head hinside (habove q hq).2⟩
  have hself := hv.not_inside_self
  induction hv generalizing fuel path with
  | null | number | string | boolean => cases fuel <;> rfl
  | @list place items hown hlength hitems ih =>
      obtain ⟨more, rfl, hfuel, hnodup, hcontains, hbelow⟩ := hopen hself hfuel hnodup habove
      rw [textWithin, hcontains, if_neg Bool.false_ne_true, Data.text]
      dsimp only
      rw [map_eq_texts hlength fun u d hd => ih u d hd _ hfuel hnodup
        (hbelow u (List.of_mem_zip hd).1) (hitems u d hd).not_inside_self]
  | @object place members hown hlength hkeys hmembers ih =>
      obtain ⟨more, rfl, hfuel, hnodup, hcontains, hbelow⟩ := hopen hself hfuel hnodup habove
      rw [textWithin, hcontains, if_neg Bool.false_ne_true, Data.text]
      dsimp only
      rw [map_eq_memberTexts hlength hkeys fun e m hm => ih e m hm _ hfuel hnodup
        (hbelow e.2 (List.mem_map_of_mem (List.of_mem_zip hm).1)) (hmembers e m hm).not_inside_self]

/-- A value that unfolds is written as its data. -/
theorem Unfolds.repr_eq {own : Ref → Prop} {v : Value} {d : Data} (hv : Unfolds own h v d) :
    h.repr v = d.text :=
  hv.textWithin_eq [] (by simp) .nil (by simp)

end Heap

end LineScript.Machine
