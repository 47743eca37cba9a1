/-
# Literals of data build the data

Evaluating the literal of plain data gives a value that stands for the data. Its containers are new, each of
them filled from left to right, and all containers that there were before stay as they are. So what has been
built for one element is not touched when the next one is built, and the elements can be put together.

A list or an object that is being filled changes with each element. What has been built for the elements does
not contain it, since it was there before them.
-/

import LineScript.Proofs.DataLiterals
import LineScript.Proofs.Evaluator
import LineScript.Proofs.Objects

namespace LineScript.Machine

namespace Heap

variable {changes : Ref → Prop} {h h' h'' : Heap}

/-! ## Heaps that grow -/

/-- A container that there is in a heap, but not in an earlier one. -/
def Newer (h h' : Heap) (r : Ref) : Prop := ¬h.Has r ∧ h'.Has r

/-- The containers of a heap are still there in a later one, with the same content where nothing is said of
changes. -/
structure Extends (changes : Ref → Prop) (h h' : Heap) : Prop where
  has : ∀ r, h.Has r → h'.Has r
  same : ∀ r, h.Has r → ¬changes r → h.Same h' r

theorem Same.refl (h : Heap) (r : Ref) : h.Same h r := by
  cases r <;> rfl

theorem Same.trans {r : Ref} (first : h.Same h' r) (second : h'.Same h'' r) : h.Same h'' r := by
  cases r <;> exact Eq.trans second first

namespace Extends

theorem refl (changes : Ref → Prop) (h : Heap) : h.Extends changes h :=
  ⟨fun _ hr => hr, fun r _ _ => .refl h r⟩

theorem trans (first : h.Extends changes h') (second : h'.Extends changes h'') :
    h.Extends changes h'' :=
  ⟨fun r hr => second.has r (first.has r hr),
    fun r hr hkept => (first.same r hr hkept).trans (second.same r (first.has r hr) hkept)⟩

theorem mono {changes' : Ref → Prop} (hle : ∀ r, h.Has r → changes r → changes' r)
    (hextends : h.Extends changes h') : h.Extends changes' h' :=
  ⟨hextends.has, fun r hr hkept => hextends.same r hr fun hchanges => hkept (hle r hr hchanges)⟩

/-- What only changes in containers that are not there yet, changes nothing. -/
theorem trans_newer {r : Ref} (first : h.Extends (fun _ => False) h') (hr : ¬h.Has r)
    (second : h'.Extends (· = r) h'') : h.Extends (fun _ => False) h'' := by
  refine ⟨fun q hq => second.has q (first.has q hq), fun q hq _ => ?_⟩
  have hne : q ≠ r := by
    rintro rfl
    exact hr hq
  exact (first.same q hq not_false).trans (second.same q (first.has q hq) hne)

end Extends

namespace Unfolds

variable {v : Value} {d : Data} {r : Ref}

/-- What is new stays as it is while another container changes. -/
theorem carry (hv : Unfolds (h.Newer h') h' v d) (hr : h.Has r) (hextends : h'.Extends (· = r) h'') :
    Unfolds (h.Newer h'') h'' v d := by
  refine hv.frame fun q hq => ⟨⟨hq.1, hextends.has q hq.2⟩, hextends.same q hq.2 ?_⟩
  rintro rfl
  exact hq.1 hr

/-- What is newer than a heap is newer than an earlier one. -/
theorem widen (hv : Unfolds (h'.Newer h'') h'' v d) (hextends : h.Extends changes h') :
    Unfolds (h.Newer h'') h'' v d :=
  hv.frame fun q hq => ⟨⟨fun hold => hq.1 (hextends.has q hold), hq.2⟩, .refl h'' q⟩

end Unfolds

/-! ### New containers -/

section Arrays

variable {α : Type} {as : Array α} {i j : Nat}

theorem getD_push_of_lt (h : i < as.size) (a d : α) : (as.push a).getD i d = as.getD i d := by
  rw [Array.getD_eq_getD_getElem?, Array.getD_eq_getD_getElem?, Array.getElem?_push,
    if_neg (Nat.ne_of_lt h)]

theorem getD_push_size (a d : α) : (as.push a).getD as.size d = a := by
  rw [Array.getD_eq_getD_getElem?, Array.getElem?_push_size, Option.getD_some]

theorem getD_modify_of_ne (h : i ≠ j) (f : α → α) (d : α) :
    (as.modify i f).getD j d = as.getD j d := by
  rw [Array.getD_eq_getD_getElem?, Array.getD_eq_getD_getElem?, Array.getElem?_modify, if_neg h]

theorem getD_modify_self (h : i < as.size) (f : α → α) (d : α) :
    (as.modify i f).getD i d = f (as.getD i d) := by
  rw [Array.getD_eq_getD_getElem?, Array.getD_eq_getD_getElem?, Array.getElem?_modify, if_pos rfl,
    Array.getElem?_eq_getElem h]
  rfl

end Arrays

theorem extends_newList (h : Heap) (items : Array Value) :
    h.Extends changes (h.newList items).2 := by
  refine ⟨fun r hr => ?_, fun r hr _ => ?_⟩ <;> cases r
  case refine_1.list => exact Nat.lt_of_lt_of_eq (Nat.lt_succ_of_lt hr) (Array.size_push _).symm
  case refine_1.object => exact hr
  case refine_2.list => exact getD_push_of_lt hr _ _
  case refine_2.object => rfl

theorem newer_newList (h : Heap) (items : Array Value) :
    h.Newer (h.newList items).2 (.list h.lists.size) :=
  ⟨Nat.lt_irrefl _, Nat.lt_of_lt_of_eq (Nat.lt_succ_self _) (Array.size_push _).symm⟩

theorem list_newList (h : Heap) (items : Array Value) :
    (h.newList items).2.list h.lists.size = items :=
  getD_push_size _ _

theorem extends_newObject (h : Heap) (o : Object) : h.Extends changes (h.newObject o).2 := by
  refine ⟨fun r hr => ?_, fun r hr _ => ?_⟩ <;> cases r
  case refine_1.list => exact hr
  case refine_1.object => exact Nat.lt_of_lt_of_eq (Nat.lt_succ_of_lt hr) (Array.size_push _).symm
  case refine_2.list => rfl
  case refine_2.object => exact getD_push_of_lt hr _ _

theorem newer_newObject (h : Heap) (o : Object) :
    h.Newer (h.newObject o).2 (.object h.objects.size) :=
  ⟨Nat.lt_irrefl _, Nat.lt_of_lt_of_eq (Nat.lt_succ_self _) (Array.size_push _).symm⟩

theorem object_newObject (h : Heap) (o : Object) :
    (h.newObject o).2.object h.objects.size = o :=
  getD_push_size _ _

/-! ### Changed containers -/

theorem extends_append (h : Heap) (place : Nat) (v : Value) :
    h.Extends (· = .list place) (h.append place v) := by
  refine ⟨fun r hr => ?_, fun r _ hne => ?_⟩ <;> cases r
  case refine_1.list => exact Nat.lt_of_lt_of_eq hr Array.size_modify.symm
  case refine_1.object => exact hr
  case refine_2.list => exact getD_modify_of_ne (fun heq => hne (congrArg Ref.list heq.symm)) _ _
  case refine_2.object => rfl

theorem toList_list_append {place : Nat} (hplace : h.Has (.list place)) (v : Value) :
    ((h.append place v).list place).toList = (h.list place).toList ++ [v] :=
  (congrArg Array.toList (getD_modify_self hplace _ _)).trans Array.toList_push

theorem extends_setMember (h : Heap) (place : Nat) (key : String) (v : Value) :
    h.Extends (· = .object place) (h.setMember place key v) := by
  refine ⟨fun r hr => ?_, fun r _ hne => ?_⟩ <;> cases r
  case refine_1.list => exact hr
  case refine_1.object => exact Nat.lt_of_lt_of_eq hr Array.size_modify.symm
  case refine_2.list => rfl
  case refine_2.object => exact getD_modify_of_ne (fun heq => hne (congrArg Ref.object heq.symm)) _ _

theorem object_setMember {place : Nat} (hplace : h.Has (.object place)) (key : String) (v : Value) :
    (h.setMember place key v).object place = (h.object place).set key v :=
  getD_modify_self hplace _ _

end Heap

end LineScript.Machine

namespace LineScript.Tree

open LineScript.Machine LineScript.Machine.Heap

section

variable (own : String → Bool) (invoke : String → List Value → Eval Value)

/-! ## Evaluation of literals -/

/-- An expression gives a value that stands for data. The containers of the value are new, and the others
stay as they are. -/
def Expr.Builds (e : Expr) (d : Data) : Prop :=
  ∀ st : Store, ∃ v h, e.eval own invoke st = (.done v, st.mapHeap fun _ => h) ∧
    st.heap.Extends (fun _ => False) h ∧ Unfolds (st.heap.Newer h) h v d

variable {own invoke}

/-- What needs no heap leaves the store as it is. -/
theorem Expr.builds_of_plain {e : Expr} {v : Value} {d : Data}
    (heval : ∀ st, e.eval own invoke st = (.done v, st)) (hv : ∀ changes h, Unfolds changes h v d) :
    e.Builds own invoke d :=
  fun st => ⟨v, st.heap, heval st, .refl _ _, hv _ _⟩

/-- Elements are put behind those that are there. -/
theorem Exprs.fill_exprs {items : List Data} (hitems : ∀ item ∈ items, item.expr.Builds own invoke item)
    {place : Nat} (st : Store) (hplace : st.heap.Has (.list place)) :
    ∃ values h, (Data.exprs items).fill own invoke place st = (.done (), st.mapHeap fun _ => h) ∧
      st.heap.Extends (· = .list place) h ∧
      (h.list place).toList = (st.heap.list place).toList ++ values ∧
      List.Forall₂ (Unfolds (st.heap.Newer h) h) values items := by
  induction items generalizing st with
  | nil => exact ⟨[], st.heap, rfl, .refl _ _, (List.append_nil _).symm, .nil⟩
  | cons item rest ih =>
      obtain ⟨hitem, hrest⟩ := List.forall_mem_cons.mp hitems
      obtain ⟨v, h₁, heval, hextends, hunfolds⟩ := hitem st
      have hplace₁ := hextends.has _ hplace
      have happend := h₁.extends_append place v
      obtain ⟨values, h₂, hfill, hextends₂, hcontent, hvalues⟩ :=
        ih hrest (st.mapHeap fun _ => h₁.append place v) (happend.has _ hplace₁)
      have hbehind : h₁.Extends (· = .list place) h₂ := happend.trans hextends₂
      refine ⟨v :: values, h₂, ?_, (hextends.mono fun _ _ => False.elim).trans hbehind, ?_,
        .cons (hunfolds.carry hplace hbehind) (hvalues.imp fun _ _ hv => ?_)⟩
      · rw [Data.exprs, Exprs.fill, Eval.bind_done heval]
        exact (Eval.bind_done rfl).trans hfill
      · have hsame : h₁.list place = st.heap.list place := hextends.same _ hplace not_false
        rw [hcontent]
        change ((h₁.append place v).list place).toList ++ values = _
        rw [toList_list_append hplace₁, hsame, List.append_assoc, List.singleton_append]
      · exact hv.widen ((hextends.mono fun _ _ => False.elim).trans happend)

/-- Members with other keys are put behind those that are there. -/
theorem Members.fill_memberExprs {members : List (String × Data)}
    (hmembers : ∀ m ∈ members, m.2.expr.Builds own invoke m.2) {place : Nat} (st : Store)
    (hplace : st.heap.Has (.object place)) (hcoherent : (st.heap.object place).Coherent)
    (hkeys : ((st.heap.object place).keys ++ members.map (·.1)).Nodup) :
    ∃ entries h, (Data.memberExprs members).fill own invoke place st =
        (.done (), st.mapHeap fun _ => h) ∧
      st.heap.Extends (· = .object place) h ∧
      (h.object place).members = (st.heap.object place).members ++ entries ∧
      List.Forall₂ (fun e m => e.1 = m.1 ∧ Unfolds (st.heap.Newer h) h e.2 m.2) entries members := by
  induction members generalizing st with
  | nil => exact ⟨[], st.heap, rfl, .refl _ _, (List.append_nil _).symm, .nil⟩
  | cons m rest ih =>
      obtain ⟨key, member⟩ := m
      obtain ⟨hmember, hrest⟩ := List.forall_mem_cons.mp hmembers
      obtain ⟨v, h₁, heval, hextends, hunfolds⟩ := hmember st
      have hplace₁ := hextends.has _ hplace
      have hset := h₁.extends_setMember place key v
      have hkey : key ∉ (st.heap.object place).keys := fun hmem =>
        List.disjoint_of_nodup_append hkeys hmem List.mem_cons_self
      have hobject : (h₁.setMember place key v).object place = (st.heap.object place).set key v := by
        rw [object_setMember hplace₁]
        exact congrArg (·.set key v) (hextends.same _ hplace not_false)
      have hcoherent₁ : ((h₁.setMember place key v).object place).Coherent := by
        rw [hobject]
        exact hcoherent.set key v
      have hcontent₁ := (congrArg Object.members hobject).trans (hcoherent.members_set hkey v)
      have hkeys₁ : (((h₁.setMember place key v).object place).keys ++ rest.map (·.1)).Nodup := by
        rw [hobject, hcoherent.keys_set, if_neg hkey, List.append_assoc]
        exact hkeys
      obtain ⟨entries, h₂, hfill, hextends₂, hcontent, hentries⟩ :=
        ih hrest (st.mapHeap fun _ => h₁.setMember place key v) (hset.has _ hplace₁) hcoherent₁ hkeys₁
      have hbehind : h₁.Extends (· = .object place) h₂ := hset.trans hextends₂
      refine ⟨(key, v) :: entries, h₂, ?_, (hextends.mono fun _ _ => False.elim).trans hbehind, ?_,
        .cons ⟨rfl, hunfolds.carry hplace hbehind⟩ (hentries.imp fun _ _ he => ⟨he.1, ?_⟩)⟩
      · rw [Data.memberExprs, Members.fill, Eval.bind_done heval]
        exact (Eval.bind_done rfl).trans hfill
      · rw [hcontent]
        change ((h₁.setMember place key v).object place).members ++ entries = _
        rw [hcontent₁, List.append_assoc, List.singleton_append]
      · exact he.2.widen ((hextends.mono fun _ _ => False.elim).trans hset)

theorem Expr.builds_number {x : Float} (h : Data.Numeric x) :
    (Data.number x).expr.Builds own invoke (.number x) := by
  obtain ⟨-, -, -, -, ⟨hnegative, -⟩ | ⟨hnegative, -, -, hneg⟩⟩ := h.numeral_cases
  · refine builds_of_plain (v := .number x) (fun st => ?_) fun _ _ => .number x
    rw [Data.expr, Data.numberExpr, hnegative, if_neg Bool.false_ne_true]
    rfl
  · refine builds_of_plain (v := .number (- -x)) (fun st => ?_) fun _ _ => ?_
    · rw [Data.expr, Data.numberExpr, hnegative, if_pos rfl]
      rfl
    · rw [hneg]
      exact .number x

theorem Expr.builds_list {items : List Data} (h : ∀ item ∈ items, item.expr.Builds own invoke item) :
    (Data.list items).expr.Builds own invoke (.list items) := by
  intro st
  have hnew := st.heap.newer_newList #[]
  have hextends : st.heap.Extends (fun _ => False) (st.heap.newList #[]).2 := extends_newList _ _
  obtain ⟨values, h₁, hfill, hextends₁, hcontent, hvalues⟩ :=
    Exprs.fill_exprs h (st.mapHeap fun h => (h.newList #[]).2) hnew.2
  have hcontent : (h₁.list st.heap.lists.size).toList = values := by
    rw [hcontent]
    change ((st.heap.newList #[]).2.list _).toList ++ values = values
    rw [list_newList]
    rfl
  obtain ⟨hlength, hzip⟩ := List.forall₂_iff_zip.mp hvalues
  refine ⟨.list st.heap.lists.size, h₁, ?_, hextends.trans_newer hnew.1 hextends₁,
    .list ⟨hnew.1, hextends₁.has _ hnew.2⟩ ?_ ?_⟩
  · rw [Data.expr, Expr.eval]
    exact (Eval.bind_done rfl).trans (Eval.bind_done hfill)
  · rw [hcontent, hlength]
  · rw [hcontent]
    exact fun v d hd => (hzip hd).widen hextends

theorem Expr.builds_object {members : List (String × Data)} (hkeys : (members.map (·.1)).Nodup)
    (h : ∀ m ∈ members, m.2.expr.Builds own invoke m.2) :
    (Data.object members).expr.Builds own invoke (.object members) := by
  intro st
  have hnew := st.heap.newer_newObject {}
  have hextends : st.heap.Extends (fun _ => False) (st.heap.newObject {}).2 := extends_newObject _ _
  have hempty := st.heap.object_newObject {}
  obtain ⟨entries, h₁, hfill, hextends₁, hcontent, hentries⟩ :=
    Members.fill_memberExprs h (st.mapHeap fun h => (h.newObject {}).2) hnew.2
      (by
        change ((st.heap.newObject {}).2.object _).Coherent
        rw [hempty]
        exact .empty)
      (by
        change (((st.heap.newObject {}).2.object _).keys ++ _).Nodup
        rw [hempty]
        exact hkeys)
  have hcontent : (h₁.object st.heap.objects.size).members = entries := by
    rw [hcontent]
    change ((st.heap.newObject {}).2.object _).members ++ entries = entries
    rw [hempty]
    rfl
  obtain ⟨hlength, hzip⟩ := List.forall₂_iff_zip.mp hentries
  refine ⟨.object st.heap.objects.size, h₁, ?_, hextends.trans_newer hnew.1 hextends₁,
    .object ⟨hnew.1, hextends₁.has _ hnew.2⟩ ?_ ?_ ?_⟩
  · rw [Data.expr, Expr.eval]
    exact (Eval.bind_done rfl).trans (Eval.bind_done hfill)
  · rw [hcontent, hlength]
  · rw [hcontent]
    exact fun e m hm => (hzip hm).1
  · rw [hcontent]
    exact fun e m hm => (hzip hm).2.widen hextends

/-- The literal of data builds the data. -/
theorem Expr.builds_data {d : Data} (h : d.Expressible) : d.expr.Builds own invoke d := by
  induction h with
  | null => exact builds_of_plain (fun _ => rfl) fun _ _ => .null
  | number hnumeric => exact builds_number hnumeric
  | @string s => exact builds_of_plain (fun _ => rfl) fun _ _ => .string s
  | boolean b => exact builds_of_plain (fun _ => rfl) fun _ _ => .boolean b
  | list _ ih => exact builds_list ih
  | object hkeys _ _ ih => exact builds_object hkeys ih

end

end LineScript.Tree
