/-
# References lead somewhere

A list or an object is known to a script by a reference to its place in the heap. New containers come behind
those that are there, and none is ever taken away, so a reference leads to a container as long as there are
heaps that grow out of one another. Nothing makes up a reference: every value that an instruction puts on the
stack, into a variable or into a container was somewhere before, refers to no container, or refers to the
container that was just made.

Host functions get the heap in their hands. Of the standard ones, two change it: one appends to a list, one
makes a list of texts. None makes or changes an object.
-/

import LineScript.Proofs.BuiltData
import LineScript.Proofs.Failures

namespace LineScript.Machine

/-! ## Heaps -/

section Arrays

variable {α : Type} (as : Array α) (i j : Nat) (a d : α)

/-- Changing one element changes no other. -/
theorem getD_modify_cases (f : α → α) :
    (as.modify i f).getD j d = as.getD j d ∨ (as.modify i f).getD j d = f (as.getD j d) := by
  by_cases hplace : i = j ∧ i < as.size
  · obtain ⟨rfl, hlt⟩ := hplace
    exact .inr (Heap.getD_modify_self hlt f d)
  · left
    rw [Array.getD_eq_getD_getElem?, Array.getD_eq_getD_getElem?, Array.getElem?_modify]
    split
    · rw [Array.getElem?_eq_none (by omega)]
      rfl
    · rfl

theorem getD_push_cases : (as.push a).getD j d = as.getD j d ∨ (as.push a).getD j d = a := by
  rw [Array.getD_eq_getD_getElem?, Array.getD_eq_getD_getElem?, Array.getElem?_push]
  split
  · exact .inr rfl
  · exact .inl rfl

end Arrays

namespace Heap

variable {h h' : Heap} {v : Value} {o : Object}

/-- A value refers to a container that is there, if it refers to any. -/
def Knows (h : Heap) (v : Value) : Prop := ∀ r, v = .ref r → h.Has r

/-- Whatever stands in a container leads somewhere. -/
structure Closed (h : Heap) : Prop where
  list : ∀ place, ∀ v ∈ h.list place, h.Knows v
  object : ∀ place key v, (h.object place).get? key = some v → h.Knows v

/-- The containers of a heap are still there in a later one. -/
def Grows (h h' : Heap) : Prop := ∀ r, h.Has r → h'.Has r

/-- All variables have values that lead somewhere. -/
def Binds (h : Heap) (vars : Dict Value) : Prop := ∀ name v, vars.get? name = some v → h.Knows v

theorem Knows.grow (hv : h.Knows v) (hgrows : h.Grows h') : h'.Knows v :=
  fun r hr => hgrows r (hv r hr)

/-- A value that may be missing. -/
theorem knows_getD {v? : Option Value} (h : ∀ v, v? = some v → h'.Knows v) : h'.Knows (v?.getD .null) := by
  cases v? with
  | none => exact nofun
  | some v => exact h v rfl

theorem Binds.grow {vars : Dict Value} (hvars : h.Binds vars) (hgrows : h.Grows h') : h'.Binds vars :=
  fun name v hv => (hvars name v hv).grow hgrows

theorem Binds.insert {vars : Dict Value} (hvars : h.Binds vars) (hv : h.Knows v) (name : String) :
    h.Binds (vars.insert name v) :=
  Dict.forall_get?_insert hv hvars

theorem closed_empty : ({} : Heap).Closed :=
  ⟨fun _ _ hv => absurd hv (Array.not_mem_empty _), fun _ _ _ hv => nomatch hv⟩

theorem grows_setElement (h : Heap) (place index : Nat) (v : Value) :
    h.Grows (h.setElement place index v) := by
  rintro (q | q) hq
  · exact Nat.lt_of_lt_of_eq hq Array.size_modify.symm
  · exact hq

theorem grows_append (h : Heap) (place : Nat) (v : Value) : h.Grows (h.append place v) :=
  (extends_append h place v).has

theorem grows_setMember (h : Heap) (place : Nat) (key : String) (v : Value) :
    h.Grows (h.setMember place key v) :=
  (extends_setMember h place key v).has

/-- No container that is there changes when another one is made. -/
theorem grows_newList (h : Heap) (items : Array Value) : h.Grows (h.newList items).2 :=
  have hextends : h.Extends (fun _ => False) (h.newList items).2 := extends_newList h items
  hextends.has

theorem grows_newObject (h : Heap) (o : Object) : h.Grows (h.newObject o).2 :=
  have hextends : h.Extends (fun _ => False) (h.newObject o).2 := extends_newObject h o
  hextends.has

namespace Closed

theorem append (h : h'.Closed) (hv : h'.Knows v) (place : Nat) : (h'.append place v).Closed := by
  have hgrows := grows_append h' place v
  refine ⟨fun q w hw => ?_, fun q key w hw => (h.object q key w hw).grow hgrows⟩
  have hcases := getD_modify_cases h'.lists place q #[] (·.push v)
  change (h'.append place v).list q = h'.list q ∨ (h'.append place v).list q = (h'.list q).push v at hcases
  rcases hcases with hsame | hpush
  · exact (h.list q w (hsame ▸ hw)).grow hgrows
  · rcases Array.mem_push.mp (hpush ▸ hw) with hold | rfl
    · exact (h.list q w hold).grow hgrows
    · exact hv.grow hgrows

theorem setElement (h : h'.Closed) (hv : h'.Knows v) (place index : Nat) :
    (h'.setElement place index v).Closed := by
  have hgrows := grows_setElement h' place index v
  refine ⟨fun q w hw => ?_, fun q key w hw => (h.object q key w hw).grow hgrows⟩
  have hcases := getD_modify_cases h'.lists place q #[] (·.setIfInBounds index v)
  change (h'.setElement place index v).list q = h'.list q ∨
    (h'.setElement place index v).list q = (h'.list q).setIfInBounds index v at hcases
  rcases hcases with hsame | hset
  · exact (h.list q w (hsame ▸ hw)).grow hgrows
  · rcases Array.mem_or_eq_of_mem_setIfInBounds (hset ▸ hw) with hold | rfl
    · exact (h.list q w hold).grow hgrows
    · exact hv.grow hgrows

theorem setMember (h : h'.Closed) (hv : h'.Knows v) (place : Nat) (key : String) :
    (h'.setMember place key v).Closed := by
  have hgrows := grows_setMember h' place key v
  refine ⟨fun q w hw => (h.list q w hw).grow hgrows, fun q other w hw => ?_⟩
  have hcases := getD_modify_cases h'.objects place q {} (·.set key v)
  change (h'.setMember place key v).object q = h'.object q ∨
    (h'.setMember place key v).object q = (h'.object q).set key v at hcases
  rcases hcases with hsame | hset
  · exact (h.object q other w (hsame ▸ hw)).grow hgrows
  · rw [hset] at hw
    by_cases hkey : other = key
    · subst hkey
      rw [Object.get?_set_self] at hw
      cases hw
      exact hv.grow hgrows
    · rw [Object.get?_set_of_ne _ _ hkey] at hw
      exact (h.object q other w hw).grow hgrows

theorem newList (h : h'.Closed) {items : Array Value} (hitems : ∀ v ∈ items, h'.Knows v) :
    (h'.newList items).2.Closed := by
  have hgrows := grows_newList h' items
  refine ⟨fun q w hw => ?_, fun q key w hw => (h.object q key w hw).grow hgrows⟩
  have hcases := getD_push_cases h'.lists q items #[]
  change (h'.newList items).2.list q = h'.list q ∨ (h'.newList items).2.list q = items at hcases
  rcases hcases with hsame | hnew
  · exact (h.list q w (hsame ▸ hw)).grow hgrows
  · exact (hitems w (hnew ▸ hw)).grow hgrows

theorem newObject (h : h'.Closed) (ho : ∀ key v, o.get? key = some v → h'.Knows v) :
    (h'.newObject o).2.Closed := by
  have hgrows := grows_newObject h' o
  refine ⟨fun q w hw => (h.list q w hw).grow hgrows, fun q key w hw => ?_⟩
  have hcases := getD_push_cases h'.objects q o {}
  change (h'.newObject o).2.object q = h'.object q ∨ (h'.newObject o).2.object q = o at hcases
  rcases hcases with hsame | hnew
  · exact (h.object q key w (hsame ▸ hw)).grow hgrows
  · exact (ho key w (hnew ▸ hw)).grow hgrows

end Closed

end Heap

/-! ## Operators -/

section

variable {h : Heap} {a b v : Value}

theorem knows_of_add (hv : add h a b = .ok v) : h.Knows v := by
  unfold add at hv
  split at hv
  · cases hv
    exact nofun
  · split at hv
    · cases hv
      exact nofun
    · cases hv

theorem knows_of_arithmetic {op : Code.Opcode} (hv : arithmetic op a b = .ok v) : h.Knows v := by
  suffices hnumber : ∃ n, v = .number n by
    obtain ⟨n, rfl⟩ := hnumber
    exact nofun
  unfold arithmetic at hv
  split at hv
  · split at hv
    case h_3 =>
      split at hv
      · cases hv
      · exact ⟨_, (Except.ok.inj hv).symm⟩
    all_goals exact ⟨_, (Except.ok.inj hv).symm⟩
  · cases hv

theorem exists_of_map_eq_ok {ε α β : Type} {f : α → β} {r : Except ε α} {b : β} (h : r.map f = .ok b) :
    ∃ a, r = .ok a ∧ f a = b := by
  cases r with
  | error e => cases h
  | ok a =>
      cases h
      exact ⟨a, rfl, rfl⟩

theorem knows_of_compare {op : Code.Opcode} (hv : compare op a b = .ok v) : h.Knows v := by
  obtain ⟨o, -, rfl⟩ := exists_of_map_eq_ok hv
  exact nofun

/-- An element leads somewhere, since it stood in a container. -/
theorem knows_of_element (hclosed : h.Closed) (hv : element h a b = .ok v) : h.Knows v := by
  unfold element at hv
  split at hv
  · obtain ⟨i, -, rfl⟩ := exists_of_map_eq_ok hv
    rw [Array.getD_eq_getD_getElem?]
    exact Heap.knows_getD fun w hw => hclosed.list _ w (Array.mem_of_getElem? hw)
  · obtain ⟨i, -, rfl⟩ := exists_of_map_eq_ok hv
    exact nofun
  · split at hv
    · cases hv
      exact Heap.knows_getD fun w hw => hclosed.object _ _ w hw
    · cases hv
  · cases hv

end

/-! ## Host functions -/

/-- From one heap to another, no object is made or changed, and all references still lead somewhere. -/
structure Heap.Spares (h h' : Heap) : Prop where
  closed : h'.Closed
  grows : h.Grows h'
  objects : h'.objects = h.objects

theorem Heap.Spares.refl {h : Heap} (hclosed : h.Closed) : h.Spares h := ⟨hclosed, fun _ hr => hr, rfl⟩

/-- An answer of a host function to which all references were known. -/
def Reply.Sparing (h : Heap) (answer : Reply × World) : Prop :=
  h.Spares answer.2.heap ∧ ∀ v, answer.1 = .value v → answer.2.heap.Knows v

/-- The host function spares all objects. -/
def Native.Sparing (n : Native) : Prop :=
  ∀ (calls : Nat) (args : List Value) (w : World), w.heap.Closed → (∀ v ∈ args, w.heap.Knows v) →
    Reply.Sparing w.heap (n.run calls args w)

end LineScript.Machine

namespace LineScript.Native

open LineScript.Machine

theorem sparing_unary {f : Value → World → Reply × World}
    (h : ∀ v w, w.heap.Closed → w.heap.Knows v → Reply.Sparing w.heap (f v w)) : (unary f).Sparing := by
  intro calls args w hclosed hargs
  cases args with
  | nil => exact ⟨.refl hclosed, nofun⟩
  | cons v rest => exact h v w hclosed (hargs v List.mem_cons_self)

theorem sparing_binary {f : Value → Value → World → Reply × World}
    (h : ∀ a b w, w.heap.Closed → w.heap.Knows a → w.heap.Knows b → Reply.Sparing w.heap (f a b w)) :
    (binary f).Sparing := by
  intro calls args w hclosed hargs
  match args with
  | [] | [_] => exact ⟨.refl hclosed, nofun⟩
  | a :: b :: rest =>
      exact h a b w hclosed (hargs a List.mem_cons_self)
        (hargs b (List.mem_cons_of_mem _ List.mem_cons_self))

/-- Many host functions leave the heap alone and give no reference. -/
theorem sparing_of_heap_eq {w : World} (hclosed : w.heap.Closed) {answer : Reply × World}
    (hheap : answer.2.heap = w.heap) (hplain : ∀ r, answer.1 ≠ .value (.ref r)) :
    Reply.Sparing w.heap answer := by
  refine ⟨by rw [hheap]; exact .refl hclosed, ?_⟩
  rintro v hv r rfl
  exact absurd hv (hplain r)

/-- Whatever becomes of the line, only the output changes. -/
theorem sparing_log (out : Writer) : (log out).Sparing := by
  intro calls
  refine sparing_unary (fun v w hclosed _ => ?_) calls
  unfold Writer.write
  split
  · exact sparing_of_heap_eq hclosed rfl nofun
  · exact sparing_of_heap_eq hclosed rfl nofun

theorem sparing_length : length.Sparing := by
  refine sparing_unary fun v w hclosed _ => ?_
  cases v with
  | ref place => cases place <;> exact sparing_of_heap_eq hclosed rfl nofun
  | _ => exact sparing_of_heap_eq hclosed rfl nofun

theorem sparing_text : text.Sparing := sparing_unary fun _ _ hclosed _ => sparing_of_heap_eq hclosed rfl nofun

theorem sparing_number : number.Sparing := by
  refine sparing_unary fun v w hclosed _ => ?_
  cases v with
  | string s =>
      dsimp only
      cases Number.read? (Text.trim s) <;> exact sparing_of_heap_eq hclosed rfl nofun
  | _ => exact sparing_of_heap_eq hclosed rfl nofun

/-- The list that is given back is the one that was handed over. -/
theorem sparing_push : push.Sparing := by
  refine sparing_binary fun c v w hclosed hc hv => ?_
  cases c with
  | ref place =>
      cases place with
      | list place =>
          have hgrows := Heap.grows_append w.heap place v
          refine ⟨⟨hclosed.append hv place, hgrows, rfl⟩, ?_⟩
          rintro _ ⟨⟩
          exact hc.grow hgrows
      | object place => exact sparing_of_heap_eq hclosed rfl nofun
  | _ => exact sparing_of_heap_eq hclosed rfl nofun

/-- The list that is given back is new, and it holds texts. -/
theorem sparing_keys : keys.Sparing := by
  refine sparing_unary fun v w hclosed _ => ?_
  cases v with
  | ref place =>
      cases place with
      | list place => exact sparing_of_heap_eq hclosed rfl nofun
      | object place =>
          have hitems : ∀ u ∈ ((w.heap.object place).keys.map Value.string).toArray, w.heap.Knows u := by
            intro u hu
            obtain ⟨key, -, rfl⟩ := List.mem_map.mp (List.mem_toArray.mp hu)
            exact nofun
          refine ⟨⟨hclosed.newList hitems, Heap.grows_newList w.heap _, rfl⟩, ?_⟩
          rintro _ ⟨⟩ _ ⟨⟩
          exact (Heap.newer_newList w.heap _).2
  | _ => exact sparing_of_heap_eq hclosed rfl nofun

theorem sparing_numeric (name : String) (f : Float → Float) : (numeric name f).Sparing := by
  refine sparing_unary fun v w hclosed _ => ?_
  cases v <;> exact sparing_of_heap_eq hclosed rfl nofun

theorem sparing_standard (out : Writer) : ∀ e ∈ (Registry.standard out).entries, e.native.Sparing := by
  unfold Registry.standard
  simp only [List.forall_mem_cons]
  exact ⟨sparing_log out, sparing_length, sparing_text, sparing_number, sparing_push, sparing_keys,
    sparing_numeric _ _, sparing_numeric _ _, sparing_numeric _ _, List.forall_mem_nil _⟩

end LineScript.Native
