/-
# Objects as finite maps

An object keeps its keys in a row and their values in a map of their own. Setting a member changes both, and
they stay in step: no key stands in the row twice, and the row has exactly the keys that have a value. So it
does not matter which of the two is looked at, both tell of the same members.

What an object holds follows from what has been assigned to it. Its keys stand in the order in which they
were assigned first, and each has the value that it was assigned last.
-/

import Mathlib
import LineScript.Machine.Value

namespace LineScript.Machine

namespace Object

variable {o : Object} {key other : String} {v : Value}

/-- The keys in the row are different, and they are those that have a value. -/
structure Coherent (o : Object) : Prop where
  nodup : o.keys.Nodup
  mem_keys : ∀ key, key ∈ o.keys ↔ o.fields.contains key = true

/-! ## Setting members -/

@[simp] theorem get?_set_self (o : Object) (key : String) (v : Value) :
    (o.set key v).get? key = some v :=
  Dict.get?_insert_self _ _ _

theorem get?_set_of_ne (o : Object) (v : Value) (hne : other ≠ key) :
    (o.set key v).get? other = o.get? other :=
  Dict.get?_insert_of_ne _ _ hne

/-- The members have the keys of the row. -/
theorem map_fst_members (o : Object) : o.members.map (·.1) = o.keys := by
  rw [members, List.map_map]
  exact List.map_id _

namespace Coherent

theorem empty : Coherent {} := ⟨List.nodup_nil, fun _ => iff_of_false List.not_mem_nil nofun⟩

theorem isSome_get? (h : o.Coherent) : (o.get? key).isSome = true ↔ key ∈ o.keys :=
  (h.mem_keys key).symm

/-- A key that is there keeps its place in the row, any other comes last. -/
theorem keys_set (h : o.Coherent) (key : String) (v : Value) :
    (o.set key v).keys = if key ∈ o.keys then o.keys else o.keys ++ [key] :=
  if_congr (h.mem_keys key).symm rfl rfl

/-- Setting a member keeps row and map in step. -/
theorem set (h : o.Coherent) (key : String) (v : Value) : (o.set key v).Coherent := by
  refine ⟨?_, fun other => ?_⟩
  · rw [h.keys_set]
    split
    · exact h.nodup
    · rw [← List.concat_eq_append]
      exact h.nodup.concat ‹_›
  · change _ ↔ ((o.set key v).get? other).isSome = true
    rw [h.keys_set]
    by_cases hsame : other = key
    · subst hsame
      rw [get?_set_self]
      split <;> simp [*]
    · rw [get?_set_of_ne _ _ hsame, h.isSome_get?]
      split <;> simp [hsame]

/-! ## Members -/

theorem lookup_members (h : o.Coherent) (key : String) : o.members.lookup key = o.get? key := by
  by_cases hkey : key ∈ o.keys
  · obtain ⟨v, hv⟩ := Option.isSome_iff_exists.mp (h.isSome_get?.mpr hkey)
    rw [members, List.lookup_graph _ hkey, hv]
    rfl
  · rw [Option.not_isSome_iff_eq_none.mp (mt h.isSome_get?.mp hkey), List.lookup_eq_none_iff]
    intro m hm
    rw [bne_iff_ne]
    rintro rfl
    rw [← map_fst_members] at hkey
    exact hkey (List.mem_map_of_mem hm)

/-- A new key comes with its value behind the members that are there. -/
theorem members_set (h : o.Coherent) (hkey : key ∉ o.keys) (v : Value) :
    (o.set key v).members = o.members ++ [(key, v)] := by
  rw [members, h.keys_set, if_neg hkey, List.map_append, List.map_singleton, get?_set_self]
  refine congrArg (· ++ _) (List.map_congr_left fun k hk => ?_)
  rw [get?_set_of_ne]
  rintro rfl
  exact hkey hk

end Coherent

/-! ## Rows of assignments -/

/-- Sets members, one after the other. -/
def setAll (o : Object) (assignments : List (String × Value)) : Object :=
  assignments.foldl (fun o a => o.set a.1 a.2) o

/-- Setting members keeps row and map in step. -/
theorem Coherent.setAll (h : o.Coherent) (assignments : List (String × Value)) :
    (o.setAll assignments).Coherent := by
  induction assignments generalizing o with
  | nil => exact h
  | cons a rest ih => exact ih (h.set a.1 a.2)

/-- The object that assignments make of a new one. -/
def after (assignments : List (String × Value)) : Object := setAll {} assignments

/-- The members that assignments leave: the keys in the order they were first assigned, each with the value
that it was assigned last. -/
def latest (assignments : List (String × Value)) : List (String × Value) :=
  (assignments.map (·.1)).eraseDups.map fun key => (key, (assignments.reverse.lookup key).getD .null)

variable (assignments : List (String × Value))

theorem after_concat (key : String) (v : Value) :
    after (assignments ++ [(key, v)]) = (after assignments).set key v :=
  List.foldl_append

theorem coherent_after : (after assignments).Coherent := Coherent.empty.setAll assignments

theorem keys_after : (after assignments).keys = (assignments.map (·.1)).eraseDups := by
  induction assignments using List.reverseRecOn with
  | nil => rfl
  | append_singleton rest a ih =>
      rw [after_concat, (coherent_after rest).keys_set, ih, List.map_append, List.eraseDups_append]
      by_cases hkey : a.1 ∈ rest.map (·.1)
      · rw [if_pos (List.mem_eraseDups.mpr hkey)]
        simp [List.removeAll, hkey]
      · rw [if_neg (mt List.mem_eraseDups.mp hkey)]
        simp [List.removeAll, List.eraseDups_cons, hkey]

theorem get?_after (key : String) :
    (after assignments).get? key = assignments.reverse.lookup key := by
  induction assignments using List.reverseRecOn with
  | nil => rfl
  | append_singleton rest a ih =>
      rw [after_concat, List.reverse_append, List.reverse_singleton, List.singleton_append]
      by_cases hsame : key = a.1
      · subst hsame
        rw [get?_set_self, List.lookup_cons_self]
      · rw [get?_set_of_ne _ _ hsame, ih, List.lookup_cons, beq_eq_false_iff_ne.mpr hsame]

theorem members_after : (after assignments).members = latest assignments := by
  rw [members, keys_after]
  exact List.map_congr_left fun key _ => by rw [get?_after]

end Object

end LineScript.Machine
