/-
# Well-formed programs

The check of a program lists what is wrong, instruction by instruction. This module
says the same without a list: a program is well formed when it has a top level and
every instruction has an operation, jumps within its function, has the name its
operation asks for, and calls something that is there. The main statement is that the
check finds nothing exactly in well-formed programs. What is proved of checked programs
uses the conditions, and what is proved of compiled ones establishes them.
-/

import Mathlib
import LineScript.Code.Program

namespace LineScript.Code

/-- What an instruction of a function of `length` instructions has to be. -/
structure Instruction.WellFormed (p : Program) (natives : Dict Nat) (length : Nat)
    (i : Instruction) : Prop where
  assigned : i.op.isAssigned = true
  target : i.op.isJump = true → ∃ target : Nat, i.target = target ∧ target ≤ length
  name : i.op.operand = .name → i.name ≠ ""
  callee : i.op = .call → p.functions.contains i.name = true ∨ natives.contains i.name = true

/-- What a program has to be. -/
structure Program.WellFormed (p : Program) (natives : Dict Nat) : Prop where
  main : ∃ main, p.main? = some main
  code : ∀ name f, p.functions.get? name = some f →
    ∀ i ∈ f.code, i.WellFormed p natives f.length

/-- A jump has no fault when its target is an address of the function or its end. -/
theorem targetFault_eq_none_iff {op : Opcode} {target : Int} {length : Nat} :
    (if target = unresolvedTarget then some (Fault.unresolved op)
      else if target < 0 || (length : Int) < target then some (.targetOutOfRange op target)
      else none) = none ↔ ∃ t : Nat, target = t ∧ t ≤ length := by
  have hrange : (target < 0 || (length : Int) < target) = true ↔
      ¬(0 ≤ target ∧ target ≤ (length : Int)) := by
    simp
    omega
  have hunresolved : target = unresolvedTarget → ¬0 ≤ target := by
    unfold unresolvedTarget
    omega
  constructor
  · intro h
    split at h
    · cases h
    · split at h
      · cases h
      · rename_i hwithin
        rw [hrange, Decidable.not_not] at hwithin
        exact ⟨target.toNat, by omega, by omega⟩
  · rintro ⟨t, rfl, hle⟩
    rw [if_neg (fun h => hunresolved h (by omega)), if_neg (fun h => hrange.mp h (by omega))]

/-- An instruction without fault is a well-formed one. -/
theorem Instruction.fault?_eq_none_iff {p : Program} {natives : Dict Nat} {length : Nat}
    {i : Instruction} : i.fault? p natives length = none ↔ i.WellFormed p natives length := by
  obtain ⟨op, literal, name, target, line⟩ := i
  cases op
  case unassigned =>
    exact ⟨fun h => (by cases h), fun h => (by cases h.assigned)⟩
  case branch | jump | skipAnd | skipOr =>
    exact targetFault_eq_none_iff.trans ⟨fun h => ⟨rfl, fun _ => h, nofun, nofun⟩, fun h => h.target rfl⟩
  case load | store | get | set =>
    refine ⟨fun h => ⟨rfl, nofun, fun _ hname => ?_, nofun⟩, fun h => ?_⟩
    · subst hname
      cases h
    · exact (if_neg (h.name rfl)).trans rfl
  case call =>
    have hcallee : (Opcode.call = .call && !p.functions.contains name && !natives.contains name) =
        true ↔ ¬(p.functions.contains name = true ∨ natives.contains name = true) := by
      simp
    constructor
    · intro h
      change (if name = "" then _ else if _ then _ else _) = none at h
      split at h
      · cases h
      · rename_i hname
        split at h
        · cases h
        · rename_i hknown
          rw [hcallee, Decidable.not_not] at hknown
          exact ⟨rfl, nofun, fun _ => hname, fun _ => hknown⟩
    · intro h
      exact (if_neg (h.name rfl)).trans (if_neg fun hnot => hcallee.mp hnot (h.callee rfl))
  all_goals exact iff_of_true rfl ⟨rfl, nofun, nofun, nofun⟩

theorem Function.findings_eq_nil_iff {p : Program} {natives : Dict Nat} {f : Function} :
    f.findings p natives = [] ↔ ∀ i ∈ f.code, i.WellFormed p natives f.length := by
  unfold Function.findings
  rw [List.filterMap_eq_nil_iff]
  constructor
  · intro h i hi
    obtain ⟨address, hget⟩ := List.mem_iff_getElem?.mp (Array.mem_toList_iff.mpr hi)
    have hfault := h (i, address) (List.mk_mem_zipIdx_iff_getElem?.mpr hget)
    exact Instruction.fault?_eq_none_iff.mp (Option.map_eq_none_iff.mp hfault)
  · rintro h ⟨i, address⟩ hmem
    have hi : i ∈ f.code := Array.mem_toList_iff.mp (List.fst_mem_of_mem_zipIdx hmem)
    exact Option.map_eq_none_iff.mpr (Instruction.fault?_eq_none_iff.mpr (h i hi))

/-- The check of a program finds nothing exactly when the program is well formed. -/
theorem Program.invalid?_eq_none_iff {p : Program} {natives : Dict Nat} :
    p.invalid? natives = none ↔ p.WellFormed natives := by
  have hfindings : p.functions.values.flatMap (Function.findings p natives) = [] ↔
      ∀ name f, p.functions.get? name = some f → ∀ i ∈ f.code, i.WellFormed p natives f.length := by
    simp only [List.flatMap_eq_nil_iff, Dict.mem_values_iff, Function.findings_eq_nil_iff]
    exact ⟨fun h name f hf => h f ⟨name, hf⟩, fun h f ⟨name, hf⟩ => h name f hf⟩
  unfold Program.invalid?
  constructor
  · intro h
    split at h
    · cases h
    · rename_i main hmain
      split at h
      · rename_i hnil
        exact ⟨⟨main, hmain⟩, hfindings.mp hnil⟩
      · cases h
  · rintro ⟨⟨main, hmain⟩, hcode⟩
    rw [hmain, hfindings.mpr hcode]

end LineScript.Code
