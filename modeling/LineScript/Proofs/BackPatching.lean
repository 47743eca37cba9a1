/-
# Resolving placeholders

A function under construction is written front to back, and what has been written stays. Only the
target of a jump may still be open, and it is set at most once. So an address that was answered is good
for the rest of the construction, and the placeholders that are left are the open jumps that were
written and not resolved.

Operations come in any order, sensible or not: a patch may name an address that is not there, an
instruction that is no jump, a jump that has its target already, or a target beyond the end. Such a
patch is refused and changes nothing. One lemma says what an operation can do; everything about
sequences of operations is an induction that uses this lemma alone.
-/

import Mathlib
import LineScript.Code.Function

namespace LineScript.Code.Function

/-! ## Operations -/

/-- An operation on a function under construction. -/
inductive Edit where
  | emit (i : Instruction)
  | emitJump (op : Opcode) (line : Int)
  | emitJumpTo (op : Opcode) (target line : Int)
  | patch (address target : Int)
  | patchHere (address : Int)
  | declare (name : String)

/-- What an operation answers: the address of the instruction it has written, the address and the target
of the placeholder it has resolved, or why it was refused. -/
inductive Effect where
  | wrote (address : Nat)
  | resolved (address : Nat) (target : Int)
  | refused (e : PatchError)
  | declared (name : String)
  deriving DecidableEq, Repr

/-- The placeholder that was resolved, and its target. -/
def Effect.resolution? : Effect → Option (Nat × Int)
  | resolved address target => some (address, target)
  | _ => none

/-- An instruction has been appended: its address is the last one. -/
def written (f : Function) : Effect × Function := (.wrote (f.length - 1), f)

/-- The outcome of a patch. A refused one leaves the function as it was. -/
def patched (f : Function) (address target : Int) : Except PatchError Function → Effect × Function
  | .ok g => (.resolved address.toNat target, g)
  | .error e => (.refused e, f)

namespace Edit

/-- The instruction that an operation writes. -/
def instruction? : Edit → Option Instruction
  | emit i => some i
  | emitJump op line => some { op := op, target := unresolvedTarget, line := line }
  | emitJumpTo op target line => some { op := op, target := target, line := line }
  | patch _ _ | patchHere _ | declare _ => none

/-- The address and the target that an operation asks to resolve. -/
def request? (f : Function) : Edit → Option (Int × Int)
  | patch address target => some (address, target)
  | patchHere address => some (address, f.length)
  | emit _ | emitJump _ _ | emitJumpTo _ _ _ | declare _ => none

/-- Carries out an operation. -/
def apply (f : Function) : Edit → Effect × Function
  | emit i => (f.emit i).written
  | emitJump op line => (f.emitJump op line).written
  | emitJumpTo op target line => (f.emitJumpTo op target line).written
  | patch address target => f.patched address target (f.patch address target)
  | patchHere address => f.patched address f.length (f.patchHere address)
  | declare name => (.declared name, f.declare name)

end Edit

/-- The function after a sequence of operations. -/
def after (f : Function) : List Edit → Function
  | [] => f
  | e :: rest => (e.apply f).2.after rest

/-- The answers to a sequence of operations. -/
def effects (f : Function) : List Edit → List Effect
  | [] => []
  | e :: rest => (e.apply f).1 :: (e.apply f).2.effects rest

/-- The placeholders that a sequence of operations resolves, with their targets. -/
def resolutions (f : Function) (edits : List Edit) : List (Nat × Int) :=
  (f.effects edits).filterMap Effect.resolution?

/-! ## Single operations -/

/-- At the address stands a jump whose target is open. -/
def Awaits (f : Function) (address : Int) : Prop :=
  0 ≤ address ∧ ∃ i, f.code[address.toNat]? = some i ∧ i.op.isJump = true ∧ i.target = unresolvedTarget

/-- The function with another target at an address. -/
def withTarget (f : Function) (address : Nat) (target : Int) : Function :=
  { f with code? := some (f.code.modify address (fun i => { i with target := target })) }

section

variable {f g : Function} {address target : Int}

theorem getElem?_withTarget (f : Function) (address : Nat) (target : Int) (n : Nat) :
    (f.withTarget address target).code[n]? =
      (f.code[n]?).map fun i => if address = n then { i with target := target } else i := by
  change (f.code.modify address (fun i => { i with target := target }))[n]? = _
  rw [Array.getElem?_modify]
  split
  · rfl
  · exact Option.map_id'.symm

theorem code_declare (f : Function) (name : String) : (f.declare name).code = f.code := by
  unfold declare
  split <;> rfl

/-- A patch succeeds exactly on a jump whose target is open, with a target within the code or just past
its end, and it sets that target. -/
theorem patch_eq_ok_iff :
    f.patch address target = .ok g ↔
      f.Awaits address ∧ 0 ≤ target ∧ target ≤ f.length ∧ g = f.withTarget address.toNat target := by
  unfold patch Awaits
  dsimp only
  by_cases haddress : address < 0
  · rw [if_pos haddress]
    exact ⟨nofun, fun h => absurd haddress (Int.not_lt.mpr h.1.1)⟩
  rw [if_neg haddress]
  cases hi : f.code[address.toNat]? with
  | none => exact ⟨nofun, fun ⟨⟨_, i, hi, _⟩, _⟩ => by cases hi⟩
  | some i =>
      dsimp only
      by_cases hjump : i.op.isJump = true
      swap
      · rw [if_pos (by simpa using hjump)]
        exact ⟨nofun, fun ⟨⟨_, _, rfl, h, _⟩, _⟩ => absurd h hjump⟩
      rw [if_neg (by simp [hjump])]
      by_cases hopen : i.target = unresolvedTarget
      swap
      · rw [if_pos hopen]
        exact ⟨nofun, fun ⟨⟨_, _, rfl, _, h⟩, _⟩ => absurd h hopen⟩
      rw [if_neg (not_not_intro hopen)]
      by_cases hrange : 0 ≤ target ∧ target ≤ f.length
      swap
      · rw [if_pos (by simp only [Bool.or_eq_true, decide_eq_true_eq]; omega)]
        exact ⟨nofun, fun h => absurd ⟨h.2.1, h.2.2.1⟩ hrange⟩
      rw [if_neg (by simp only [Bool.or_eq_true, decide_eq_true_eq]; omega)]
      constructor
      · rintro ⟨⟩
        exact ⟨⟨Int.not_lt.mp haddress, i, rfl, hjump, hopen⟩, hrange.1, hrange.2, rfl⟩
      · rintro ⟨-, -, -, rfl⟩
        rfl

/-- Everything that an operation can do. -/
theorem Edit.apply_cases (f : Function) (e : Edit) :
    (∃ i, e.instruction? = some i ∧ e.request? f = none ∧ e.apply f = (.wrote f.length, f.emit i)) ∨
    (∃ address target, e.instruction? = none ∧ e.request? f = some (address, target) ∧
      f.Awaits address ∧ 0 ≤ target ∧ target ≤ f.length ∧
      e.apply f = (.resolved address.toNat target, f.withTarget address.toNat target)) ∨
    (∃ address target cause, e.instruction? = none ∧ e.request? f = some (address, target) ∧
      ¬(f.Awaits address ∧ 0 ≤ target ∧ target ≤ f.length) ∧ e.apply f = (.refused cause, f)) ∨
    (∃ name, e.instruction? = none ∧ e.request? f = none ∧
      e.apply f = (.declared name, f.declare name)) := by
  have hwritten : ∀ i, (f.emit i).written = (.wrote f.length, f.emit i) := by
    intro i
    have hlength : (f.emit i).length = f.length + 1 := Array.size_push i
    unfold written
    rw [hlength, Nat.add_sub_cancel]
  have hpatched : ∀ address target : Int,
      (f.Awaits address ∧ 0 ≤ target ∧ target ≤ f.length ∧
        f.patched address target (f.patch address target) =
          (.resolved address.toNat target, f.withTarget address.toNat target)) ∨
      ∃ cause, ¬(f.Awaits address ∧ 0 ≤ target ∧ target ≤ f.length) ∧
        f.patched address target (f.patch address target) = (.refused cause, f) := by
    intro address target
    cases hpatch : f.patch address target with
    | ok g =>
        obtain ⟨hawaits, hleast, hmost, rfl⟩ := patch_eq_ok_iff.mp hpatch
        exact .inl ⟨hawaits, hleast, hmost, rfl⟩
    | error cause =>
        refine .inr ⟨cause, fun ⟨hawaits, hleast, hmost⟩ => ?_, rfl⟩
        rw [patch_eq_ok_iff.mpr ⟨hawaits, hleast, hmost, rfl⟩] at hpatch
        cases hpatch
  cases e with
  | emit i | emitJump op line | emitJumpTo op target line => exact .inl ⟨_, rfl, rfl, hwritten _⟩
  | patch address target =>
      rcases hpatched address target with ⟨hawaits, hleast, hmost, heq⟩ | ⟨cause, hnot, heq⟩
      · exact .inr (.inl ⟨address, target, rfl, rfl, hawaits, hleast, hmost, heq⟩)
      · exact .inr (.inr (.inl ⟨address, target, cause, rfl, rfl, hnot, heq⟩))
  | patchHere address =>
      rcases hpatched address f.length with ⟨hawaits, hleast, hmost, heq⟩ | ⟨cause, hnot, heq⟩
      · exact .inr (.inl ⟨address, f.length, rfl, rfl, hawaits, hleast, hmost, heq⟩)
      · exact .inr (.inr (.inl ⟨address, f.length, cause, rfl, rfl, hnot, heq⟩))
  | declare name => exact .inr (.inr (.inr ⟨name, rfl, rfl, rfl⟩))

end

/-! ## Sequences of operations -/

/-- An instruction whose target has been set since, if it has. -/
def settledBy (resolutions : List (Nat × Int)) (address : Nat) (i : Instruction) : Instruction :=
  { i with target := (resolutions.lookup address).getD i.target }

section

variable {f : Function} {e : Edit} {edits : List Edit} {n : Nat} {i : Instruction} {target : Int}

theorem resolutions_cons (f : Function) (e : Edit) (rest : List Edit) :
    f.resolutions (e :: rest) =
      (e.apply f).1.resolution?.toList ++ (e.apply f).2.resolutions rest := by
  unfold resolutions
  rw [effects, List.filterMap_cons]
  cases (e.apply f).1.resolution? <;> rfl

theorem after_append (f : Function) (edits rest : List Edit) :
    f.after (edits ++ rest) = (f.after edits).after rest := by
  induction edits generalizing f with
  | nil => rfl
  | cons e edits ih => exact ih _

/-- Only an open jump is resolved, or one that is written later. -/
theorem open_of_mem_resolutions (h : (n, target) ∈ f.resolutions edits) (hi : f.code[n]? = some i) :
    i.op.isJump = true ∧ i.target = unresolvedTarget := by
  induction edits generalizing f with
  | nil => cases h
  | cons e rest ih =>
      rw [resolutions_cons] at h
      rcases e.apply_cases f with ⟨j, -, -, heq⟩ | ⟨address, t, -, -, hawaits, -, -, heq⟩ |
        ⟨address, t, cause, -, -, -, heq⟩ | ⟨name, -, -, heq⟩
      all_goals rw [heq] at h
      · refine ih h ?_
        change (f.code.push j)[n]? = some i
        have hlt : n < f.code.size := (Array.getElem?_eq_some_iff.mp hi).1
        rw [Array.getElem?_push, if_neg (Nat.ne_of_lt hlt), hi]
      · obtain ⟨hleast, j, hj, hjump, hopen⟩ := hawaits
        by_cases hn : address.toNat = n
        · rw [hn, hi] at hj
          cases hj
          exact ⟨hjump, hopen⟩
        · rcases List.mem_cons.mp h with h | h
          · exact absurd (congrArg Prod.fst h).symm hn
          · refine ih h ?_
            rw [getElem?_withTarget, hi, Option.map_some, if_neg hn]
      · exact ih h hi
      · exact ih h (by rw [code_declare]; exact hi)

/-- The targets that are set lie in the code or just past its end, never before it. -/
theorem nonneg_of_mem_resolutions (h : (n, target) ∈ f.resolutions edits) : 0 ≤ target := by
  induction edits generalizing f with
  | nil => cases h
  | cons e rest ih =>
      rw [resolutions_cons] at h
      rcases e.apply_cases f with ⟨j, -, -, heq⟩ | ⟨address, t, -, -, -, hleast, -, heq⟩ |
        ⟨address, t, cause, -, -, -, heq⟩ | ⟨name, -, -, heq⟩
      all_goals rw [heq] at h
      · exact ih h
      · rcases List.mem_cons.mp h with h | h
        · cases h
          exact hleast
        · exact ih h
      · exact ih h
      · exact ih h

/-- A placeholder that has just been resolved is not resolved again. -/
theorem notMem_resolutions_withTarget {address : Nat} (hleast : 0 ≤ target)
    (hi : f.code[address]? = some i) (t : Int) :
    (address, t) ∉ (f.withTarget address target).resolutions edits := by
  intro hmem
  have hset : (f.withTarget address target).code[address]? = some { i with target := target } := by
    rw [getElem?_withTarget, hi, Option.map_some, if_pos rfl]
  have hopen : target = -1 := (open_of_mem_resolutions hmem hset).2
  omega

/-- No placeholder is resolved twice. -/
theorem nodup_resolutions (f : Function) (edits : List Edit) :
    ((f.resolutions edits).map Prod.fst).Nodup := by
  induction edits generalizing f with
  | nil => exact List.nodup_nil
  | cons e rest ih =>
      rw [resolutions_cons]
      rcases e.apply_cases f with ⟨j, -, -, heq⟩ | ⟨address, t, -, -, hawaits, hleast, -, heq⟩ |
        ⟨address, t, cause, -, -, -, heq⟩ | ⟨name, -, -, heq⟩
      all_goals rw [heq]
      · exact ih _
      · obtain ⟨-, j, hj, -⟩ := hawaits
        refine List.nodup_cons.mpr ⟨fun hmem => ?_, ih _⟩
        obtain ⟨⟨n, t'⟩, hmem, rfl⟩ := List.mem_map.mp hmem
        exact notMem_resolutions_withTarget hleast hj t' hmem
      · exact ih _
      · exact ih _

/-- Setting a target now or when the answers are read comes to the same. -/
theorem settledBy_withTarget {address : Nat} (hleast : 0 ≤ target) (hi : f.code[address]? = some i)
    {later : List Instruction} :
    ((f.withTarget address target).code.toList ++ later)[n]?.map
        (settledBy ((f.withTarget address target).resolutions edits) n) =
      (f.code.toList ++ later)[n]?.map
        (settledBy ((address, target) :: (f.withTarget address target).resolutions edits) n) := by
  have hsize : (f.withTarget address target).code.size = f.code.size := by
    change (f.code.modify address fun i => { i with target := target }).size = f.code.size
    exact Array.size_modify
  have hlist : ∀ g : Function, g.code.toList[n]? = g.code[n]? := fun _ => Array.getElem?_toList
  have hlt : address < f.code.size := (Array.getElem?_eq_some_iff.mp hi).1
  rw [List.getElem?_append, List.getElem?_append, Array.length_toList, Array.length_toList, hsize,
    hlist, hlist, getElem?_withTarget]
  by_cases hn : address = n
  · subst hn
    have hlater : ((f.withTarget address target).resolutions edits).lookup address = none := by
      rw [List.lookup_eq_none_iff]
      rintro ⟨m, t⟩ hmem
      refine bne_iff_ne.mpr ?_
      rintro rfl
      exact notMem_resolutions_withTarget hleast hi t hmem
    rw [if_pos hlt, if_pos hlt, hi]
    simp only [Option.map_some, if_true]
    unfold settledBy
    rw [hlater, List.lookup_cons_self]
    rfl
  · have hsettled : settledBy ((address, target) :: (f.withTarget address target).resolutions edits) n =
        settledBy ((f.withTarget address target).resolutions edits) n := by
      unfold settledBy
      rw [List.lookup_cons, (beq_eq_false_iff_ne).mpr (Ne.symm hn)]
    rw [hsettled]
    simp only [if_neg hn, Option.map_id_fun', id]

/-- The code after a sequence of operations: what was there before, then what was written, with the
targets of the placeholders that were resolved. -/
theorem getElem?_code_after (f : Function) (edits : List Edit) (n : Nat) :
    (f.after edits).code[n]? =
      (f.code.toList ++ edits.filterMap Edit.instruction?)[n]?.map
        (settledBy (f.resolutions edits) n) := by
  induction edits generalizing f with
  | nil =>
      have hsame : settledBy (f.resolutions []) n = id := rfl
      rw [hsame, Option.map_id, List.filterMap_nil, List.append_nil, Array.getElem?_toList]
      rfl
  | cons e rest ih =>
      rw [resolutions_cons]
      change ((e.apply f).2.after rest).code[n]? = _
      rw [ih]
      rcases e.apply_cases f with ⟨j, hwrites, -, heq⟩ |
        ⟨address, t, hnone, -, ⟨-, j, hj, -⟩, hleast, -, heq⟩ |
        ⟨address, t, cause, hnone, -, -, heq⟩ | ⟨name, hnone, -, heq⟩
      · rw [heq, List.filterMap_cons_some hwrites]
        change ((f.code.push j).toList ++ _)[n]?.map _ = _
        rw [Array.toList_push, List.append_assoc]
        rfl
      · rw [heq, List.filterMap_cons_none hnone]
        exact settledBy_withTarget hleast hj
      · rw [heq, List.filterMap_cons_none hnone]
        rfl
      · rw [heq, List.filterMap_cons_none hnone]
        dsimp only
        rw [code_declare]
        rfl

theorem toList_code_after (f : Function) (edits : List Edit) :
    (f.after edits).code.toList =
      (f.code.toList ++ edits.filterMap Edit.instruction?).mapIdx (settledBy (f.resolutions edits)) := by
  refine List.ext_getElem? fun n => ?_
  rw [List.getElem?_mapIdx, Array.getElem?_toList]
  exact getElem?_code_after f edits n

theorem after_take_succ (f : Function) {k : Nat} (he : edits[k]? = some e) :
    f.after (edits.take (k + 1)) = (e.apply (f.after (edits.take k))).2 := by
  rw [List.take_add_one, he, after_append]
  rfl

theorem getElem?_effects (f : Function) {k : Nat} (he : edits[k]? = some e) :
    (f.effects edits)[k]? = some (e.apply (f.after (edits.take k))).1 := by
  induction edits generalizing f k with
  | nil => cases he
  | cons d rest ih =>
      cases k with
      | zero =>
          cases he
          rfl
      | succ k => exact ih _ he

/-- What was resolved before a moment and what is resolved from then on. -/
theorem resolutions_append (f : Function) (edits rest : List Edit) :
    f.resolutions (edits ++ rest) = f.resolutions edits ++ (f.after edits).resolutions rest := by
  induction edits generalizing f with
  | nil => rfl
  | cons e edits ih =>
      rw [List.cons_append, resolutions_cons, resolutions_cons, ih, List.append_assoc]
      rfl

/-- What has been set stays set. -/
theorem settledBy_settledBy (before later : List (Nat × Int)) (n : Nat) (i : Instruction) :
    settledBy (before ++ later) n (settledBy before n i) = settledBy (before ++ later) n i := by
  unfold settledBy
  rw [List.lookup_append]
  cases before.lookup n <;> rfl

/-- An instruction stays at its address, whatever comes after it. -/
theorem getElem?_code_after_take {k : Nat} (hi : (f.after (edits.take k)).code[n]? = some i) :
    (f.after edits).code[n]? = some (settledBy (f.resolutions edits) n i) := by
  rw [getElem?_code_after] at hi
  obtain ⟨j, hj, rfl⟩ := Option.map_eq_some_iff.mp hi
  have hwritten : edits.filterMap Edit.instruction? =
      (edits.take k).filterMap Edit.instruction? ++ (edits.drop k).filterMap Edit.instruction? := by
    rw [← List.filterMap_append, List.take_append_drop]
  have hresolved : f.resolutions edits =
      f.resolutions (edits.take k) ++ (f.after (edits.take k)).resolutions (edits.drop k) := by
    rw [← resolutions_append, List.take_append_drop]
  have hlt := (List.getElem?_eq_some_iff.mp hj).1
  rw [getElem?_code_after, hwritten, ← List.append_assoc, List.getElem?_append_left hlt, hj, hresolved,
    settledBy_settledBy]
  rfl

end

/-! ## Placeholders -/

theorem isResolved_eq_false_iff (i : Instruction) :
    i.isResolved = false ↔ i.op.isJump = true ∧ i.target = unresolvedTarget := by
  simp [Instruction.isResolved]

theorem mem_unresolved_iff (f : Function) (n : Nat) :
    n ∈ f.unresolved ↔
      ∃ i, f.code[n]? = some i ∧ i.op.isJump = true ∧ i.target = unresolvedTarget := by
  unfold unresolved
  rw [List.mem_map]
  constructor
  · rintro ⟨⟨i, m⟩, hmem, rfl⟩
    obtain ⟨hmem, hopen⟩ := List.mem_filter.mp hmem
    have hi := List.mk_mem_zipIdx_iff_getElem?.mp hmem
    rw [Array.getElem?_toList] at hi
    exact ⟨i, hi, (isResolved_eq_false_iff i).mp (by simpa using hopen)⟩
  · rintro ⟨i, hi, hopen⟩
    refine ⟨(i, n), List.mem_filter.mpr ⟨?_, ?_⟩, rfl⟩
    · rw [List.mk_mem_zipIdx_iff_getElem?, Array.getElem?_toList, hi]
    · simpa using (isResolved_eq_false_iff i).mpr hopen

theorem pairwise_unresolved (f : Function) : f.unresolved.Pairwise (· < ·) := by
  have hsublist : f.unresolved.Sublist (List.range f.length) := by
    have hnumbers : f.code.toList.zipIdx.map (·.2) = List.range f.length := by
      rw [List.range_eq_range']
      exact List.zipIdx_map_snd 0 f.code.toList
    exact hnumbers ▸ List.filter_sublist.map _
  exact List.pairwise_lt_range.sublist hsublist

/-- The placeholders that are left: open jumps, from the start or written since, that have not been
resolved. -/
theorem mem_unresolved_after_iff (f : Function) (edits : List Edit) (n : Nat) :
    n ∈ (f.after edits).unresolved ↔
      (∃ i, (f.code.toList ++ edits.filterMap Edit.instruction?)[n]? = some i ∧
        i.op.isJump = true ∧ i.target = unresolvedTarget) ∧
      n ∉ (f.resolutions edits).map Prod.fst := by
  rw [mem_unresolved_iff, getElem?_code_after]
  cases hlookup : (f.resolutions edits).lookup n with
  | none =>
      have hnot : n ∉ (f.resolutions edits).map Prod.fst := by
        intro hmem
        obtain ⟨entry, hentry, rfl⟩ := List.mem_map.mp hmem
        exact bne_iff_ne.mp (List.lookup_eq_none_iff.mp hlookup entry hentry) rfl
      have hsame : settledBy (f.resolutions edits) n = id := by
        funext i
        unfold settledBy
        rw [hlookup]
        rfl
      rw [hsame, Option.map_id, and_iff_left hnot]
      rfl
  | some t =>
      have hmem : (n, t) ∈ f.resolutions edits := by
        obtain ⟨before, after, heq, -⟩ := List.lookup_eq_some_iff.mp hlookup
        rw [heq]
        exact List.mem_append_right _ List.mem_cons_self
      have hset : t ≠ unresolvedTarget := by
        have hleast := nonneg_of_mem_resolutions hmem
        rintro rfl
        exact absurd hleast (by decide)
      constructor
      · rintro ⟨i, hi, -, hopen⟩
        obtain ⟨j, -, rfl⟩ := Option.map_eq_some_iff.mp hi
        refine absurd ?_ hset
        unfold settledBy at hopen
        rwa [hlookup] at hopen
      · exact fun h => absurd (List.mem_map.mpr ⟨_, hmem, rfl⟩) h.2

/-! ## The whole construction -/

/-- How a function is built by a sequence of operations. Moment `k` is the one before the operation
with that number. -/
structure BuiltBy (f : Function) (edits : List Edit) : Prop where
  /-- The code is what was there and then what was written; only targets have been set. -/
  code : (f.after edits).code.toList =
    (f.code.toList ++ edits.filterMap Edit.instruction?).mapIdx (settledBy (f.resolutions edits))
  /-- Every instruction there is at a moment stays where it is, and what it is. -/
  stays : ∀ k n i, (f.after (edits.take k)).code[n]? = some i →
    (f.after edits).code[n]? = some (settledBy (f.resolutions edits) n i)
  /-- Writing answers the length at that moment, which stays the address of the instruction. -/
  written : ∀ k e i, edits[k]? = some e → e.instruction? = some i →
    (f.effects edits)[k]? = some (.wrote (f.after (edits.take k)).length) ∧
    (f.after edits).code[(f.after (edits.take k)).length]? =
      some (settledBy (f.resolutions edits) (f.after (edits.take k)).length i)
  /-- A patch of an open jump with a target in range succeeds and sets that target only. -/
  granted : ∀ k e (address target : Int), edits[k]? = some e →
    e.request? (f.after (edits.take k)) = some (address, target) →
    ((f.after (edits.take k)).Awaits address ∧ 0 ≤ target ∧ target ≤ (f.after (edits.take k)).length) →
    (f.effects edits)[k]? = some (.resolved address.toNat target) ∧
    f.after (edits.take (k + 1)) = (f.after (edits.take k)).withTarget address.toNat target
  /-- Every other patch is refused and leaves the function as it was. -/
  refused : ∀ k e (address target : Int), edits[k]? = some e →
    e.request? (f.after (edits.take k)) = some (address, target) →
    ¬((f.after (edits.take k)).Awaits address ∧ 0 ≤ target ∧
      target ≤ (f.after (edits.take k)).length) →
    (∃ cause, (f.effects edits)[k]? = some (.refused cause)) ∧
    f.after (edits.take (k + 1)) = f.after (edits.take k)
  /-- No address is resolved twice. -/
  once : ((f.resolutions edits).map Prod.fst).Nodup
  /-- The placeholders are listed in ascending order, -/
  ascending : ∀ k, (f.after (edits.take k)).unresolved.Pairwise (· < ·)
  /-- they are the jumps whose target is open, -/
  placeholders : ∀ k n, n ∈ (f.after (edits.take k)).unresolved ↔
    ∃ i, (f.after (edits.take k)).code[n]? = some i ∧ i.op.isJump = true ∧ i.target = unresolvedTarget
  /-- and those are the open jumps written up to then and not resolved up to then. -/
  pending : ∀ k n, n ∈ (f.after (edits.take k)).unresolved ↔
    (∃ i, (f.code.toList ++ (edits.take k).filterMap Edit.instruction?)[n]? = some i ∧
      i.op.isJump = true ∧ i.target = unresolvedTarget) ∧
    n ∉ (f.resolutions (edits.take k)).map Prod.fst

/-- Whatever the operations and their order, code is only appended and placeholders are resolved once. -/
theorem builtBy (f : Function) (edits : List Edit) : f.BuiltBy edits where
  code := toList_code_after f edits
  stays _ _ _ hi := getElem?_code_after_take hi
  written k e i he hi := by
    rcases e.apply_cases (f.after (edits.take k)) with ⟨j, hj, -, heq⟩ | ⟨_, _, hnone, -⟩ |
      ⟨_, _, _, hnone, -⟩ | ⟨_, hnone, -⟩
    · have hsame : j = i := Option.some.inj (hj.symm.trans hi)
      subst hsame
      have hwrote : (f.after (edits.take (k + 1))).code[(f.after (edits.take k)).length]? = some j := by
        rw [after_take_succ f he, heq]
        exact Array.getElem?_push_size
      exact ⟨by rw [getElem?_effects f he, heq], getElem?_code_after_take hwrote⟩
    all_goals
      rw [hnone] at hi
      cases hi
  granted k e address target he hrequest hopen := by
    rcases e.apply_cases (f.after (edits.take k)) with ⟨_, -, hnone, -⟩ |
      ⟨address', target', -, hsome, -, -, -, heq⟩ | ⟨address', target', _, -, hsome, hnot, -⟩ |
      ⟨_, -, hnone, -⟩
    · rw [hnone] at hrequest
      cases hrequest
    · cases hsome.symm.trans hrequest
      exact ⟨by rw [getElem?_effects f he, heq], by rw [after_take_succ f he, heq]⟩
    · cases hsome.symm.trans hrequest
      exact absurd hopen hnot
    · rw [hnone] at hrequest
      cases hrequest
  refused k e address target he hrequest hnot := by
    rcases e.apply_cases (f.after (edits.take k)) with ⟨_, -, hnone, -⟩ |
      ⟨address', target', -, hsome, hawaits, hleast, hmost, -⟩ |
      ⟨address', target', cause, -, hsome, -, heq⟩ | ⟨_, -, hnone, -⟩
    · rw [hnone] at hrequest
      cases hrequest
    · cases hsome.symm.trans hrequest
      exact absurd ⟨hawaits, hleast, hmost⟩ hnot
    · cases hsome.symm.trans hrequest
      exact ⟨⟨cause, by rw [getElem?_effects f he, heq]⟩, by rw [after_take_succ f he, heq]⟩
    · rw [hnone] at hrequest
      cases hrequest
  once := nodup_resolutions f edits
  ascending _ := pairwise_unresolved _
  placeholders _ n := mem_unresolved_iff _ n
  pending k n := mem_unresolved_after_iff f (edits.take k) n

/-- A branch that is written, resolved to the end and then patched again in vain. -/
example :
    effects (new "f" ["x"])
        [.emit {}, .emitJump .branch 1, .declare "y", .emit {}, .patch 0 1, .patch 7 0, .patch 1 9,
          .patchHere 1, .patch 1 0] =
      [.wrote 0, .wrote 1, .declared "y", .wrote 2, .refused ⟨"f", 0, .notJump .value⟩,
        .refused ⟨"f", 7, .noSuchAddress⟩, .refused ⟨"f", 1, .targetOutOfRange 9⟩, .resolved 1 3,
        .refused ⟨"f", 1, .alreadyPatched .branch⟩] := by
  rfl

end LineScript.Code.Function
