/-
# The arms of a conditional

A conditional is compiled arm by arm. Each arm ends in a jump past the whole
conditional, whose end is not known before all arms are there, so these jumps are
left open and resolved together. This module takes the code of a conditional apart
into the code of its arms with an exit behind each, says where the exits are, and
shows that resolving them all gives the code with every exit in place.
-/

import LineScript.Proofs.Emission

namespace LineScript.Tree

open LineScript.Code

/-! ## Arms in a row -/

/-- The further arms of a conditional with a condition each, and what comes after
them. -/
def Arms.ofList : List (Expr × Block) → Arms → Arms
  | [], last => last
  | (condition, body) :: rest, last => .elif condition body (Arms.ofList rest last)

/-- The code of each arm: its condition, the jump past it, and its statements. -/
def armCodes : Nat → List (Expr × Block) → List (List Instruction)
  | _, [] => []
  | a, (condition, body) :: rest =>
    let inner := a + condition.size + 1
    let next := inner + body.size + 1
    (condition.code a ++ jumpTo .branch next :: body.code inner) :: armCodes next rest

/-- Pieces of code, each with an exit behind it. -/
def withExits (target : Int) : List (List Instruction) → List Instruction
  | [] => []
  | piece :: rest => piece ++ jumpTo .jump target :: withExits target rest

/-- The addresses of the exits. -/
def exits : Nat → List (List Instruction) → List Nat
  | _, [] => []
  | a, piece :: rest => (a + piece.length) :: exits (a + piece.length + 1) rest

theorem Arms.words_ofList (arms : List (Expr × Block)) (last : Arms) :
    (Arms.ofList arms last).words = (Arms.ofList arms .done).words ++ last.words := by
  induction arms with
  | nil => rfl
  | cons arm rest ih => simp [Arms.ofList, Arms.words, ih]

theorem Arms.after_ofList (arms : List (Expr × Block)) (last : Arms) (s : Scope) :
    (Arms.ofList arms last).after s = last.after ((Arms.ofList arms .done).after s) := by
  induction arms generalizing s with
  | nil => rfl
  | cons arm rest ih => exact ih _

theorem Arms.definitions_ofList (arms : List (Expr × Block)) (last : Arms) (s : Scope) :
    (Arms.ofList arms last).definitions s =
      (Arms.ofList arms .done).definitions s ++
        last.definitions ((Arms.ofList arms .done).after s) := by
  induction arms generalizing s with
  | nil => rfl
  | cons arm rest ih => simp [Arms.ofList, Arms.definitions, Arms.after, ih]

theorem Arms.scoped_ofList {arms : List (Expr × Block)} {last : Arms} {s : Scope}
    (harms : (Arms.ofList arms .done).Scoped s)
    (hlast : last.Scoped ((Arms.ofList arms .done).after s)) :
    (Arms.ofList arms last).Scoped s := by
  induction arms generalizing s with
  | nil => exact hlast
  | cons arm rest ih => exact ⟨harms.1, harms.2.1, ih harms.2.2 hlast⟩

/-- The code of arms in a row is that of each with the exits between. -/
theorem Arms.code_ofList (arms : List (Expr × Block)) (last : Arms) (a : Nat) (ending : Int) :
    (Arms.ofList arms last).code a ending =
      withExits ending (armCodes a arms) ++
        last.code (a + (withExits ending (armCodes a arms)).length) ending := by
  induction arms generalizing a with
  | nil => rfl
  | cons arm rest ih =>
      obtain ⟨condition, body⟩ := arm
      simp only [Arms.ofList, Arms.code, armCodes, withExits, ih]
      have haddress : ∀ n, a + condition.size + 1 + body.size + 1 + n =
          a + (condition.size + (body.size + (n + 1) + 1)) := by omega
      simp [haddress]

theorem length_withExits (target target' : Int) (pieces : List (List Instruction)) :
    (withExits target pieces).length = (withExits target' pieces).length := by
  induction pieces with
  | nil => rfl
  | cons piece rest ih => simp [withExits, ih]

end LineScript.Tree

namespace LineScript.Compile.Draft

open LineScript.Code LineScript.Tree

/-- Resolving all exits puts the target into each of them. -/
theorem patchAllHere_exits {d : Draft} {before after : List Instruction}
    {pieces : List (List Instruction)}
    (hcode : d.code = before ++ withExits unresolvedTarget pieces ++ after) :
    ∃ d', d.patchAllHere (exits before.length pieces) = .ok d' ∧ d'.rest = d.rest ∧
      d'.consumed? = d.consumed? ∧ d'.code = before ++ withExits d.address pieces ++ after ∧
      d'.frame = d.frame := by
  induction pieces generalizing d before with
  | nil => exact ⟨d, rfl, rfl, rfl, hcode, rfl⟩
  | cons piece rest ih =>
      have hplaceholder : d.code = (before ++ piece) ++
          jumpTo .jump unresolvedTarget :: (withExits unresolvedTarget rest ++ after) := by
        rw [hcode]
        simp [withExits]
      obtain ⟨d₁, hpatch, hrest₁, hline₁, hcode₁, hframe₁⟩ :=
        patchHere_of_code_eq (by decide) hplaceholder
      have haddress : d₁.address = d.address := by
        rw [← length_code, ← length_code, hcode₁, hplaceholder]
        simp
      -- What is resolved joins what stands before the exits still open.
      obtain ⟨d₂, hall, hrest₂, hline₂, hcode₂, hframe₂⟩ :=
        @ih d₁ (before ++ piece ++ [jumpTo .jump d.address]) (by rw [hcode₁]; simp)
      refine ⟨d₂, ?_, hrest₂.trans hrest₁, hline₂.trans hline₁, ?_, hframe₂.trans hframe₁⟩
      · rw [exits, patchAllHere, ← List.length_append, hpatch]
        simpa [Nat.add_assoc] using hall
      · rw [hcode₂, haddress]
        simp [withExits]

end LineScript.Compile.Draft
