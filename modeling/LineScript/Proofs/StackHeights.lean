/-
# Stack heights

How many values of the running call lie on the stack is known for every address
before a program runs. The height after an instruction follows from the height before
it; a jump or a return ends a statement, so what stands behind it begins at zero.
Reading code front to back with this rule gives each address a height.

That the heights are right is a local condition: each instruction has the values it
takes, and where it may lead, the height is the one it leaves. The main statement of
this module is that the code of every well-scoped tree meets the condition, and that
the heights at all boundaries of statements are zero.
-/

import LineScript.Proofs.Scope

namespace LineScript.Code

/-! ## Heights -/

/-- The height behind an instruction, from the height before it. -/
def Instruction.heightAfter (arity : String → Option Nat) (i : Instruction) (height : Nat) : Nat :=
  match i.op with
  | .jump | .ret => 0
  | .call => height - (arity i.name).getD 0 + 1
  | op => height - op.pops.getD 0 + op.pushes

/-- The height at an address of code that begins at zero. -/
def heightAt (arity : String → Option Nat) (code : List Instruction) (address : Nat) : Nat :=
  (code.take address).foldl (fun height i => i.heightAfter arity height) 0

/-- How many values an instruction takes or looks at; nothing when it calls something
unknown. -/
def Instruction.needs (arity : String → Option Nat) (i : Instruction) : Option Nat :=
  match i.op with
  | .call => arity i.name
  | .skipAnd | .skipOr => some 1
  | op => op.pops

/-- The condition on the heights around one instruction: what it needs is there, and
wherever it may lead, the height is what it leaves. -/
def Instruction.Fits (arity : String → Option Nat) (length : Nat) (height : Nat → Nat)
    (address : Nat) (i : Instruction) : Prop :=
  match i.op with
  | .unassigned _ => False
  | .ret => 1 ≤ height address
  | .jump => ∃ target : Nat, i.target = target ∧ target ≤ length ∧ height target = height address
  | .branch => height address = height (address + 1) + 1 ∧
    ∃ target : Nat, i.target = target ∧ target ≤ length ∧ height address = height target + 1
  | .skipAnd | .skipOr => 1 ≤ height address ∧ height (address + 1) = height address ∧
    ∃ target : Nat, i.target = target ∧ target ≤ length ∧ height target = height address
  | .call => ∃ count, arity i.name = some count ∧ count ≤ height address ∧
    height (address + 1) + count = height address + 1
  | op => ∃ count, op.pops = some count ∧ count ≤ height address ∧
    height (address + 1) + count = height address + op.pushes

theorem heightAt_succ (arity : String → Option Nat) {code : List Instruction} {address : Nat}
    {i : Instruction} (h : code[address]? = some i) :
    heightAt arity code (address + 1) = i.heightAfter arity (heightAt arity code address) := by
  unfold heightAt
  rw [List.take_add_one, List.foldl_append, h]
  rfl

/-- An instruction that fits has what it needs. -/
theorem Instruction.Fits.needs_le {arity : String → Option Nat} {length address : Nat}
    {height : Nat → Nat} {i : Instruction} (h : i.Fits arity length height address) :
    ∃ count, i.needs arity = some count ∧ count ≤ height address := by
  obtain ⟨op, literal, name, target, line⟩ := i
  unfold Fits at h
  unfold needs
  cases op
  case call => exact ⟨h.choose, h.choose_spec.1, h.choose_spec.2.1⟩
  case ret => exact ⟨1, rfl, h⟩
  case jump => exact ⟨0, rfl, Nat.zero_le _⟩
  case branch => exact ⟨1, rfl, by have := h.1; omega⟩
  case skipAnd | skipOr => exact ⟨1, rfl, h.1⟩
  case unassigned => exact h.elim
  all_goals exact ⟨h.choose, h.choose_spec.1, h.choose_spec.2.1⟩

end LineScript.Code

namespace LineScript.Tree

open LineScript.Code

variable {arity : String → Option Nat} {length : Nat} {height : Nat → Nat}

/-! ## Pieces of code -/

/-- The heights follow the rule along a piece of code. -/
def Follows (arity : String → Option Nat) (height : Nat → Nat) (a : Nat)
    (code : List Instruction) : Prop :=
  ∀ (j : Nat) (i : Instruction), code[j]? = some i → height (a + j + 1) = i.heightAfter arity (height (a + j))

/-- All instructions of a piece of code fit. -/
def AllFit (arity : String → Option Nat) (length : Nat) (height : Nat → Nat) (a : Nat)
    (code : List Instruction) : Prop :=
  ∀ (j : Nat) (i : Instruction), code[j]? = some i → i.Fits arity length height (a + j)

theorem follows_cons {a : Nat} {i : Instruction} {code : List Instruction} :
    Follows arity height a (i :: code) ↔
      height (a + 1) = i.heightAfter arity (height a) ∧ Follows arity height (a + 1) code := by
  constructor
  · intro h
    refine ⟨h 0 i rfl, fun j i' hi' => ?_⟩
    have := h (j + 1) i' (by simpa using hi')
    simpa [Nat.add_assoc, Nat.add_comm 1] using this
  · rintro ⟨hfirst, hrest⟩ j i' hi'
    cases j with
    | zero =>
        cases hi'
        exact hfirst
    | succ j =>
        have := hrest j i' (by simpa using hi')
        simpa [Nat.add_assoc, Nat.add_comm 1] using this

theorem follows_append {a : Nat} {code code' : List Instruction} :
    Follows arity height a (code ++ code') ↔
      Follows arity height a code ∧ Follows arity height (a + code.length) code' := by
  induction code generalizing a with
  | nil => simp [Follows]
  | cons i code ih =>
      rw [List.cons_append, follows_cons, follows_cons, ih, and_assoc, List.length_cons]
      simp [Nat.add_assoc, Nat.add_comm 1]

/-- The first instruction of a piece of code, as a piece of its own. -/
theorem follows_single {a : Nat} {i : Instruction} {code : List Instruction}
    (h : Follows arity height a (i :: code)) :
    Follows arity height a [i] ∧ Follows arity height (a + 1) code :=
  ⟨follows_cons.mpr ⟨(follows_cons.mp h).1, fun _ _ h => nomatch h⟩, (follows_cons.mp h).2⟩

theorem allFit_nil {a : Nat} : AllFit arity length height a [] := fun _ _ h => nomatch h

theorem AllFit.cons {a : Nat} {i : Instruction} {code : List Instruction}
    (hi : i.Fits arity length height a) (h : AllFit arity length height (a + 1) code) :
    AllFit arity length height a (i :: code) := by
  intro j i' hi'
  cases j with
  | zero =>
      cases hi'
      exact hi
  | succ j =>
      have := h j i' (by simpa using hi')
      simpa [Nat.add_assoc, Nat.add_comm 1] using this

theorem AllFit.append {a : Nat} {code code' : List Instruction}
    (h : AllFit arity length height a code)
    (h' : AllFit arity length height (a + code.length) code') :
    AllFit arity length height a (code ++ code') := by
  intro j i hi
  by_cases hj : j < code.length
  · rw [List.getElem?_append_left hj] at hi
    exact h j i hi
  · rw [List.getElem?_append_right (by omega)] at hi
    have := h' (j - code.length) i hi
    rwa [show a + code.length + (j - code.length) = a + j by omega] at this

/-- The heights of code follow the rule. -/
theorem follows_heightAt (arity : String → Option Nat) (code : List Instruction) :
    Follows arity (heightAt arity code) 0 code := by
  intro j i hi
  rw [Nat.zero_add]
  exact heightAt_succ arity hi

/-- The operations that go on to the next instruction with a fixed effect. -/
def isOrdinary : Opcode → Bool
  | .jump | .ret | .call | .branch | .skipAnd | .skipOr | .unassigned _ => false
  | _ => true

/-- An ordinary instruction fits when its operands are there. -/
theorem fits_ordinary (length : Nat) {a count : Nat} {i : Instruction} (hop : isOrdinary i.op = true)
    (hpops : i.op.pops = some count)
    (hnext : height (a + 1) = i.heightAfter arity (height a)) (hcount : count ≤ height a) :
    height (a + 1) + count = height a + i.op.pushes ∧ i.Fits arity length height a := by
  have heffect : height (a + 1) + count = height a + i.op.pushes := by
    rw [hnext]
    unfold Instruction.heightAfter
    cases hi : i.op <;> rw [hi] at hop hpops <;> first
      | (cases hop; done)
      | (simp only [hpops, Option.getD_some]; omega)
  refine ⟨heffect, ?_⟩
  unfold Instruction.Fits
  cases hi : i.op <;> rw [hi] at hop hpops heffect <;> first
    | (cases hop; done)
    | exact ⟨count, hpops, hcount, heffect⟩

theorem opcode_effect (o : BinaryOp) :
    isOrdinary o.opcode = true ∧ o.opcode.pops = some 2 ∧ o.opcode.pushes = 1 := by
  cases o <;> exact ⟨rfl, rfl, rfl⟩

theorem height_skipCode {a target : Nat} {o : BinaryOp}
    (h : Follows arity height a (skipCode o target)) : height (a + skipSize o) = height a := by
  cases o
  case or | and => exact (follows_cons.mp h).1
  all_goals rfl

/-! ## Expressions -/

/-- What holds of a piece of code that leaves the given number of values. -/
structure Raises (arity : String → Option Nat) (length : Nat) (height : Nat → Nat) (a : Nat)
    (code : List Instruction) (count : Nat) : Prop where
  ending : height (a + code.length) = height a + count
  fits : AllFit arity length height a code

namespace Raises

variable {a count count' : Nat} {code code' : List Instruction} {i : Instruction}

theorem nil : Raises arity length height a [] 0 := ⟨rfl, allFit_nil⟩

theorem append {b : Nat} (h : Raises arity length height a code count)
    (h' : Raises arity length height b code' count') (hb : a + code.length = b) :
    Raises arity length height a (code ++ code') (count + count') := by
  subst hb
  refine ⟨?_, h.fits.append h'.fits⟩
  rw [List.length_append, ← Nat.add_assoc, h'.ending, h.ending, Nat.add_assoc]

/-- One ordinary instruction more. -/
theorem snoc (h : Raises arity length height a code count)
    (hfollows : Follows arity height (a + code.length) [i]) (hop : isOrdinary i.op = true)
    {pops : Nat} (hpops : i.op.pops = some pops) (hcount : pops ≤ height a + count)
    (hnet : pops ≤ count + i.op.pushes) :
    Raises arity length height a (code ++ [i]) (count + i.op.pushes - pops) := by
  have hnext := (follows_cons.mp hfollows).1
  have hfits := fits_ordinary length hop hpops hnext (by rw [h.ending]; omega)
  refine ⟨?_, h.fits.append (.cons hfits.2 allFit_nil)⟩
  rw [List.length_append, List.length_singleton, ← Nat.add_assoc]
  have heffect := hfits.1
  have hending := h.ending
  omega

end Raises

/-- A skip fits when the height where it leads is the one it finds. -/
theorem raises_skipCode (length : Nat) {a target : Nat} {o : BinaryOp}
    (h : Follows arity height a (skipCode o target)) (hvalue : 1 ≤ height a)
    (htarget : height target = height a) (hle : target ≤ length) :
    Raises arity length height a (skipCode o target) 0 := by
  have hnext := height_skipCode h
  cases o
  case or | and =>
    exact ⟨hnext, .cons ⟨hvalue, hnext, target, rfl, hle, htarget⟩ allFit_nil⟩
  all_goals exact .nil

mutual

/-- The code of an expression leaves one value, and all of it fits. -/
theorem Expr.raises {s : Scope} (hs : s.Within arity) : ∀ (e : Expr) (a : Nat), e.Scoped s →
    a + e.size ≤ length → Follows arity height a (e.code a) →
      Raises arity length height a (e.code a) 1
  | .null, a, _, _, h | .literal _, a, _, _, h | .name _, a, _, _, h =>
    Raises.nil.snoc h rfl rfl (Nat.zero_le _) (Nat.zero_le _)
  | .call function arguments, a, hscoped, hle, h => by
      rw [Expr.size] at hle
      obtain ⟨hargs, hcall⟩ := follows_append.mp h
      have harguments := arguments.raises hs a hscoped.2 (by omega) hargs
      have hcount := hs _ _ hscoped.1
      have hnext := (follows_cons.mp hcall).1
      have hending := harguments.ending
      rw [arguments.length_code] at hnext hending
      have hafter : height (a + arguments.size + 1) = height a + 1 := by
        rw [hnext]
        simp only [Instruction.heightAfter, named, hcount, Option.getD_some, hending]
        omega
      refine ⟨?_, harguments.fits.append (.cons ⟨arguments.count, hcount, ?_, ?_⟩ allFit_nil)⟩
      · rw [Expr.code, List.length_append, arguments.length_code]
        exact hafter
      · rw [arguments.length_code, hending]
        exact Nat.le_add_left _ _
      · rw [arguments.length_code, hending, hafter]
        omega
  | .list items, a, hscoped, hle, h => by
      rw [Expr.size] at hle
      obtain ⟨hlist, hrest⟩ := follows_single h
      have hfirst : Raises arity length height a [plain .list] 1 :=
        Raises.nil.snoc hlist rfl rfl (Nat.zero_le _) (Nat.zero_le _)
      have hheight : height (a + 1) = height a + 1 := hfirst.ending
      exact hfirst.append (items.raises_append hs (a + 1) hscoped (by omega) hrest (by omega)) rfl
  | .object members, a, hscoped, hle, h => by
      rw [Expr.size] at hle
      obtain ⟨hobject, hrest⟩ := follows_single h
      have hfirst : Raises arity length height a [plain .object] 1 :=
        Raises.nil.snoc hobject rfl rfl (Nat.zero_le _) (Nat.zero_le _)
      have hheight : height (a + 1) = height a + 1 := hfirst.ending
      exact hfirst.append (members.raises hs (a + 1) hscoped (by omega) hrest (by omega)) rfl
  | .index container position, a, hscoped, hle, h => by
      rw [Expr.size] at hle
      obtain ⟨h, hlast⟩ := follows_append.mp h
      obtain ⟨hc, hp⟩ := follows_append.mp h
      have hcontainer := container.raises hs a hscoped.1 (by omega) hc
      have hposition := position.raises hs (a + container.size) hscoped.2 (by omega)
        (by rwa [container.length_code] at hp)
      exact (hcontainer.append hposition (by rw [container.length_code])).snoc hlast rfl rfl
        (Nat.le_add_left _ _) (by decide)
  | .member owner name, a, hscoped, hle, h => by
      rw [Expr.size] at hle
      obtain ⟨howner, hlast⟩ := follows_append.mp h
      exact (owner.raises hs a hscoped (by omega) howner).snoc hlast rfl rfl
        (Nat.le_add_left _ _) (Nat.le_add_right _ _)
  | .unary o operand, a, hscoped, hle, h => by
      rw [Expr.size] at hle
      obtain ⟨hoperand, hlast⟩ := follows_append.mp h
      have hvalue := operand.raises hs a hscoped (by omega) hoperand
      cases o with
      | plus => exact hvalue.append .nil rfl
      | minus | not => exact hvalue.snoc hlast rfl rfl (Nat.le_add_left _ _) (by decide)
  | .binary o left right, a, hscoped, hle, h => by
      rw [Expr.size] at hle
      obtain ⟨h, hlast⟩ := follows_append.mp h
      obtain ⟨h, hr⟩ := follows_append.mp h
      obtain ⟨hl, hskip⟩ := follows_append.mp h
      have hleft := left.raises hs a hscoped.1 (by omega) hl
      have hmiddle : ∀ target : Int,
          a + (left.code a ++ skipCode o target).length = a + left.size + skipSize o := by
        intro target
        rw [List.length_append, left.length_code, length_skipCode, Nat.add_assoc]
      rw [hmiddle] at hr
      have hright := right.raises hs (a + left.size + skipSize o) hscoped.2 (by omega) hr
      obtain ⟨hop, hpops, hpushes⟩ := opcode_effect o
      -- The skip leads to the end, so the height there comes before the fit of the skip.
      have hbefore := hleft.ending
      have hskipped := height_skipCode hskip
      have hvalue := hright.ending
      rw [left.length_code] at hbefore hskipped
      rw [right.length_code] at hvalue
      have hend : ∀ target : Int,
          a + (left.code a ++ skipCode o target ++
            right.code (a + left.size + skipSize o)).length =
              a + left.size + skipSize o + right.size := by
        intro target
        rw [List.length_append, right.length_code, ← Nat.add_assoc, hmiddle]
      have hfits := fits_ordinary length (i := plain o.opcode) hop hpops
        (follows_cons.mp hlast).1 (by rw [hend]; omega)
      have hlastHeight := hfits.1
      rw [hend] at hlastHeight
      have hpushes' : (plain o.opcode).op.pushes = 1 := hpushes
      have hskipRaises := raises_skipCode length hskip
        (by rw [left.length_code]; omega)
        (by rw [left.length_code]; omega) (by omega)
      have hall := ((hleft.append hskipRaises rfl).append hright (hmiddle _)).snoc hlast hop hpops
        (by omega) (by omega)
      rwa [show 1 + 0 + 1 + (plain o.opcode).op.pushes - 2 = 1 by omega] at hall

/-- The code of arguments leaves a value for each. -/
theorem Exprs.raises {s : Scope} (hs : s.Within arity) : ∀ (es : Exprs) (a : Nat), es.Scoped s →
    a + es.size ≤ length → Follows arity height a (es.code a) →
      Raises arity length height a (es.code a) es.count
  | .nil, a, _, _, _ => .nil
  | .cons first rest, a, hscoped, hle, h => by
      rw [Exprs.size] at hle
      obtain ⟨hf, hr⟩ := follows_append.mp h
      have hfirst := first.raises hs a hscoped.1 (by omega) hf
      have hrest := rest.raises hs (a + first.size) hscoped.2 (by omega)
        (by rwa [first.length_code] at hr)
      rw [Exprs.count, Nat.add_comm]
      exact hfirst.append hrest (by rw [first.length_code])

/-- The code of list elements leaves nothing above the list. -/
theorem Exprs.raises_append {s : Scope} (hs : s.Within arity) : ∀ (es : Exprs) (a : Nat),
    es.Scoped s → a + (es.size + es.count) ≤ length → Follows arity height a (es.appendCode a) →
      1 ≤ height a → Raises arity length height a (es.appendCode a) 0
  | .nil, a, _, _, _, _ => .nil
  | .cons first rest, a, hscoped, hle, h, hlist => by
      rw [Exprs.size, Exprs.count] at hle
      obtain ⟨hf, happend⟩ := follows_append.mp h
      obtain ⟨hitem, hr⟩ := follows_single happend
      have hfirst : Raises arity length height a (first.code a ++ [plain .append]) 0 :=
        (first.raises hs a hscoped.1 (by omega) hf).snoc hitem rfl rfl (by omega) (by decide)
      have haddress : a + (first.code a ++ [plain .append]).length = a + first.size + 1 := by
        simp [Nat.add_assoc]
      have hrest := rest.raises_append hs (a + first.size + 1) hscoped.2 (by omega)
        (by rwa [first.length_code] at hr) (by rw [← haddress, hfirst.ending]; exact hlist)
      rw [Exprs.appendCode, List.append_cons]
      exact hfirst.append hrest haddress

/-- The code of members leaves nothing above the object. -/
theorem Members.raises {s : Scope} (hs : s.Within arity) : ∀ (ms : Members) (a : Nat),
    ms.Scoped s → a + ms.size ≤ length → Follows arity height a (ms.code a) →
      1 ≤ height a → Raises arity length height a (ms.code a) 0
  | .nil, a, _, _, _, _ => .nil
  | .cons name value rest, a, hscoped, hle, h, hobject => by
      rw [Members.size] at hle
      obtain ⟨hv, hset⟩ := follows_append.mp h
      obtain ⟨hitem, hr⟩ := follows_single hset
      have hfirst : Raises arity length height a (value.code a ++ [named .set name]) 0 :=
        (value.raises hs a hscoped.1 (by omega) hv).snoc hitem rfl rfl (by omega) (Nat.le_refl _)
      have haddress : a + (value.code a ++ [named .set name]).length = a + value.size + 1 := by
        simp [Nat.add_assoc]
      have hrest := rest.raises hs (a + value.size + 1) hscoped.2 (by omega)
        (by rwa [value.length_code] at hr) (by rw [← haddress, hfirst.ending]; exact hobject)
      rw [Members.code, List.append_cons]
      exact hfirst.append hrest haddress

end

/-! ## Statements -/

mutual

/-- The addresses in the code of a statement at which a statement begins or ends. -/
def Stmt.boundaries : Stmt → Nat → List Nat
  | .simple x, a => [a, a + x.size]
  | .when condition x, a =>
    let inner := a + condition.size + 1
    [a, inner, inner + x.size]
  | .choose condition body arms, a =>
    let inner := a + condition.size + 1
    let next := inner + body.size + 1
    a :: body.boundaries inner ++ arms.boundaries next ++ [next + arms.size]
  | .loop condition body, a =>
    let inner := a + condition.size + 1
    a :: body.boundaries inner ++ [inner + body.size + 1]
  | .function _ _ _, a => [a]

/-- The addresses in the code of a block at which a statement begins or ends. -/
def Block.boundaries : Block → Nat → List Nat
  | .nil, a => [a]
  | .cons first rest, a => first.boundaries a ++ rest.boundaries (a + first.size)

/-- The addresses in the code of further arms at which a statement begins or ends. -/
def Arms.boundaries : Arms → Nat → List Nat
  | .done, _ => []
  | .otherwise body, a => body.boundaries a
  | .elif condition body arms, a =>
    let inner := a + condition.size + 1
    let next := inner + body.size + 1
    body.boundaries inner ++ arms.boundaries next

end

/-- A piece of code that leaves nothing, with addresses where nothing is on the
stack. -/
structure Level (arity : String → Option Nat) (length : Nat) (height : Nat → Nat) (a : Nat)
    (code : List Instruction) (boundaries : List Nat) : Prop where
  ending : height (a + code.length) = 0
  fits : AllFit arity length height a code
  zero : ∀ b ∈ boundaries, height b = 0

/-- A return needs its value, and what stands behind it begins at zero. -/
theorem Raises.ret {a : Nat} {code : List Instruction} (h : Raises arity length height a code 1)
    (hfollows : Follows arity height (a + code.length) [plain .ret]) :
    height (a + (code ++ [plain .ret]).length) = 0 ∧
      AllFit arity length height a (code ++ [plain .ret]) := by
  refine ⟨?_, h.fits.append (.cons ?_ allFit_nil)⟩
  · rw [List.length_append, ← Nat.add_assoc]
    exact (follows_cons.mp hfollows).1
  · change 1 ≤ height (a + code.length)
    rw [h.ending]
    exact Nat.le_add_left _ _

/-- The code of a simple statement leaves nothing. -/
theorem Simple.ending_fits (length : Nat) {s : Scope} (hs : s.Within arity) (x : Simple) {a : Nat}
    (hscoped : x.Scoped s) (hle : a + x.size ≤ length) (h : Follows arity height a (x.code a))
    (ha : height a = 0) :
    height (a + (x.code a).length) = 0 ∧ AllFit arity length height a (x.code a) := by
  have hof : Raises arity length height a (x.code a) 0 →
      height (a + (x.code a).length) = 0 ∧ AllFit arity length height a (x.code a) :=
    fun hraises => ⟨by rw [hraises.ending, ha], hraises.fits⟩
  rw [← x.length_code a] at hle
  cases x with
  | assign name value =>
      obtain ⟨hvalue, hlast⟩ := follows_append.mp h
      have hsize : (Simple.code (.assign name value) a).length = value.size + 1 := by
        simp [Simple.code]
      exact hof ((value.raises hs a hscoped (by omega) hvalue).snoc hlast rfl rfl
        (Nat.le_add_left _ _) (Nat.le_refl _))
  | assignElement name position value =>
      obtain ⟨hfront, hlast⟩ := follows_append.mp h
      obtain ⟨hfront, hvalue⟩ := follows_append.mp hfront
      obtain ⟨hload, hposition⟩ := follows_single hfront
      have hsize : (Simple.code (.assignElement name position value) a).length =
          1 + position.size + value.size + 1 := by
        simp [Simple.code]
        omega
      have hfirst : Raises arity length height a [named .load name] 1 :=
        Raises.nil.snoc hload rfl rfl (Nat.zero_le _) (Nat.zero_le _)
      have haddress : a + (named .load name :: position.code (a + 1)).length =
          a + 1 + position.size := by
        simp
        omega
      have hpositionRaises : Raises arity length height (a + 1) (position.code (a + 1)) 1 :=
        position.raises hs (a + 1) hscoped.2.1 (by omega) hposition
      have hvalueRaises : Raises arity length height (a + 1 + position.size)
          (value.code (a + 1 + position.size)) 1 :=
        value.raises hs (a + 1 + position.size) hscoped.2.2 (by omega)
          (by rwa [haddress] at hvalue)
      exact hof (((hfirst.append hpositionRaises rfl).append hvalueRaises haddress).snoc hlast
        rfl rfl (Nat.le_add_left _ _) (by decide))
  | assignMember name member value =>
      obtain ⟨hfront, hlast⟩ := follows_append.mp h
      obtain ⟨hload, hvalue⟩ := follows_single hfront
      obtain ⟨hset, hpop⟩ := follows_single hlast
      have hsize : (Simple.code (.assignMember name member value) a).length =
          1 + value.size + 2 := by
        simp [Simple.code]
        omega
      have hfirst : Raises arity length height a [named .load name] 1 :=
        Raises.nil.snoc hload rfl rfl (Nat.zero_le _) (Nat.zero_le _)
      have hvalueRaises : Raises arity length height (a + 1) (value.code (a + 1)) 1 :=
        value.raises hs (a + 1) hscoped.2 (by omega) hvalue
      have hmember := (hfirst.append hvalueRaises rfl).snoc hset rfl rfl (Nat.le_add_left _ _)
        (Nat.le_add_right _ _)
      have hall : Raises arity length height a
          ((named .load name :: value.code (a + 1)) ++ [named .set member] ++ [plain .pop]) 0 :=
        hmember.snoc (by simpa [Nat.add_assoc] using hpop) rfl rfl (Nat.le_add_left _ _)
          (Nat.le_refl _)
      exact hof (by simpa [Simple.code] using hall)
  | discard value =>
      obtain ⟨hvalue, hlast⟩ := follows_append.mp h
      have hsize : (Simple.code (.discard value) a).length = value.size + 1 := by
        simp [Simple.code]
      exact hof ((value.raises hs a hscoped (by omega) hvalue).snoc hlast rfl rfl
        (Nat.le_add_left _ _) (Nat.le_refl _))
  | giveBack value? =>
      cases value? with
      | none =>
          obtain ⟨hvalue, hlast⟩ := follows_single h
          have hfirst : Raises arity length height a [constant .null] 1 :=
            Raises.nil.snoc hvalue rfl rfl (Nat.zero_le _) (Nat.zero_le _)
          exact hfirst.ret hlast
      | some value =>
          obtain ⟨hvalue, hlast⟩ := follows_append.mp h
          have hsize : (Simple.code (.giveBack (some value)) a).length = value.size + 1 := by
            simp [Simple.code]
          exact (value.raises hs a hscoped (by omega) hvalue).ret hlast

/-- A condition and the branch behind it leave nothing, and the branch fits when
nothing is on the stack where it leads. -/
theorem Expr.branch_fits (length : Nat) {s : Scope} (hs : s.Within arity) (condition : Expr) {a target : Nat}
    (hscoped : condition.Scoped s) (hle : a + condition.size + 1 ≤ length)
    (hcondition : Follows arity height a (condition.code a))
    (hbranch : height (a + condition.size + 1) =
      (jumpTo .branch target).heightAfter arity (height (a + condition.size)))
    (ha : height a = 0) :
    height (a + condition.size + 1) = 0 ∧ AllFit arity length height a (condition.code a) ∧
      (height target = 0 → target ≤ length →
        (jumpTo .branch target).Fits arity length height (a + condition.size)) := by
  have hraises : Raises arity length height a (condition.code a) 1 :=
    condition.raises hs a hscoped (by omega) hcondition
  have hending := hraises.ending
  rw [condition.length_code, ha] at hending
  have hzero : height (a + condition.size + 1) = 0 := by
    rw [hbranch, hending]
    rfl
  refine ⟨hzero, hraises.fits, fun htarget htargetLe => ⟨?_, target, rfl, htargetLe, ?_⟩⟩
  · rw [hzero, hending]
  · rw [htarget, hending]

/-- Where a condition with statements under it and a jump behind them ends. -/
theorem address_guarded (condition : Expr) (body : Block) (a next : Nat) (target : Int) :
    a + (condition.code a ++ jumpTo .branch next :: body.code (a + condition.size + 1) ++
      [jumpTo .jump target]).length = a + condition.size + 1 + body.size + 1 := by
  simp
  omega

/-- A condition with statements under it and a jump behind them: when there is nothing
on the stack where the jump leads, all of it fits. -/
theorem guarded_level (length : Nat) {s : Scope} (hs : s.Within arity) {condition : Expr}
    {body : Block} {a target : Nat} {boundaries : List Nat} (hscoped : condition.Scoped s)
    (hle : a + condition.size + 1 + body.size + 1 ≤ length)
    (hbody : Follows arity height (a + condition.size + 1) (body.code (a + condition.size + 1)) →
      height (a + condition.size + 1) = 0 →
        Level arity length height (a + condition.size + 1) (body.code (a + condition.size + 1))
          boundaries)
    (h : Follows arity height a (condition.code a ++
      jumpTo .branch (a + condition.size + 1 + body.size + 1 : Nat) ::
        body.code (a + condition.size + 1) ++ [jumpTo .jump target]))
    (ha : height a = 0) :
    height (a + condition.size + 1 + body.size + 1) = 0 ∧
      (height target = 0 → target ≤ length →
        AllFit arity length height a (condition.code a ++
          jumpTo .branch (a + condition.size + 1 + body.size + 1 : Nat) ::
            body.code (a + condition.size + 1) ++ [jumpTo .jump target])) ∧
      ∀ b ∈ boundaries, height b = 0 := by
  obtain ⟨hfront, hjump⟩ := follows_append.mp h
  obtain ⟨hcondition, hrest⟩ := follows_append.mp hfront
  rw [condition.length_code] at hrest
  obtain ⟨hbranch, hinside⟩ := follows_cons.mp hrest
  obtain ⟨hinner, hconditionFits, hbranchFits⟩ :=
    condition.branch_fits length hs hscoped (by omega) hcondition hbranch ha
  have hlevel := hbody hinside hinner
  have hexit := hlevel.ending
  rw [body.length_code] at hexit
  have haddress : a + (condition.code a ++
      jumpTo .branch (a + condition.size + 1 + body.size + 1 : Nat) ::
        body.code (a + condition.size + 1)).length = a + condition.size + 1 + body.size := by
    simp
    omega
  have hnext : height (a + condition.size + 1 + body.size + 1) = 0 := by
    rw [← haddress]
    exact (follows_cons.mp hjump).1
  refine ⟨hnext, fun htarget htargetLe => ?_, hlevel.zero⟩
  refine (hconditionFits.append ?_).append (.cons ?_ allFit_nil)
  · rw [condition.length_code]
    exact .cons (hbranchFits hnext (by omega)) hlevel.fits
  · rw [haddress]
    exact ⟨target, rfl, htargetLe, by rw [htarget, hexit]⟩

mutual

/-- The code of a statement leaves nothing, and there is nothing on the stack at the
boundaries of the statements in it. -/
theorem Stmt.level (length : Nat) : ∀ (x : Stmt) (s : Scope) (a : Nat), x.Scoped s →
    (x.after s).Within arity → a + x.size ≤ length → Follows arity height a (x.code a) →
      height a = 0 → Level arity length height a (x.code a) (x.boundaries a)
  | .simple x, s, a, hscoped, hs, hle, h, ha => by
      have hs : s.Within arity := Stmt.within_of_after (.simple x) s hscoped hs
      obtain ⟨hending, hfits⟩ := x.ending_fits length hs hscoped hle h ha
      refine ⟨hending, hfits, ?_⟩
      rw [x.length_code] at hending
      simp [Stmt.boundaries, ha, hending]
  | .when condition x, s, a, hscoped, hs, hle, h, ha => by
      have hs : s.Within arity := Stmt.within_of_after (.when condition x) s hscoped hs
      rw [Stmt.size] at hle
      obtain ⟨hcondition, hrest⟩ := follows_append.mp h
      rw [condition.length_code] at hrest
      obtain ⟨hbranch, hx⟩ := follows_cons.mp hrest
      obtain ⟨hinner, hconditionFits, hbranchFits⟩ :=
        condition.branch_fits length hs hscoped.1 (by omega) hcondition hbranch ha
      obtain ⟨hending, hxFits⟩ := x.ending_fits length hs hscoped.2 (by omega) hx hinner
      rw [x.length_code] at hending
      refine ⟨?_, hconditionFits.append ?_, ?_⟩
      · simpa [Stmt.code, Nat.add_assoc, Nat.add_comm 1] using hending
      · rw [condition.length_code]
        exact .cons (hbranchFits hending (by omega)) hxFits
      · simp [Stmt.boundaries, ha, hinner, hending]
  | .choose condition body arms, s, a, hscoped, hs, hle, h, ha => by
      have hsBody := arms.within_of_after _ hscoped.2.2 hs
      rw [Stmt.size] at hle
      rw [Stmt.code, List.append_cons] at h ⊢
      obtain ⟨hguarded, harms⟩ := follows_append.mp h
      obtain ⟨hnext, hfits, hzero⟩ := guarded_level length
        (body.within_of_after s hscoped.2.1 hsBody) hscoped.1 (by omega)
        (body.level length s _ hscoped.2.1 hsBody (by omega)) hguarded ha
      rw [address_guarded] at harms
      obtain ⟨hending, hlevel⟩ := arms.level length _ (a + condition.size + 1 + body.size + 1) _
        hscoped.2.2 hs (by omega) harms hnext
      have hlevel := hlevel hending (by omega)
      refine ⟨?_, (hfits hending (by omega)).append (by rw [address_guarded]; exact hlevel.fits), ?_⟩
      · rw [List.length_append, ← Nat.add_assoc, address_guarded, arms.length_code]
        exact hending
      · intro b hb
        simp only [Stmt.boundaries, List.cons_append, List.mem_cons, List.mem_append] at hb
        obtain rfl | (hb | hb) | rfl | hb := hb
        · exact ha
        · exact hzero b hb
        · exact hlevel.zero b hb
        · exact hending
        · cases hb
  | .loop condition body, s, a, hscoped, hs, hle, h, ha => by
      rw [Stmt.size] at hle
      obtain ⟨hnext, hfits, hzero⟩ := guarded_level length
        (body.within_of_after s hscoped.2 hs) hscoped.1 (by omega)
        (body.level length s _ hscoped.2 hs (by omega)) h ha
      refine ⟨?_, hfits ha (by omega), ?_⟩
      · rw [Stmt.length_code, Stmt.size, show a + (condition.size + 1 + body.size + 1) =
          a + condition.size + 1 + body.size + 1 by omega]
        exact hnext
      · intro b hb
        simp only [Stmt.boundaries, List.cons_append, List.mem_cons, List.mem_append] at hb
        obtain rfl | hb | rfl | hb := hb
        · exact ha
        · exact hzero b hb
        · exact hnext
        · cases hb
  | .function _ _ _, _, a, _, _, _, _, ha => by
      refine ⟨ha, allFit_nil, ?_⟩
      simp [Stmt.boundaries, ha]

/-- The code of a block leaves nothing. -/
theorem Block.level (length : Nat) : ∀ (b : Block) (s : Scope) (a : Nat), b.Scoped s →
    (b.after s).Within arity → a + b.size ≤ length → Follows arity height a (b.code a) →
      height a = 0 → Level arity length height a (b.code a) (b.boundaries a)
  | .nil, _, a, _, _, _, _, ha => by
      refine ⟨ha, allFit_nil, ?_⟩
      simp [Block.boundaries, ha]
  | .cons first rest, s, a, hscoped, hs, hle, h, ha => by
      rw [Block.size] at hle
      obtain ⟨hf, hr⟩ := follows_append.mp h
      rw [first.length_code] at hr
      have hfirst := first.level length s a hscoped.1 (rest.within_of_after _ hscoped.2 hs)
        (by omega) hf ha
      have hmiddle := hfirst.ending
      rw [first.length_code] at hmiddle
      have hrest := rest.level length _ (a + first.size) hscoped.2 hs (by omega) hr hmiddle
      refine ⟨?_, hfirst.fits.append (by rw [first.length_code]; exact hrest.fits), ?_⟩
      · have hending := hrest.ending
        rw [rest.length_code] at hending
        simpa [Block.code, Nat.add_assoc] using hending
      · intro b hb
        exact (List.mem_append.mp hb).elim (hfirst.zero b) (hrest.zero b)

/-- The code of further arms leaves nothing, if there is nothing on the stack where the
conditional ends. -/
theorem Arms.level (length : Nat) : ∀ (arms : Arms) (s : Scope) (a ending : Nat), arms.Scoped s →
    (arms.after s).Within arity → a + arms.size ≤ length →
    Follows arity height a (arms.code a ending) → height a = 0 →
      height (a + arms.size) = 0 ∧ (height ending = 0 → ending ≤ length →
        Level arity length height a (arms.code a ending) (arms.boundaries a))
  | .done, _, a, ending, _, _, _, _, ha =>
    ⟨ha, fun _ _ => ⟨ha, allFit_nil, nofun⟩⟩
  | .otherwise body, s, a, ending, hscoped, hs, hle, h, ha => by
      have hbody := body.level length s a hscoped hs hle h ha
      have hending := hbody.ending
      rw [body.length_code] at hending
      exact ⟨hending, fun _ _ => hbody⟩
  | .elif condition body arms, s, a, ending, hscoped, hs, hle, h, ha => by
      have hsBody := arms.within_of_after _ hscoped.2.2 hs
      rw [Arms.size] at hle
      rw [Arms.code, List.append_cons] at h ⊢
      obtain ⟨hguarded, harms⟩ := follows_append.mp h
      obtain ⟨hnext, hfits, hzero⟩ := guarded_level length
        (body.within_of_after s hscoped.2.1 hsBody) hscoped.1 (by omega)
        (body.level length s _ hscoped.2.1 hsBody (by omega)) hguarded ha
      rw [address_guarded] at harms
      obtain ⟨hlast, hlevel⟩ := arms.level length _ (a + condition.size + 1 + body.size + 1) ending
        hscoped.2.2 hs (by omega) harms hnext
      have hsize : a + (Arms.elif condition body arms).size =
          a + condition.size + 1 + body.size + 1 + arms.size := by
        rw [Arms.size]
        omega
      refine ⟨by rw [hsize]; exact hlast, fun hending hendingLe => ?_⟩
      have hlevel := hlevel hending hendingLe
      refine ⟨?_, (hfits hending hendingLe).append (by rw [address_guarded]; exact hlevel.fits), ?_⟩
      · rw [List.length_append, ← Nat.add_assoc, address_guarded, arms.length_code]
        exact hlast
      · intro b hb
        exact (List.mem_append.mp hb).elim (hzero b) (hlevel.zero b)

end

/-! ## Functions -/

/-- Code whose heights are right: every instruction fits, and nothing is on the stack at
its end and at the given boundaries. -/
structure Fitted (arity : String → Option Nat) (code : List Instruction)
    (boundaries : List Nat) : Prop where
  ending : heightAt arity code code.length = 0
  fits : ∀ (a : Nat) (i : Instruction), code[a]? = some i →
    i.Fits arity code.length (heightAt arity code) a
  zero : ∀ b ∈ boundaries, heightAt arity code b = 0

/-- The heights of the top level are right. -/
theorem Block.fitted {b : Block} {s : Scope} (hscoped : b.Scoped s)
    (hs : (b.after s).Within arity) : Fitted arity (b.code 0) (b.boundaries 0) := by
  have hlevel := b.level (b.code 0).length s 0 hscoped hs (by simp)
    (follows_heightAt arity (b.code 0)) rfl
  have hending := hlevel.ending
  rw [Nat.zero_add] at hending
  refine ⟨hending, fun a i hi => ?_, hlevel.zero⟩
  have hfits := hlevel.fits a i hi
  rwa [Nat.zero_add] at hfits

/-- The heights of a function are right. -/
theorem Definition.fitted {f : Definition} (h : f.Within arity) :
    Fitted arity (functionCode f.body) (f.body.boundaries 0) := by
  obtain ⟨-, s, hscoped, hs⟩ := h
  have hfollows := follows_heightAt arity (functionCode f.body)
  obtain ⟨hbody, hlast⟩ := follows_append.mp hfollows
  have hlevel := f.body.level (functionCode f.body).length s 0 hscoped hs
    (by simp [functionCode]) hbody rfl
  obtain ⟨hnull, hret⟩ := follows_single hlast
  have hvalue : Raises arity (functionCode f.body).length
      (heightAt arity (functionCode f.body)) (0 + (f.body.code 0).length) [constant .null] 1 :=
    Raises.nil.snoc hnull rfl rfl (Nat.zero_le _) (Nat.zero_le _)
  obtain ⟨hending, hfits⟩ := hvalue.ret hret
  refine ⟨?_, fun a i hi => ?_, hlevel.zero⟩
  · rw [Nat.zero_add, ← List.length_append] at hending
    exact hending
  · have hall := hlevel.fits.append hfits a i hi
    rwa [Nat.zero_add] at hall

end LineScript.Tree
