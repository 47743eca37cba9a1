/-
# Jumps go forward, except at the end of a loop

The compiler writes most jumps before it knows where they lead, and resolves them when it
comes to the place. Between the two there is always an instruction, so every such jump
goes forward: past an operand, past an arm of a conditional, out of a loop. The one jump
whose target is known beforehand is the one that closes a loop, and it goes back to the
beginning of the condition.

All this is one equation for each kind of tree. It lists the jumps of its code that do
not go forward, and says that they are those that close the loops of the tree, in the
order of the text. The loops of the functions of a program together are the loops of
its source, and a source has as many as it has words `while`.
-/

import LineScript.Proofs.Behaviour

namespace LineScript.Code

/-! ## Jumps that do not go forward -/

/-- The jumps in code from an address on that do not go forward, each with its own
address. -/
def backward : Nat → List Instruction → List (Nat × Instruction)
  | _, [] => []
  | a, i :: rest => (if i.op.isJump ∧ i.target ≤ a then [(a, i)] else []) ++ backward (a + 1) rest

/-- The jumps of a function that do not go forward. -/
def Function.backward (f : Function) : List (Nat × Instruction) := Code.backward 0 f.code.toList

theorem backward_append (code code' : List Instruction) (a : Nat) :
    backward a (code ++ code') = backward a code ++ backward (a + code.length) code' := by
  induction code generalizing a with
  | nil => rfl
  | cons i rest ih =>
      rw [List.cons_append, backward, ih, backward, List.append_assoc, List.length_cons]
      congr 3
      omega

theorem backward_cons_of_lt {i : Instruction} {a : Nat} (h : i.op.isJump = true → (a : Int) < i.target)
    (rest : List Instruction) : backward a (i :: rest) = backward (a + 1) rest := by
  rw [backward, if_neg, List.nil_append]
  rintro ⟨hjump, hle⟩
  exact absurd (h hjump) (by omega)

theorem backward_cons_of_le {i : Instruction} {a : Nat} (hjump : i.op.isJump = true)
    (hle : i.target ≤ a) (rest : List Instruction) :
    backward a (i :: rest) = (a, i) :: backward (a + 1) rest := by
  rw [backward, if_pos ⟨hjump, hle⟩]
  rfl

/-- Instructions that are no jumps. -/
theorem backward_eq_nil {code : List Instruction} (h : ∀ i ∈ code, i.op.isJump = false) (a : Nat) :
    backward a code = [] := by
  induction code generalizing a with
  | nil => rfl
  | cons i rest ih =>
      obtain ⟨hi, hrest⟩ := List.forall_mem_cons.mp h
      rw [backward_cons_of_lt (fun hjump => nomatch hi.symm.trans hjump), ih hrest]

theorem mem_backward {code : List Instruction} {a address : Nat} {i : Instruction}
    (hi : code[address]? = some i) (hjump : i.op.isJump = true) (hle : i.target ≤ a + address) :
    (a + address, i) ∈ backward a code := by
  induction code generalizing a address with
  | nil => cases hi
  | cons first rest ih =>
      rw [backward]
      cases address with
      | zero =>
          cases hi
          rw [if_pos ⟨hjump, by omega⟩]
          exact List.mem_append_left _ List.mem_cons_self
      | succ address =>
          have hmem := ih (a := a + 1) hi (by omega)
          rw [show a + 1 + address = a + (address + 1) by omega] at hmem
          exact List.mem_append_right _ hmem

/-- Lines play no part in where jumps go. -/
theorem backward_map_unplaced (code : List Instruction) (a : Nat) :
    backward a (code.map Instruction.unplaced) =
      (backward a code).map fun e => (e.1, e.2.unplaced) := by
  induction code generalizing a with
  | nil => rfl
  | cons i rest ih =>
      rw [List.map_cons, backward, backward, ih, List.map_append, Instruction.unplaced_op,
        Instruction.unplaced_target]
      congr 1
      split
      · rfl
      · rfl

end LineScript.Code

namespace LineScript.Tree

open LineScript.Code LineScript.Machine

/-! ## Code that goes forward -/

/-- All jumps in code from an address on go forward. -/
def Forward (a : Nat) (code : List Instruction) : Prop := backward a code = []

theorem Forward.append {code code' : List Instruction} {a b : Nat} (h : Forward a code)
    (h' : Forward b code') (hb : b = a + code.length) : Forward a (code ++ code') := by
  subst hb
  unfold Forward at h h' ⊢
  rw [backward_append, h, h', List.append_nil]

theorem Forward.cons {i : Instruction} {code : List Instruction} {a : Nat}
    (hi : i.op.isJump = false) (h : Forward (a + 1) code) : Forward a (i :: code) := by
  unfold Forward at h ⊢
  rw [backward_cons_of_lt (fun hjump => nomatch hi.symm.trans hjump), h]

theorem forward_nil (a : Nat) : Forward a [] := rfl

theorem Forward.single {i : Instruction} (hi : i.op.isJump = false) (a : Nat) : Forward a [i] :=
  .cons hi (forward_nil _)

theorem forward_jumpTo {op : Opcode} {a target : Nat} (h : a < target) :
    Forward a [jumpTo op target] := by
  unfold Forward
  rw [backward_cons_of_lt fun _ => Int.ofNat_lt.mpr h]
  rfl

theorem forward_skipCode (o : BinaryOp) {a target : Nat} (h : a < target) :
    Forward a (skipCode o target) := by
  unfold skipCode
  split
  · exact forward_jumpTo h
  · exact forward_nil a

theorem isJump_plain_opcode (o : BinaryOp) : (plain o.opcode).op.isJump = false := by
  cases o <;> rfl

theorem forward_unaryCode (o : UnaryOp) (a : Nat) : Forward a (unaryCode o) := by
  cases o with
  | plus => exact forward_nil a
  | minus | not => exact .single rfl a

mutual

theorem Expr.forward_code : ∀ (e : Expr) (a : Nat), Forward a (e.code a)
  | .null, a | .literal _, a | .name _, a => .single rfl a
  | .call _ arguments, a => (arguments.forward_code a).append (.single rfl _) rfl
  | .list items, a => .cons rfl (items.forward_appendCode (a + 1))
  | .object members, a => .cons rfl (members.forward_code (a + 1))
  | .index container position, a => by
      have hoperands := (container.forward_code a).append (position.forward_code _)
        (congrArg (a + ·) (container.length_code a).symm)
      exact hoperands.append (.single rfl _) rfl
  | .member object _, a => (object.forward_code a).append (.single rfl _) rfl
  | .unary o operand, a => (operand.forward_code a).append (forward_unaryCode o _) rfl
  | .binary o left right, a => by
      -- The skip goes past the operator behind the right operand.
      have hskip : Forward (a + left.size)
          (skipCode o (a + left.size + skipSize o + right.size + 1 : Nat)) :=
        forward_skipCode o (by omega)
      have hleft := (left.forward_code a).append hskip (by simp)
      have hright := hleft.append (right.forward_code (a + left.size + skipSize o))
        (by simp [Nat.add_assoc])
      exact hright.append (.single (isJump_plain_opcode o) _) rfl

theorem Exprs.forward_code : ∀ (es : Exprs) (a : Nat), Forward a (es.code a)
  | .nil, a => forward_nil a
  | .cons first rest, a =>
      (first.forward_code a).append (rest.forward_code _)
        (congrArg (a + ·) (first.length_code a).symm)

theorem Exprs.forward_appendCode : ∀ (es : Exprs) (a : Nat), Forward a (es.appendCode a)
  | .nil, a => forward_nil a
  | .cons first rest, a =>
      (first.forward_code a).append (.cons rfl (rest.forward_appendCode _))
        (congrArg (a + ·) (first.length_code a).symm)

theorem Members.forward_code : ∀ (ms : Members) (a : Nat), Forward a (ms.code a)
  | .nil, a => forward_nil a
  | .cons _ value rest, a =>
      (value.forward_code a).append (.cons rfl (rest.forward_code _))
        (congrArg (a + ·) (value.length_code a).symm)

end

theorem Simple.forward_code : ∀ (x : Simple) (a : Nat), Forward a (x.code a)
  | .assign _ value, a => (value.forward_code a).append (.single rfl _) rfl
  | .assignElement name position value, a => by
      have hposition : Forward a (named .load name :: position.code (a + 1)) :=
        .cons rfl (position.forward_code (a + 1))
      have hoperands := hposition.append (value.forward_code (a + 1 + position.size))
        (by simp; omega)
      exact hoperands.append (.single rfl _) rfl
  | .assignMember _ _ value, a =>
      .append (.cons rfl (value.forward_code (a + 1))) (.cons rfl (.single rfl _)) rfl
  | .discard value, a => (value.forward_code a).append (.single rfl _) rfl
  | .giveBack none, a => .cons rfl (.single rfl _)
  | .giveBack (some value), a => (value.forward_code a).append (.single rfl _) rfl

/-! ## Loops -/

/-- A loop of a function: its condition, its statements, and the address at which the code of
the condition begins. -/
structure Loop where
  condition : Expr
  body : Block
  start : Nat

namespace Loop

/-- The code of a loop. -/
def code (l : Loop) : List Instruction := (Stmt.loop l.condition l.body).code l.start

/-- The address of the last instruction of a loop. -/
def closing (l : Loop) : Nat := l.start + l.condition.size + 1 + l.body.size

/-- The jump that closes a loop, at its address. -/
def jump (l : Loop) : Nat × Instruction := (l.closing, jumpTo .jump l.start)

end Loop

mutual

/-- The loops in the code of a statement, in the order in which they are closed. -/
def Stmt.loops : Stmt → Nat → List Loop
  | .simple _, _ | .when _ _, _ | .function _ _ _, _ => []
  | .choose condition body arms, a =>
    let inner := a + condition.size + 1
    body.loops inner ++ arms.loops (inner + body.size + 1)
  | .loop condition body, a => body.loops (a + condition.size + 1) ++ [⟨condition, body, a⟩]

/-- The loops in the code of statements in a row. -/
def Block.loops : Block → Nat → List Loop
  | .nil, _ => []
  | .cons first rest, a => first.loops a ++ rest.loops (a + first.size)

/-- The loops in the code of the further arms of a conditional. -/
def Arms.loops : Arms → Nat → List Loop
  | .done, _ => []
  | .otherwise body, a => body.loops a
  | .elif condition body arms, a =>
    let inner := a + condition.size + 1
    body.loops inner ++ arms.loops (inner + body.size + 1)

end

/-- The condition that stands before statements, with the jump past them. -/
theorem backward_guarded (condition : Expr) {a target : Nat} (h : a + condition.size < target)
    (code : List Instruction) :
    backward a (condition.code a ++ jumpTo .branch target :: code) =
      backward (a + condition.size + 1) code := by
  have hcondition : backward a (condition.code a) = [] := condition.forward_code a
  rw [backward_append, hcondition, condition.length_code,
    backward_cons_of_lt fun _ => Int.ofNat_lt.mpr h, List.nil_append]

mutual

theorem Stmt.backward_code : ∀ (x : Stmt) (a : Nat),
    backward a (x.code a) = (x.loops a).map Loop.jump
  | .simple x, a => x.forward_code a
  | .when condition x, a => by
      have hbody : backward (a + condition.size + 1) (x.code (a + condition.size + 1)) = [] :=
        x.forward_code _
      rw [Stmt.code, Stmt.loops, backward_guarded condition (by omega), hbody, List.map_nil]
  | .choose condition body arms, a => by
      rw [Stmt.code, Stmt.loops, List.append_assoc, List.cons_append,
        backward_guarded condition (by omega), backward_append, body.backward_code,
        body.length_code, backward_cons_of_lt fun _ => Int.ofNat_lt.mpr (by omega),
        arms.backward_code _ _ (Nat.le_refl _), List.map_append]
  | .loop condition body, a => by
      rw [Stmt.code, Stmt.loops, List.append_assoc, List.cons_append,
        backward_guarded condition (by omega), backward_append, body.backward_code,
        body.length_code, backward_cons_of_le rfl (Int.ofNat_le.mpr (by omega)), List.map_append]
      rfl
  | .function _ _ _, _ => rfl

theorem Block.backward_code : ∀ (b : Block) (a : Nat),
    backward a (b.code a) = (b.loops a).map Loop.jump
  | .nil, _ => rfl
  | .cons first rest, a => by
      rw [Block.code, Block.loops, backward_append, first.backward_code, first.length_code,
        rest.backward_code, List.map_append]

/-- The arms of a conditional leave it for what comes after them. -/
theorem Arms.backward_code : ∀ (arms : Arms) (a ending : Nat), a + arms.size ≤ ending →
    backward a (arms.code a ending) = (arms.loops a).map Loop.jump
  | .done, _, _, _ => rfl
  | .otherwise body, a, _, _ => body.backward_code a
  | .elif condition body arms, a, ending, h => by
      rw [Arms.size] at h
      rw [Arms.code, Arms.loops, List.append_assoc, List.cons_append,
        backward_guarded condition (by omega), backward_append, body.backward_code,
        body.length_code, backward_cons_of_lt fun _ => Int.ofNat_lt.mpr (by omega),
        arms.backward_code _ _ (by omega), List.map_append]

end

mutual

/-- The loops of a statement stand where they say. -/
theorem Stmt.placed_loops : ∀ (x : Stmt) {a : Nat} {code : List Instruction},
    Placed code a (x.code a) → ∀ l ∈ x.loops a, Placed code l.start l.code
  | .simple _, _, _, _, _, hl | .when _ _, _, _, _, _, hl | .function _ _ _, _, _, _, _, hl =>
      nomatch hl
  | .choose condition body arms, a, code, h, l, hl => by
      have hguarded := (h.left.right (congrArg (a + ·) (condition.length_code a).symm)).tail
      have harms := (h.right (b := a + condition.size + 1 + body.size) (by simp; omega)).tail
      obtain hl | hl := List.mem_append.mp hl
      · exact body.placed_loops hguarded l hl
      · exact arms.placed_loops harms l hl
  | .loop condition body, a, code, h, l, hl => by
      have hguarded := (h.left.right (congrArg (a + ·) (condition.length_code a).symm)).tail
      obtain hl | hl := List.mem_append.mp hl
      · exact body.placed_loops hguarded l hl
      · cases List.mem_singleton.mp hl
        exact h

theorem Block.placed_loops : ∀ (b : Block) {a : Nat} {code : List Instruction},
    Placed code a (b.code a) → ∀ l ∈ b.loops a, Placed code l.start l.code
  | .nil, _, _, _, _, hl => nomatch hl
  | .cons first rest, a, code, h, l, hl => by
      have hrest := h.right (congrArg (a + ·) (first.length_code a).symm)
      obtain hl | hl := List.mem_append.mp hl
      · exact first.placed_loops h.left l hl
      · exact rest.placed_loops hrest l hl

theorem Arms.placed_loops : ∀ (arms : Arms) {a : Nat} {ending : Int} {code : List Instruction},
    Placed code a (arms.code a ending) → ∀ l ∈ arms.loops a, Placed code l.start l.code
  | .done, _, _, _, _, _, hl => nomatch hl
  | .otherwise body, _, _, _, h, l, hl => body.placed_loops h l hl
  | .elif condition body arms, a, ending, code, h, l, hl => by
      have hguarded := (h.left.right (congrArg (a + ·) (condition.length_code a).symm)).tail
      have harms := (h.right (b := a + condition.size + 1 + body.size) (by simp; omega)).tail
      obtain hl | hl := List.mem_append.mp hl
      · exact body.placed_loops hguarded l hl
      · exact arms.placed_loops harms l hl

end

mutual

/-- How many loops there are does not depend on where the code begins. -/
theorem Stmt.length_loops : ∀ (x : Stmt) (a b : Nat), (x.loops a).length = (x.loops b).length
  | .simple _, _, _ | .when _ _, _, _ | .function _ _ _, _, _ => rfl
  | .choose condition body arms, a, b => by
      rw [Stmt.loops, Stmt.loops, List.length_append, List.length_append,
        body.length_loops _ (b + condition.size + 1),
        arms.length_loops _ (b + condition.size + 1 + body.size + 1)]
  | .loop condition body, a, b => by
      rw [Stmt.loops, Stmt.loops, List.length_append, List.length_append,
        body.length_loops _ (b + condition.size + 1)]
      rfl

theorem Block.length_loops : ∀ (x : Block) (a b : Nat), (x.loops a).length = (x.loops b).length
  | .nil, _, _ => rfl
  | .cons first rest, a, b => by
      rw [Block.loops, Block.loops, List.length_append, List.length_append, first.length_loops a b,
        rest.length_loops _ (b + first.size)]

theorem Arms.length_loops : ∀ (x : Arms) (a b : Nat), (x.loops a).length = (x.loops b).length
  | .done, _, _ => rfl
  | .otherwise body, a, b => body.length_loops a b
  | .elif condition body arms, a, b => by
      rw [Arms.loops, Arms.loops, List.length_append, List.length_append,
        body.length_loops _ (b + condition.size + 1),
        arms.length_loops _ (b + condition.size + 1 + body.size + 1)]

end

/-! ## Loops and words -/

/-- Whether a word begins a loop. -/
def Word.isWhile : Word → Bool
  | .symbol .while_ => true
  | _ => false

theorem Word.isWhile_kind_unary (o : UnaryOp) : (Word.symbol o.kind).isWhile = false := by
  cases o <;> rfl

theorem Word.isWhile_kind_binary (o : BinaryOp) : (Word.symbol o.kind).isWhile = false := by
  cases o <;> rfl

theorem Word.isWhile_ofToken? (t : Token) :
    ((Word.ofToken? t).map Word.isWhile).getD false = decide (t.kind = .while_) := by
  unfold Word.ofToken?
  cases t.kind <;> rfl

/-- The words that begin loops are those of the tokens that do. -/
theorem Word.countP_ofTokens (tokens : List Token) :
    (Word.ofTokens tokens).countP Word.isWhile = tokens.countP fun t => t.kind = .while_ := by
  unfold Word.ofTokens
  rw [List.countP_filterMap]
  exact congrArg (tokens.countP ·) (funext Word.isWhile_ofToken?)

mutual

theorem Expr.countP_words : ∀ e : Expr, e.words.countP Word.isWhile = 0
  | .null | .literal _ | .name _ => rfl
  | .call _ arguments => by simp [Expr.words, Word.isWhile, arguments.countP_words]
  | .list items => by simp [Expr.words, Word.isWhile, items.countP_words]
  | .object members => by simp [Expr.words, Word.isWhile, members.countP_words]
  | .index container position => by
      simp [Expr.words, Word.isWhile, container.countP_words, position.countP_words]
  | .member object _ => by simp [Expr.words, Word.isWhile, object.countP_words]
  | .unary o operand => by
      simp [Expr.words, Word.isWhile_kind_unary, operand.countP_words]
  | .binary o left right => by
      simp [Expr.words, Word.isWhile_kind_binary, left.countP_words, right.countP_words]

theorem Exprs.countP_words : ∀ es : Exprs, es.words.countP Word.isWhile = 0
  | .nil => rfl
  | .cons first rest => by simp [Exprs.words, first.countP_words, rest.countP_words]

theorem Members.countP_words : ∀ ms : Members, ms.words.countP Word.isWhile = 0
  | .nil => rfl
  | .cons _ value rest => by
      simp [Members.words, Word.isWhile, value.countP_words, rest.countP_words]

end

theorem Simple.countP_words (x : Simple) : x.words.countP Word.isWhile = 0 := by
  cases x with
  | giveBack value? =>
      cases value? <;> simp [Simple.words, Word.isWhile, Expr.countP_words]
  | _ => simp [Simple.words, Word.isWhile, Expr.countP_words]

/-- How many loops there are in the bodies of functions. -/
def loopCount (definitions : List Definition) : Nat :=
  (definitions.map fun f => (f.body.loops 0).length).sum

theorem loopCount_append (definitions more : List Definition) :
    loopCount (definitions ++ more) = loopCount definitions + loopCount more := by
  unfold loopCount
  rw [List.map_append, List.sum_append]

mutual

/-- Statements have as many words that begin loops as they and their functions have loops. -/
theorem Stmt.countP_words : ∀ (x : Stmt) (s : Scope), x.Scoped s →
    x.words.countP Word.isWhile = (x.loops 0).length + loopCount (x.definitions s)
  | .simple x, _, _ => x.countP_words
  | .when condition x, _, _ => by
      simp [Stmt.words, Stmt.loops, Stmt.definitions, loopCount, Word.isWhile,
        condition.countP_words, x.countP_words]
  | .choose condition body arms, s, h => by
      simp only [Stmt.words, Stmt.loops, Stmt.definitions, List.countP_append, List.countP_cons,
        List.countP_nil, List.length_append, loopCount_append, Word.isWhile, Bool.false_eq_true,
        if_false, condition.countP_words, body.countP_words s h.2.1, arms.countP_words _ h.2.2,
        body.length_loops _ 0, arms.length_loops _ 0]
      omega
  | .loop condition body, s, h => by
      simp only [Stmt.words, Stmt.loops, Stmt.definitions, List.countP_append, List.countP_cons,
        List.countP_nil, List.length_append, List.length_singleton, Word.isWhile,
        Bool.false_eq_true, if_false, if_true, condition.countP_words, body.countP_words s h.2,
        body.length_loops _ 0]
      omega
  | .function name params body, s, h => by
      have hinside := body.definitions_inside (s.inside name params) nofun h.2.2.2.2
      have hbody := body.countP_words _ h.2.2.2.2
      rw [hinside] at hbody
      simp [Stmt.words, Stmt.loops, Stmt.definitions, Word.isWhile, hbody, loopCount]

theorem Block.countP_words : ∀ (b : Block) (s : Scope), b.Scoped s →
    b.words.countP Word.isWhile = (b.loops 0).length + loopCount (b.definitions s)
  | .nil, _, _ => rfl
  | .cons first rest, s, h => by
      rw [Block.words, Block.loops, Block.definitions, List.countP_append, List.length_append,
        loopCount_append, first.countP_words s h.1, rest.countP_words _ h.2,
        rest.length_loops (0 + first.size) 0]
      omega

theorem Arms.countP_words : ∀ (arms : Arms) (s : Scope), arms.Scoped s →
    arms.words.countP Word.isWhile = (arms.loops 0).length + loopCount (arms.definitions s)
  | .done, _, _ => rfl
  | .otherwise body, s, h => by
      rw [Arms.words, Arms.loops, Arms.definitions, ← body.countP_words s h]
      rfl
  | .elif condition body arms, s, h => by
      simp only [Arms.words, Arms.loops, Arms.definitions, List.countP_append, List.countP_cons,
        List.length_append, loopCount_append, Word.isWhile, Bool.false_eq_true, if_false,
        condition.countP_words, body.countP_words s h.2.1, arms.countP_words _ h.2.2,
        body.length_loops _ 0, arms.length_loops _ 0]
      omega

end

/-! ## Names of functions -/

mutual

/-- Every function that statements define can be called after them. -/
theorem Stmt.arity_after_ne_none : ∀ (x : Stmt) (s : Scope), x.Scoped s →
    ∀ f ∈ x.definitions s, (x.after s).arity f.name ≠ none
  | .simple _, _, _, _, hf | .when _ _, _, _, _, hf => nomatch hf
  | .choose _ body arms, s, h, f, hf => by
      obtain hf | hf := List.mem_append.mp hf
      · have hbody := body.arity_after_ne_none s h.2.1 f hf
        exact mt (arms.within_of_after _ h.2.2 (Scope.within_refl _)).arity_eq_none hbody
      · exact arms.arity_after_ne_none _ h.2.2 f hf
  | .loop _ body, s, h, f, hf => body.arity_after_ne_none s h.2 f hf
  | .function name params body, s, h, f, hf => by
      cases List.mem_singleton.mp hf
      simp [Stmt.after, Scope.defined]

theorem Block.arity_after_ne_none : ∀ (b : Block) (s : Scope), b.Scoped s →
    ∀ f ∈ b.definitions s, (b.after s).arity f.name ≠ none
  | .nil, _, _, _, hf => nomatch hf
  | .cons first rest, s, h, f, hf => by
      obtain hf | hf := List.mem_append.mp hf
      · have hfirst := first.arity_after_ne_none s h.1 f hf
        exact mt (rest.within_of_after _ h.2 (Scope.within_refl _)).arity_eq_none hfirst
      · exact rest.arity_after_ne_none _ h.2 f hf

theorem Arms.arity_after_ne_none : ∀ (arms : Arms) (s : Scope), arms.Scoped s →
    ∀ f ∈ arms.definitions s, (arms.after s).arity f.name ≠ none
  | .done, _, _, _, hf => nomatch hf
  | .otherwise body, s, h, f, hf => body.arity_after_ne_none s h f hf
  | .elif _ body arms, s, h, f, hf => by
      obtain hf | hf := List.mem_append.mp hf
      · have hbody := body.arity_after_ne_none s h.2.1 f hf
        exact mt (arms.within_of_after _ h.2.2 (Scope.within_refl _)).arity_eq_none hbody
      · exact arms.arity_after_ne_none _ h.2.2 f hf

end

/-- Functions that can be called and functions that cannot yet be have different names. -/
theorem nodup_names_append {definitions more : List Definition} {arity : String → Option Nat}
    (h : (definitions.map (·.name)).Nodup) (h' : (more.map (·.name)).Nodup)
    (hknown : ∀ f ∈ definitions, arity f.name ≠ none) (hnew : ∀ f ∈ more, arity f.name = none) :
    ((definitions ++ more).map (·.name)).Nodup := by
  rw [List.map_append]
  refine List.nodup_append.mpr ⟨h, h', ?_⟩
  rintro _ hname _ hname' rfl
  obtain ⟨f, hf, rfl⟩ := List.mem_map.mp hname
  obtain ⟨g, hg, heq⟩ := List.mem_map.mp hname'
  exact hknown f hf (heq ▸ hnew g hg)

mutual

/-- No two functions have the same name. -/
theorem Stmt.nodup_definitions : ∀ (x : Stmt) (s : Scope), x.Scoped s →
    ((x.definitions s).map (·.name)).Nodup
  | .simple _, _, _ | .when _ _, _, _ => List.nodup_nil
  | .choose _ body arms, s, h =>
      nodup_names_append (body.nodup_definitions s h.2.1) (arms.nodup_definitions _ h.2.2)
        (body.arity_after_ne_none s h.2.1) (arms.arity_of_definitions _ h.2.2)
  | .loop _ body, s, h => body.nodup_definitions s h.2
  | .function _ _ _, _, _ => List.pairwise_singleton _ _

theorem Block.nodup_definitions : ∀ (b : Block) (s : Scope), b.Scoped s →
    ((b.definitions s).map (·.name)).Nodup
  | .nil, _, _ => List.nodup_nil
  | .cons first rest, s, h =>
      nodup_names_append (first.nodup_definitions s h.1) (rest.nodup_definitions _ h.2)
        (first.arity_after_ne_none s h.1) (rest.arity_of_definitions _ h.2)

theorem Arms.nodup_definitions : ∀ (arms : Arms) (s : Scope), arms.Scoped s →
    ((arms.definitions s).map (·.name)).Nodup
  | .done, _, _ => List.nodup_nil
  | .otherwise body, s, h => body.nodup_definitions s h
  | .elif _ body arms, s, h =>
      nodup_names_append (body.nodup_definitions s h.2.1) (arms.nodup_definitions _ h.2.2)
        (body.arity_after_ne_none s h.2.1) (arms.arity_of_definitions _ h.2.2)

end

/-- What the functions of a script are compiled from: the script itself for the top level, and
the functions it defines. -/
def Block.bodies (b : Block) (s : Scope) : List (String × Block) :=
  (topLevel, b) :: (b.definitions s).map fun f => (f.name, f.body)

theorem Block.nodup_bodies {b : Block} {s : Scope} (h : b.Scoped s) :
    ((b.bodies s).map (·.1)).Nodup := by
  unfold Block.bodies
  rw [List.map_cons, List.map_map]
  refine List.nodup_cons.mpr ⟨?_, b.nodup_definitions s h⟩
  intro hmem
  obtain ⟨f, hf, hname⟩ := List.mem_map.mp hmem
  exact (b.definitions_within s h (Scope.within_refl _) f hf).1 hname

end LineScript.Tree

namespace LineScript.Compiler

open LineScript.Code LineScript.Tree LineScript.Machine

/-! ## Jumps of compiled functions -/

/-- The functions that were compiled with a program; those of the prelude had been there
before. -/
def compiled (c : Compiler) (p : Program) : List (String × Function) :=
  p.functions.toList.filter fun e => (c.shapes e.1).isNone

theorem find?_ne_none_of_mem {definitions : List Definition} {f : Definition}
    (hf : f ∈ definitions) : Definition.find? f.name definitions ≠ none := by
  induction definitions with
  | nil => cases hf
  | cons first rest ih =>
      rw [Definition.find?]
      obtain rfl | hf := List.mem_cons.mp hf
      · simp
      · simp [ih hf]

variable {c : Compiler} {b body : Block} {p : Program} {name : String} {f : Function}

theorem mem_compiled_iff :
    (name, f) ∈ c.compiled p ↔ p.functions.get? name = some f ∧ c.shapes name = none := by
  unfold compiled
  rw [List.mem_filter, Dict.get?_eq_some_iff, Option.isNone_iff_eq_none]
  rfl

theorem compiled_of_prelude?_eq_none (h : c.prelude? = none) (p : Program) :
    c.compiled p = p.functions.toList := by
  unfold compiled
  refine List.filter_eq_self.mpr fun e _ => ?_
  rw [shapes_of_prelude?_eq_none h]
  rfl

/-- What the prelude has can be called from the beginning. -/
theorem shapes_of_arity_eq_none (h : c.scope.arity name = none) : c.shapes name = none := by
  have h : (c.draft []).arity? name = none := h
  unfold Compile.Draft.arity? at h
  unfold shapes Compile.Draft.shapes
  cases hlookup : (c.draft []).functions.get? name with
  | none => rfl
  | some f =>
      rw [hlookup] at h
      cases h

/-- What a function of the program is compiled from, and the instructions behind: those that
return null at the end of a function. -/
theorem Compiles.exists_body (h : c.Compiles b p) (hf : (name, f) ∈ c.compiled p) :
    ∃ body ending, (name, body) ∈ b.bodies c.scope ∧
      f.code.toList.map Instruction.unplaced = body.code 0 ++ ending ∧
      ∀ i ∈ ending, i.op.isJump = false := by
  obtain ⟨hf, hnew⟩ := mem_compiled_iff.mp hf
  by_cases hname : name = topLevel
  · subst hname
    have hmain := h.main
    rw [Program.main?, hf, Option.map_some] at hmain
    refine ⟨b, [], List.mem_cons_self, ?_, List.forall_mem_nil _⟩
    rw [List.append_nil]
    exact congrArg Shape.code (Option.some.inj hmain)
  · have hshape := h.functions name hname
    rw [Program.function?, hf, Option.map_some, install_eq_find?, hnew, Option.or_none] at hshape
    obtain ⟨g, hg, heq⟩ := Option.map_eq_some_iff.mp hshape.symm
    obtain ⟨hmem, rfl⟩ := mem_of_find? hg
    refine ⟨g.body, [constant .null, plain .ret],
      List.mem_cons_of_mem _ (List.mem_map.mpr ⟨g, hmem, rfl⟩), ?_, by decide⟩
    exact congrArg Shape.code heq.symm

/-- Everything that can be compiled to a function is. -/
theorem Compiles.exists_compiled (h : c.Compiles b p) (hbody : (name, body) ∈ b.bodies c.scope) :
    ∃ f, (name, f) ∈ c.compiled p := by
  obtain hbody | hbody := List.mem_cons.mp hbody
  · cases hbody
    obtain ⟨f, hf, -⟩ := Option.map_eq_some_iff.mp h.main
    exact ⟨f, mem_compiled_iff.mpr ⟨hf, c.shapes_topLevel⟩⟩
  · obtain ⟨g, hg, heq⟩ := List.mem_map.mp hbody
    cases heq
    have hname := (b.definitions_within _ h.inScope (Scope.within_refl _) g hg).1
    have hnew := shapes_of_arity_eq_none (b.arity_of_definitions _ h.inScope g hg)
    have hshape := h.functions g.name hname
    obtain ⟨found, hfound⟩ := Option.ne_none_iff_exists'.mp (find?_ne_none_of_mem hg)
    rw [install_eq_find?, hfound, hnew, Option.or_none, Option.map_some] at hshape
    obtain ⟨f, hf, -⟩ := Option.map_eq_some_iff.mp hshape
    exact ⟨f, mem_compiled_iff.mpr ⟨hf, hnew⟩⟩

/-- The jumps of a compiled function that do not go forward are those that close its loops. -/
theorem backward_of_code {ending : List Instruction}
    (hcode : f.code.toList.map Instruction.unplaced = body.code 0 ++ ending)
    (hending : ∀ i ∈ ending, i.op.isJump = false) :
    f.backward.map (fun e => (e.1, e.2.unplaced)) = (body.loops 0).map Loop.jump := by
  unfold Function.backward
  rw [← backward_map_unplaced, hcode, backward_append, body.backward_code,
    backward_eq_nil hending, List.append_nil]

/-- A function whose jumps are those of the given loops: each goes forward, unless it is the
last instruction of a loop, where it goes back to the first instruction of the
condition. -/
structure Structured (f : Function) (loops : List Loop) : Prop where
  forward : ∀ (a : Nat) (i : Instruction), f.code[a]? = some i →
    i.op = .branch ∨ i.op = .skipAnd ∨ i.op = .skipOr → a < i.target
  jump : ∀ (a : Nat) (i : Instruction), f.code[a]? = some i → i.op = .jump →
    a < i.target ∨ ∃ l ∈ loops, a = l.closing ∧ i.target = l.start
  placed : ∀ l ∈ loops, Placed (f.code.toList.map Instruction.unplaced) l.start l.code

theorem structured_of_code {ending : List Instruction}
    (hcode : f.code.toList.map Instruction.unplaced = body.code 0 ++ ending)
    (hending : ∀ i ∈ ending, i.op.isJump = false) : Structured f (body.loops 0) := by
  -- A jump that does not go forward closes a loop.
  have hback : ∀ (a : Nat) (i : Instruction), f.code[a]? = some i → i.op.isJump = true →
      i.target ≤ a → ∃ l ∈ body.loops 0, a = l.closing ∧ i.op = .jump ∧ i.target = l.start := by
    intro a i hi hjump hle
    have hi : f.code.toList[a]? = some i := by rw [Array.getElem?_toList, hi]
    have hmem := List.mem_map_of_mem (f := fun e : Nat × Instruction => (e.1, e.2.unplaced))
      (mem_backward (a := 0) hi hjump (by omega))
    rw [Nat.zero_add] at hmem
    have hmem := (backward_of_code hcode hending) ▸ hmem
    obtain ⟨l, hl, heq⟩ := List.mem_map.mp hmem
    obtain ⟨haddress, hinstruction⟩ := Prod.mk.inj heq
    exact ⟨l, hl, haddress.symm, (congrArg Instruction.op hinstruction).symm,
      (congrArg Instruction.target hinstruction).symm⟩
  refine ⟨fun a i hi hop => ?_, fun a i hi hop => ?_, ?_⟩
  · refine Int.not_le.mp fun hle => ?_
    have hjump : i.op.isJump = true := by obtain h | h | h := hop <;> rw [h] <;> rfl
    obtain ⟨-, -, -, hop', -⟩ := hback a i hi hjump hle
    rw [hop'] at hop
    simp at hop
  · obtain hlt | hle := Int.lt_or_le (a : Int) i.target
    · exact .inl hlt
    · obtain ⟨l, hl, haddress, -, htarget⟩ := hback a i hi (by rw [hop]; rfl) hle
      exact .inr ⟨l, hl, haddress, htarget⟩
  · exact body.placed_loops ⟨[], ending, hcode, rfl⟩

/-- Each function has as many jumps that do not go forward as what it is compiled from has
loops. -/
theorem Compiles.perm_counts (h : c.Compiles b p) :
    ((c.compiled p).map fun e => (e.1, e.2.backward.length)).Perm
      ((b.bodies c.scope).map fun e => (e.1, (e.2.loops 0).length)) := by
  have hnames : ((c.compiled p).map (·.1)).Nodup :=
    (Dict.nodup_keys p.functions).sublist (List.filter_sublist.map _)
  have hbodies := b.nodup_bodies h.inScope
  have hcount : ∀ {name f}, (name, f) ∈ c.compiled p → ∃ body, (name, body) ∈ b.bodies c.scope ∧
      f.backward.length = (body.loops 0).length := by
    intro name f hf
    obtain ⟨body, ending, hbody, hcode, hending⟩ := h.exists_body hf
    refine ⟨body, hbody, ?_⟩
    have hlength := congrArg List.length (backward_of_code hcode hending)
    rwa [List.length_map, List.length_map] at hlength
  have hnodup : ((c.compiled p).map fun e => (e.1, e.2.backward.length)).Nodup :=
    .of_map Prod.fst (by rwa [List.map_map])
  have hnodup' : ((b.bodies c.scope).map fun e => (e.1, (e.2.loops 0).length)).Nodup :=
    .of_map Prod.fst (by rwa [List.map_map])
  refine (List.perm_ext_iff_of_nodup hnodup hnodup').mpr fun e => ⟨fun he => ?_, fun he => ?_⟩
  · obtain ⟨⟨name, f⟩, hf, rfl⟩ := List.mem_map.mp he
    obtain ⟨body, hbody, hlength⟩ := hcount hf
    exact List.mem_map.mpr ⟨(name, body), hbody, by rw [hlength]⟩
  · obtain ⟨⟨name, body⟩, hbody, rfl⟩ := List.mem_map.mp he
    obtain ⟨f, hf⟩ := h.exists_compiled hbody
    obtain ⟨body', hbody', hlength⟩ := hcount hf
    cases List.inj_on_of_nodup_map hbodies hbody' hbody rfl
    exact List.mem_map.mpr ⟨(name, f), hf, by rw [hlength]⟩

/-- A program has as many jumps that do not go forward as its source has words that begin
loops. -/
theorem Compiles.sum_backward (h : c.Compiles b p) :
    ((c.compiled p).map fun e => e.2.backward.length).sum = b.words.countP Word.isWhile := by
  have hsum := (h.perm_counts.map Prod.snd).sum_nat
  rw [List.map_map, List.map_map] at hsum
  rw [b.countP_words _ h.inScope]
  refine hsum.trans ?_
  unfold Block.bodies loopCount
  rw [List.map_cons, List.sum_cons, List.map_map]
  rfl

end LineScript.Compiler
