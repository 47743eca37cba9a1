/-
# What a compilation reads and writes

A step of a compilation consumes tokens and appends instructions. `Moves` says which
words went by and which instructions were appended, lines aside, and that nothing
else changed; moves compose, so the effect of a construct is the composition of the
effects of its parts. A placeholder is part of what was appended until it is resolved
in place.

`Sound` is what is proved of every result: a draft that has the wanted property, or
an error that is the script's own fault.
-/

import LineScript.Proofs.Drafts
import LineScript.Proofs.Scope

namespace LineScript.Code

/-- An instruction without its line. -/
def Instruction.unplaced (i : Instruction) : Instruction := { i with line := 0 }

@[simp]
theorem Instruction.unplaced_op (i : Instruction) : i.unplaced.op = i.op := rfl

@[simp]
theorem Instruction.unplaced_target (i : Instruction) : i.unplaced.target = i.target := rfl

theorem Instruction.isResolved_unplaced (i : Instruction) :
    i.unplaced.isResolved = i.isResolved := rfl

end LineScript.Code

namespace LineScript.Compile

open LineScript.Code LineScript.Tree

/-! ## Results -/

/-- A result that is as wanted, or an error that is the script's own fault. -/
def Sound {α : Type} (good : α → Prop) : Except CompileError α → Prop
  | .ok a => good a
  | .error e => e.kind ≠ .internalError

namespace Sound

variable {α β : Type} {good better : α → Prop} {fine : β → Prop} {r : Except CompileError α}

theorem bind {f : α → Except CompileError β} (h : Sound good r)
    (hf : ∀ a, r = .ok a → good a → Sound fine (f a)) : Sound fine (r >>= f) := by
  cases r with
  | error e => exact h
  | ok a => exact hf a rfl h

theorem mono (h : Sound good r) (hgood : ∀ a, good a → better a) : Sound better r := by
  cases r with
  | error e => exact h
  | ok a => exact hgood a h

theorem of_ok {a : α} (h : Sound good r) (hr : r = .ok a) : good a := by
  subst hr
  exact h

end Sound

theorem sound_at (t : Token) (cause : CompileCause) (h : cause.kind ≠ .internalError)
    {α : Type} (good : α → Prop) : Sound good (.error (.at_ t cause)) := h

namespace Draft

/-! ## Views -/

/-- The instructions written so far, without their lines. -/
def code (d : Draft) : List Instruction := d.body.code.toList.map Instruction.unplaced

/-- A draft without its tokens and its instructions. -/
def frame (d : Draft) : Draft :=
  { d with rest := [], consumed? := none, body := { d.body with code? := none } }

/-- The names that can be used where the compilation stands. -/
def scope (d : Draft) : Scope :=
  ⟨d.body.declares, d.outer?.map (·.declares), d.arity?⟩

theorem length_code (d : Draft) : d.code.length = d.address := by
  simp [code, address, Function.length]

theorem sees?_eq_scope (d : Draft) (name : String) : d.sees? name = d.scope.sees name := by
  cases d with
  | mk rest consumed? lastLine body outer? functions natives => cases outer? <;> rfl

theorem scope_eq_of_frame {d d' : Draft} (h : d'.frame = d.frame) : d'.scope = d.scope := by
  have hscope := congrArg (fun x : Draft => x.scope) h
  exact hscope

theorem sees?_eq_of_frame {d d' : Draft} (h : d'.frame = d.frame) (name : String) :
    d'.sees? name = d.sees? name := by
  rw [sees?_eq_scope, sees?_eq_scope, scope_eq_of_frame h]

@[simp]
theorem frame_next (d : Draft) : d.next.frame = d.frame := by
  unfold next
  split <;> rfl

@[simp]
theorem body_next (d : Draft) : d.next.body = d.body := by
  unfold next
  split <;> rfl

@[simp]
theorem code_next (d : Draft) : d.next.code = d.code := by
  unfold code
  rw [body_next]

@[simp]
theorem frame_skipLineBreaks (d : Draft) : d.skipLineBreaks.frame = d.frame := by
  obtain ⟨last?, h⟩ := d.skipLineBreaks_eq
  rw [h]
  rfl

@[simp]
theorem code_skipLineBreaks (d : Draft) : d.skipLineBreaks.code = d.code := by
  obtain ⟨last?, h⟩ := d.skipLineBreaks_eq
  rw [h]
  rfl

theorem code_emitInstruction (d : Draft) (i : Instruction) :
    (d.emitInstruction i).code = d.code ++ [i.unplaced] := by
  simp [code, emitInstruction, Function.emit, Function.code, Instruction.unplaced]

theorem code_emitJump (d : Draft) (op : Opcode) :
    (d.emitJump op).code = d.code ++ [jumpTo op unresolvedTarget] := by
  simp [code, emitJump, Function.emitJump, Function.emit, Function.code, Instruction.unplaced,
    jumpTo]

theorem code_emitJumpTo (d : Draft) (op : Opcode) (target : Nat) :
    (d.emitJumpTo op target).code = d.code ++ [jumpTo op target] := by
  simp [code, emitJumpTo, Function.emitJumpTo, Function.emit, Function.code,
    Instruction.unplaced, jumpTo]

/-! ## Moves -/

/-- From one draft to another, the given words went by and the given instructions
were appended, and nothing else changed. -/
structure Moves (d : Draft) (words : List Word) (code : List Instruction) (d' : Draft) :
    Prop where
  tokens : ∃ ts, d.rest = ts ++ d'.rest ∧ Word.ofTokens ts = words
  code_eq : d'.code = d.code ++ code
  frame_eq : d'.frame = d.frame

namespace Moves

theorem refl (d : Draft) : d.Moves [] [] d :=
  ⟨⟨[], rfl, rfl⟩, (List.append_nil _).symm, rfl⟩

theorem trans {d d₁ d₂ : Draft} {words words' : List Word} {code code' : List Instruction}
    (h : d.Moves words code d₁) (h' : d₁.Moves words' code' d₂) :
    d.Moves (words ++ words') (code ++ code') d₂ := by
  obtain ⟨ts, hrest, hwords⟩ := h.tokens
  obtain ⟨ts', hrest', hwords'⟩ := h'.tokens
  refine ⟨⟨ts ++ ts', ?_, ?_⟩, ?_, h'.frame_eq.trans h.frame_eq⟩
  · rw [hrest, hrest', List.append_assoc]
  · rw [Word.ofTokens, List.filterMap_append, ← hwords, ← hwords']
    rfl
  · rw [h'.code_eq, h.code_eq, List.append_assoc]

variable {d d' : Draft} {words : List Word} {code : List Instruction}

theorem address_eq (h : d.Moves words code d') : d'.address = d.address + code.length := by
  rw [← length_code, ← length_code, h.code_eq, List.length_append]

theorem scope_eq (h : d.Moves words code d') : d'.scope = d.scope :=
  scope_eq_of_frame h.frame_eq

/-- The tokens left are among those there were. -/
theorem mem_of_mem_rest (h : d.Moves words code d') {t : Token} (ht : t ∈ d'.rest) :
    t ∈ d.rest := by
  obtain ⟨ts, hrest, -⟩ := h.tokens
  rw [hrest]
  exact List.mem_append_right ts ht

end Moves

/-- The kinds of tokens whose word is the kind itself. -/
def isSymbol : TokenKind → Bool
  | .identifier | .number | .string | .boolean | .lineBreak | .leftParen | .rightParen | .comma
  | .endOfInput => false
  | _ => true

/-- The kinds of tokens that are no words. -/
def isSilent : TokenKind → Bool
  | .lineBreak | .leftParen | .rightParen | .comma => true
  | _ => false

theorem ofToken?_of_isSymbol {t : Token} {kind : TokenKind} (hkind : t.kind = kind)
    (hsymbol : isSymbol kind = true) : Word.ofToken? t = some (.symbol kind) := by
  unfold Word.ofToken?
  rw [hkind]
  cases kind <;> first | rfl | cases hsymbol

theorem ofToken?_of_isSilent {t : Token} {kind : TokenKind} (hkind : t.kind = kind)
    (hsilent : isSilent kind = true) : Word.ofToken? t = none := by
  unfold Word.ofToken?
  rw [hkind]
  cases kind <;> first | rfl | cases hsilent

/-- Consuming a token moves past its word. -/
theorem moves_next {d : Draft} (h : d.peek.kind ≠ .endOfInput) :
    d.Moves (Word.ofToken? d.peek).toList [] d.next := by
  obtain ⟨rest, hrest⟩ := rest_eq_cons_of_peek h
  refine ⟨⟨[d.peek], ?_, ?_⟩, by simp, by simp⟩
  · rw [rest_next, hrest]
    rfl
  · cases hword : Word.ofToken? d.peek <;> simp [Word.ofTokens, hword]

theorem moves_symbol {d : Draft} {kind : TokenKind} (hkind : d.peek.kind = kind)
    (hsymbol : isSymbol kind = true) : d.Moves [.symbol kind] [] d.next := by
  have hreal : d.peek.kind ≠ .endOfInput := by
    rintro h
    rw [← hkind, h] at hsymbol
    cases hsymbol
  have h := moves_next hreal
  rwa [ofToken?_of_isSymbol hkind hsymbol] at h

theorem moves_silent {d : Draft} {kind : TokenKind} (hkind : d.peek.kind = kind)
    (hsilent : isSilent kind = true) : d.Moves [] [] d.next := by
  have hreal : d.peek.kind ≠ .endOfInput := by
    rintro h
    rw [← hkind, h] at hsilent
    cases hsilent
  have h := moves_next hreal
  rwa [ofToken?_of_isSilent hkind hsilent] at h

theorem moves_name {d : Draft} (hkind : d.peek.kind = .identifier) :
    d.Moves [.name d.peek.text] [] d.next := by
  have h := moves_next (d := d) (by rw [hkind]; decide)
  rwa [show Word.ofToken? d.peek = some (.name d.peek.text) by
    unfold Word.ofToken?; rw [hkind]] at h

theorem moves_skipLineBreaks (d : Draft) : d.Moves [] [] d.skipLineBreaks := by
  refine ⟨⟨d.rest.takeWhile (fun t => t.kind = .lineBreak), ?_, ?_⟩, by simp, by simp⟩
  · rw [rest_skipLineBreaks, List.takeWhile_append_dropWhile]
  · rw [Word.ofTokens, List.filterMap_eq_nil_iff]
    intro t ht
    have hkind : t.kind = .lineBreak := by
      simpa using List.all_eq_true.mp (List.all_takeWhile (l := d.rest)
        (p := fun t => decide (t.kind = .lineBreak))) t ht
    unfold Word.ofToken?
    rw [hkind]

theorem moves_emit (d : Draft) (op : Opcode) : d.Moves [] [plain op] (d.emit op) :=
  ⟨⟨[], rfl, rfl⟩, d.code_emitInstruction _, rfl⟩

theorem moves_emitValue (d : Draft) (l : Literal) : d.Moves [] [constant l] (d.emitValue l) :=
  ⟨⟨[], rfl, rfl⟩, d.code_emitInstruction _, rfl⟩

theorem moves_emitName (d : Draft) (op : Opcode) (name : String) :
    d.Moves [] [named op name] (d.emitName op name) :=
  ⟨⟨[], rfl, rfl⟩, d.code_emitInstruction _, rfl⟩

theorem moves_emitJump (d : Draft) (op : Opcode) :
    d.Moves [] [jumpTo op unresolvedTarget] (d.emitJump op) :=
  ⟨⟨[], rfl, rfl⟩, d.code_emitJump op, rfl⟩

theorem moves_emitJumpTo (d : Draft) (op : Opcode) (target : Nat) :
    d.Moves [] [jumpTo op target] (d.emitJumpTo op target) :=
  ⟨⟨[], rfl, rfl⟩, d.code_emitJumpTo op target, rfl⟩

/-! ## Expected tokens -/

theorem sound_expect (d : Draft) (kind : TokenKind) :
    Sound (fun d' => d.peek.kind = kind ∧ d' = d.next) (d.expect kind) := by
  unfold expect
  split
  · rename_i h
    exact ⟨sees_iff.mp h, rfl⟩
  · exact sound_at d.peek (.unexpected d.peek.kind kind) (by simp [CompileCause.kind]) _

theorem sound_expectText (d : Draft) (kind : TokenKind) :
    Sound (fun r => d.peek.kind = kind ∧ r = (d.peek.text, d.next)) (d.expectText kind) := by
  unfold expectText expect
  split
  · rename_i h
    exact ⟨sees_iff.mp h, rfl⟩
  · exact sound_at d.peek (.unexpected d.peek.kind kind) (by simp [CompileCause.kind]) _

theorem sound_expectSymbol (d : Draft) (kind : TokenKind) (hsymbol : isSymbol kind = true) :
    Sound (d.Moves [.symbol kind] [] ·) (d.expect kind) := by
  refine (d.sound_expect kind).mono ?_
  rintro d' ⟨hkind, rfl⟩
  exact moves_symbol hkind hsymbol

theorem sound_expectSilent (d : Draft) (kind : TokenKind) (hsilent : isSilent kind = true) :
    Sound (d.Moves [] [] ·) (d.expect kind) := by
  refine (d.sound_expect kind).mono ?_
  rintro d' ⟨hkind, rfl⟩
  exact moves_silent hkind hsilent

theorem sound_expectLineEnd (d : Draft) : Sound (d.Moves [] [] ·) d.expectLineEnd := by
  unfold expectLineEnd
  split
  · exact Moves.refl d
  · exact d.sound_expectSilent .lineBreak rfl

/-! ## Placeholders -/

/-- The placeholder among the instructions, lines and all. -/
theorem toList_code_of_code_eq {d : Draft} {before after : List Instruction} {i : Instruction}
    (hcode : d.code = before ++ i :: after) :
    ∃ pre j post, d.body.code.toList = pre ++ j :: post ∧ pre.map Instruction.unplaced = before ∧
      j.unplaced = i ∧ post.map Instruction.unplaced = after := by
  obtain ⟨pre, tail, hlist, hpre, htail⟩ := List.map_eq_append_iff.mp hcode
  obtain ⟨j, post, rfl, hj, hpost⟩ := List.map_eq_cons_iff.mp htail
  exact ⟨pre, j, post, hlist, hpre, hj, hpost⟩

/-- A placeholder is resolved in place. -/
theorem patchHere_of_code_eq {d : Draft} {before after : List Instruction} {op : Opcode}
    (hjump : op.isJump = true)
    (hcode : d.code = before ++ jumpTo op unresolvedTarget :: after) :
    ∃ d', d.patchHere before.length = .ok d' ∧ d'.rest = d.rest ∧ d'.consumed? = d.consumed? ∧
      d'.code = before ++ jumpTo op d.address :: after ∧ d'.frame = d.frame := by
  obtain ⟨pre, i, post, hlist, hpre, hi, hpost⟩ := toList_code_of_code_eq hcode
  have hlength : before.length = pre.length := by rw [← hpre, List.length_map]
  have hget : d.body.code[before.length]? = some i := by
    rw [← Array.getElem?_toList, hlist, hlength]
    simp
  have hop : i.op = op := by rw [← i.unplaced_op, hi]; rfl
  have htarget : i.target = unresolvedTarget := by rw [← i.unplaced_target, hi]; rfl
  have hpatch : d.body.patchHere before.length = .ok ({ d.body with
      code? := some (d.body.code.modify before.length
        fun i => { i with target := d.body.length }) } : Function) := by
    unfold Function.patchHere Function.patch
    rw [if_neg (by omega)]
    simp only [Int.toNat_natCast, hget]
    rw [if_neg (by simp [hop, hjump]), if_neg (by simp [htarget]), if_neg (by simp)]
  refine ⟨({ d with body := { d.body with
      code? := some (d.body.code.modify before.length
        fun i => { i with target := d.body.length }) } } : Draft), ?_, rfl, rfl, ?_, rfl⟩
  · unfold patchHere
    rw [hpatch]
  · have hmodified : (d.body.code.modify before.length
        fun i => { i with target := d.body.length }).toList =
          pre ++ { i with target := d.body.length } :: post := by
      rw [Array.toList_modify, hlist, hlength, List.modify_eq_take_cons_drop (by simp)]
      simp
    change List.map _ (Array.toList _) = _
    rw [Function.code, Option.getD_some, hmodified, List.map_append, List.map_cons, hpre, hpost]
    have hunplaced : Instruction.unplaced { i with target := d.body.length } =
        { i.unplaced with target := d.body.length } := rfl
    rw [hunplaced, hi]
    rfl

/-- Resolving a placeholder among the instructions of a move. -/
theorem Moves.sound_patchHere {d d' : Draft} {words : List Word} (op : Opcode) (address : Nat)
    (before after : List Instruction)
    (h : d.Moves words (before ++ jumpTo op unresolvedTarget :: after) d')
    (hjump : op.isJump = true) (haddress : address = d.address + before.length) :
    Sound (d.Moves words (before ++ jumpTo op d'.address :: after) ·) (d'.patchHere address) := by
  have hcode : d'.code = (d.code ++ before) ++ jumpTo op unresolvedTarget :: after := by
    rw [h.code_eq, List.append_assoc]
  obtain ⟨d'', hpatch, hrest, -, hcode', hframe⟩ := patchHere_of_code_eq hjump hcode
  rw [haddress, ← d.length_code, ← List.length_append, hpatch]
  refine ⟨?_, ?_, hframe.trans h.frame_eq⟩
  · rw [hrest]
    exact h.tokens
  · rw [hcode', List.append_assoc]

/-- Without placeholders the check that there are none succeeds. -/
theorem checkResolved_of_code {d : Draft} (h : ∀ i ∈ d.code, i.isResolved = true) :
    d.checkResolved = .ok d := by
  have hnone : d.body.unresolved = [] := by
    unfold Function.unresolved
    rw [List.map_eq_nil_iff, List.filter_eq_nil_iff]
    rintro ⟨i, address⟩ hmem
    have hi : i ∈ d.body.code.toList := by
      have := List.mem_zipIdx hmem
      rw [this.2.2]
      exact List.getElem_mem _
    have hresolved := h i.unplaced (List.mem_map_of_mem hi)
    simpa [Instruction.isResolved_unplaced] using hresolved
  unfold checkResolved
  rw [hnone]

end Draft

end LineScript.Compile
